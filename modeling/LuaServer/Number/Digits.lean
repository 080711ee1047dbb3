/-
# Runs of digits

Numerals in every language that the server reads (the language of its documents, JSON, TOML and the
arguments of the command line) are runs of digits, sometimes with single underscores between two
digits.  This module reads such runs.

* `digits?`: the digits of a text that consists of digits and single inner underscores.
* `ofDigits`: the number that a list of digits writes in a base.
* `natural?`: both, for decimal digits, under the limit on the number of digits.
-/
import LuaServer.Text.Basic

namespace LuaServer

/-! ## 1. Digits of a base -/

/-- The value of an ASCII decimal digit. -/
def decimalDigit? (c : Code) : Option Nat :=
  if code '0' ≤ c ∧ c ≤ code '9' then some (c - code '0') else none

/-- The value of an ASCII hexadecimal digit. -/
def hexDigit? (c : Code) : Option Nat :=
  if code '0' ≤ c ∧ c ≤ code '9' then some (c - code '0')
  else if code 'a' ≤ c ∧ c ≤ code 'f' then some (c - code 'a' + 10)
  else if code 'A' ≤ c ∧ c ≤ code 'F' then some (c - code 'A' + 10)
  else none

/-- An ASCII decimal digit. -/
def isDigit (c : Code) : Bool := code '0' ≤ c && c ≤ code '9'

/-- An ASCII hexadecimal digit. -/
def isHexDigit (c : Code) : Bool := (hexDigit? c).isSome

/-- The number that a list of digits, most significant first, writes in a base. -/
def ofDigits (base : Nat) (ds : List Nat) : Nat := ds.foldl (fun n d => n * base + d) 0

/-! ## 2. Grouped digits -/

/-- The digits of a text in which every code point is a digit or a single underscore between two
digits.  The text must begin with a digit. -/
def digits? (digit? : Code → Option Nat) : Text → Option (List Nat)
  | [] => none
  | [c] => (digit? c).map ([·])
  | c :: d :: cs =>
    match digit? c with
    | none => none
    | some v =>
      if d = code '_' then (digits? digit? cs).map (v :: ·)
      else (digits? digit? (d :: cs)).map (v :: ·)

/-- The largest number of decimal digits that an integer may be written with or printed in. -/
def maxDigits : Nat := 4300

/-- The wording for an integer with too many digits. -/
def tooManyDigitsMessage (digits : Nat) : Text :=
  text "Exceeds the limit (" ++ decimal maxDigits
    ++ text " digits) for integer string conversion: value has " ++ decimal digits
    ++ text " digits; use sys.set_int_max_str_digits() to increase the limit"

/-- The number that decimal digits write, underscores apart, if they are not too many.  Leading
zeros count as digits. -/
def natural? (digit? : Code → Option Nat) (t : Text) : Option Nat :=
  match digits? digit? t with
  | some ds => if ds.length ≤ maxDigits then some (ofDigits 10 ds) else none
  | none => none

/-- The number that hexadecimal digits write, if its decimal form is not too long. -/
def hexNatural? (t : Text) : Option Nat :=
  match digits? hexDigit? t with
  | some ds =>
    let n := ofDigits 16 ds
    if n < Nat.pow 10 maxDigits then some n else none
  | none => none

end LuaServer
