/-
# Binary floating-point numbers

The server never computes with fractions: it reads them, compares nothing, and writes them back.
So a double is kept as what it denotes, `mantissa * 2 ^ exponent`, and both reading and writing are
exact arithmetic on natural numbers.

* `Double.ofRatio`: the double nearest to a quotient, a half going to the even mantissa.
* `Double.ofScientific`: the double nearest to `digits * 10 ^ exponent`.
* `Double.decimal?`, `Double.hexadecimal?`: numerals with a point or an exponent.
* `Double.truncate?`: the integer part.
-/
import LuaServer.Number.Digits

namespace LuaServer

/-- A double.  A finite one has a mantissa below `2 ^ 53` and an exponent from `-1074` to `971`;
the mantissa is at least `2 ^ 52` unless the exponent is the least one. -/
inductive Double where
  | finite (negative : Bool) (mantissa : Nat) (exponent : Int)
  | infinite (negative : Bool)
  | nan
deriving DecidableEq, Repr, Inhabited

namespace Double

/-! ## 1. Rounding -/

/-- Numerator and denominator of `num / den / 2 ^ e`. -/
def scaled (num den : Nat) (e : Int) : Nat × Nat :=
  if 0 ≤ e then (num, den * Nat.pow 2 e.toNat) else (num * Nat.pow 2 (-e).toNat, den)

/-- The integer nearest to a quotient, a half going to the even neighbour. -/
def roundDiv (num den : Nat) : Nat :=
  let q := num / den
  let r := num % den
  if 2 * r < den then q
  else if den < 2 * r then q + 1
  else if q % 2 = 0 then q else q + 1

/-- The exponent of the doubles between which `num / den` lies.  With `l` the difference of the
binary lengths, the quotient is between `2 ^ (l - 1)` and `2 ^ (l + 1)`. -/
def gridExponent (num den : Nat) : Int :=
  let l : Int := (num.log2 : Int) - (den.log2 : Int)
  let (n, d) := scaled num den (l - 53)
  let e := if Nat.pow 2 53 ≤ n / d then l - 52 else l - 53
  max (-1074) e

/-- The double nearest to `num / den`, and infinity beyond the largest double. -/
def ofRatio (negative : Bool) (num den : Nat) : Double :=
  if num = 0 then .finite negative 0 (-1074)
  else
    let e := gridExponent num den
    let (n, d) := scaled num den e
    let m := roundDiv n d
    let (m, e) := if m = Nat.pow 2 53 then (Nat.pow 2 52, e + 1) else (m, e)
    if 971 < e then .infinite negative else .finite negative m e

/-- The double nearest to `digits * 10 ^ exponent`.  Far outside the range of doubles the power is
not computed: `size` bounds the decimal length of `digits`. -/
def ofScientific (negative : Bool) (digits size : Nat) (exponent : Int) : Double :=
  if digits = 0 then .finite negative 0 (-1074)
  else if 400 < exponent + (Nat.toDigits 10 digits).length then .infinite negative
  else if exponent + size < -400 then .finite negative 0 (-1074)
  else if 0 ≤ exponent then ofRatio negative (digits * Nat.pow 10 exponent.toNat) 1
  else ofRatio negative digits (Nat.pow 10 (-exponent).toNat)

/-! ## 2. Reading -/

/-- A sign in front of a text. -/
def sign : Text → Bool × Text
  | [] => (false, [])
  | c :: cs =>
    if c = code '-' then (true, cs) else if c = code '+' then (false, cs) else (false, c :: cs)

/-- The parts of a text before and after the first code point that satisfies `p`. -/
def cut (p : Code → Bool) (t : Text) : Text × Option Text :=
  match t.dropWhile (fun c => !p c) with
  | [] => (t, none)
  | _ :: rest => (t.takeWhile (fun c => !p c), some rest)

/-- The exponent after its mark: a sign and digits. -/
def exponent? (t : Text) : Option Int :=
  let (neg, ds) := sign t
  (digits? decimalDigit? ds).map fun ds =>
    let n := ofDigits 10 ds
    if neg then -(n : Int) else n

/-- Digits of a part that may be empty. -/
def digitsOrNone? (digit? : Code → Option Nat) (t : Text) : Option (List Nat) :=
  if t = [] then some [] else digits? digit? t

/-- A decimal numeral: digits with at most one point, then at most one exponent.  Underscores may
stand between two digits. -/
def decimal? (t : Text) : Option Double :=
  let (neg, t) := sign t
  let (mantissa, exp) := cut (fun c => c = code 'e' || c = code 'E') t
  let (whole, fraction) := cut (· = code '.') mantissa
  match digitsOrNone? decimalDigit? whole, digitsOrNone? decimalDigit? (fraction.getD []),
      exp.elim (some 0) exponent? with
  | some w, some f, some e =>
    if w = [] ∧ f = [] then none
    else
      let ds := w ++ f
      some (ofScientific neg (ofDigits 10 ds) ds.length (e - f.length))
  | _, _, _ => none

/-- A hexadecimal numeral after its `0x`: digits with at most one point, then at most one binary
exponent, without underscores.  A value beyond the largest double is refused. -/
def hexadecimal? (t : Text) : Option Double :=
  let (mantissa, exp) := cut (fun c => c = code 'p' || c = code 'P') t
  let (whole, fraction) := cut (· = code '.') mantissa
  let fraction := fraction.getD []
  let ds := (whole ++ fraction).mapM hexDigit?
  let plain := (exp.getD []).all (· != code '_')
  match ds, exp.elim (some 0) exponent?, plain with
  | some ds, some e, true =>
    if ds = [] then none
    else
      let m := ofDigits 16 ds
      let e := e - 4 * fraction.length
      if m = 0 then some (.finite false 0 (-1074))
      else if 2000 < e + m.log2 then none
      else if e + m.log2 < -2000 then some (.finite false 0 (-1074))
      else
        let d :=
          if 0 ≤ e then ofRatio false (m * Nat.pow 2 e.toNat) 1
          else ofRatio false m (Nat.pow 2 (-e).toNat)
        match d with
        | .infinite _ => none
        | d => some d
  | _, _, _ => none

/-! ## 3. The integer part -/

/-- The integer part of a finite double, rounded toward zero. -/
def truncate? : Double → Option Int
  | .finite neg m e =>
    let n : Nat := if 0 ≤ e then m * Nat.pow 2 e.toNat else m / Nat.pow 2 (-e).toNat
    some (if neg then -(n : Int) else n)
  | _ => none

end Double

end LuaServer
