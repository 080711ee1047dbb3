/-
# UTF-8

Messages travel as bytes and are UTF-8.  Decoding names the first stretch of bytes that is not, and
why; encoding fails exactly on surrogates.

* `Utf8.unit`: one encoded code point, or the extent of what is wrong with it.
* `Utf8.decode`: a whole text; `Utf8.decodeReplacing` never fails.
* `Utf8.encode`: the bytes of a text without surrogates.
-/
import LuaServer.Text.Basic

namespace LuaServer

/-- A sequence of bytes. -/
abbrev Bytes := List UInt8

/-- The bytes of an ASCII text. -/
def asciiBytes (t : Text) : Bytes := t.map (·.toUInt8)

namespace Utf8

/-! ## 1. Decoding -/

/-- Why bytes are not UTF-8. -/
inductive Reason where
  | invalidStart
  | invalidContinuation
  | unexpectedEnd
deriving DecidableEq, Repr

/-- The wording of a reason. -/
def Reason.message : Reason → Text
  | .invalidStart => text "invalid start byte"
  | .invalidContinuation => text "invalid continuation byte"
  | .unexpectedEnd => text "unexpected end of data"

/-- The first stretch of bytes that cannot be decoded: its first byte, its place and its size. -/
structure Fault where
  reason : Reason
  byte : UInt8
  start : Nat
  size : Nat
deriving DecidableEq, Repr

/-- `count` continuation bytes after the first, the next of them between `lo` and `hi`.  `value` and
`taken` are the bits and the bytes so far. -/
def continuation (value taken : Nat) :
    (count : Nat) → (lo hi : Nat) → Bytes → Except (Reason × Nat) (Code × Nat)
  | 0, _, _, _ => .ok (value, taken)
  | _ + 1, _, _, [] => .error (.unexpectedEnd, taken)
  | count + 1, lo, hi, b :: bs =>
    if lo ≤ b.toNat ∧ b.toNat ≤ hi then
      continuation (value * 64 + b.toNat % 64) (taken + 1) count 0x80 0xBF bs
    else .error (.invalidContinuation, taken)

/-- The code point whose first byte is `b`, with the number of its bytes.  Overlong forms, surrogates
and values beyond Unicode are excluded by the range of the second byte. -/
def unit (b : UInt8) (bs : Bytes) : Except (Reason × Nat) (Code × Nat) :=
  let n := b.toNat
  if n < 0x80 then .ok (n, 1)
  else if n < 0xC2 then .error (.invalidStart, 1)
  else if n < 0xE0 then continuation (n % 32) 1 1 0x80 0xBF bs
  else if n < 0xF0 then
    let lo := if n = 0xE0 then 0xA0 else 0x80
    let hi := if n = 0xED then 0x9F else 0xBF
    continuation (n % 16) 1 2 lo hi bs
  else if n < 0xF5 then
    let lo := if n = 0xF0 then 0x90 else 0x80
    let hi := if n = 0xF4 then 0x8F else 0xBF
    continuation (n % 8) 1 3 lo hi bs
  else .error (.invalidStart, 1)

/-- Decoding from a place on, with the code points so far in reverse. -/
def decodeFrom (start : Nat) (acc : Text) (bs : Bytes) : Except Fault Text :=
  match bs with
  | [] => .ok acc.reverse
  | b :: rest =>
    match unit b rest with
    | .ok (c, n) => decodeFrom (start + n) (c :: acc) (rest.drop (n - 1))
    | .error (reason, n) => .error ⟨reason, b, start, n⟩
termination_by bs.length
decreasing_by all_goals simp only [List.length_cons, List.length_drop]; omega

/-- The text that the bytes encode. -/
def decode (bs : Bytes) : Except Fault Text := decodeFrom 0 [] bs

/-- Decoding in which every stretch that is not UTF-8 becomes one replacement character. -/
def decodeReplacingFrom (acc : Text) (bs : Bytes) : Text :=
  match bs with
  | [] => acc.reverse
  | b :: rest =>
    match unit b rest with
    | .ok (c, n) => decodeReplacingFrom (c :: acc) (rest.drop (n - 1))
    | .error (_, n) => decodeReplacingFrom (replacement :: acc) (rest.drop (n - 1))
termination_by bs.length
decreasing_by all_goals simp only [List.length_cons, List.length_drop]; omega

/-- The text of the bytes, with replacement characters for what is not UTF-8. -/
def decodeReplacing (bs : Bytes) : Text := decodeReplacingFrom [] bs

/-! ## 2. Encoding -/

/-- The bytes of one code point. -/
def encodeCode (c : Code) : Bytes :=
  if c < 0x80 then [c.toUInt8]
  else if c < 0x800 then [(0xC0 + c / 64).toUInt8, (0x80 + c % 64).toUInt8]
  else if c < 0x10000 then
    [(0xE0 + c / 4096).toUInt8, (0x80 + c / 64 % 64).toUInt8, (0x80 + c % 64).toUInt8]
  else
    [(0xF0 + c / 262144).toUInt8, (0x80 + c / 4096 % 64).toUInt8, (0x80 + c / 64 % 64).toUInt8,
      (0x80 + c % 64).toUInt8]

/-- The first run of surrogates in a text: its first code point, its place and its length. -/
structure Unencodable where
  first : Code
  start : Nat
  size : Nat
deriving DecidableEq, Repr

/-- The first run of surrogates from a place on. -/
def firstSurrogates? (start : Nat) : Text → Option Unencodable
  | [] => none
  | c :: cs =>
    if isSurrogate c then some ⟨c, start, (cs.takeWhile isSurrogate).length + 1⟩
    else firstSurrogates? (start + 1) cs

/-- The bytes of a text, which must not hold a surrogate. -/
def encode (t : Text) : Except Unencodable Bytes :=
  match firstSurrogates? 0 t with
  | some u => .error u
  | none => .ok (t.flatMap encodeCode)

/-- The bytes of a text, with surrogates encoded like other code points. -/
def encodeAny (t : Text) : Bytes := t.flatMap encodeCode

/-! ## 3. Messages -/

/-- The lower-case hexadecimal digits of a number, at least `width` of them. -/
def hexadecimal (width n : Nat) : Text :=
  let ds := (Nat.toDigits 16 n).map Char.toNat
  List.replicate (width - ds.length) (code '0') ++ ds

/-- The wording of a failed decoding. -/
def Fault.message (f : Fault) : Text :=
  let place :=
    if f.size = 1 then
      text "byte 0x" ++ hexadecimal 2 f.byte.toNat ++ text " in position " ++ decimal f.start
    else text "bytes in position " ++ decimal f.start ++ text "-" ++ decimal (f.start + f.size - 1)
  text "'utf-8' codec can't decode " ++ place ++ text ": " ++ f.reason.message

/-- The wording of a failed encoding. -/
def Unencodable.message (u : Unencodable) : Text :=
  let place :=
    if u.size = 1 then
      text "character '\\u" ++ hexadecimal 4 u.first ++ text "' in position " ++ decimal u.start
    else
      text "characters in position " ++ decimal u.start ++ text "-" ++ decimal (u.start + u.size - 1)
  text "'utf-8' codec can't encode " ++ place ++ text ": surrogates not allowed"

end Utf8
end LuaServer
