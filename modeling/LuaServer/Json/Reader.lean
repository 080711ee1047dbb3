/-
# Reading JSON

One value, white space around it allowed and nothing else after it.  Besides the standard grammar the
reader accepts `NaN`, `Infinity` and `-Infinity`, and an escape may write a surrogate without its
partner; of members with the same name the last value counts.

A failure is a `JsonFault`: what was missing, and the offset of the place in code points.  The wording
gives line and column too.

Every reader takes a cursor, the offset and the rest of the text, and returns the cursor after what it
read.  Values nest, so `value` and its companions carry a bound on the depth; `Json.parse` gives one
that no text reaches, since of two steps into the depth one takes a code point.
-/
import LuaServer.Json.Value

namespace LuaServer

/-! ## 1. Faults -/

/-- What was missing or wrong at a place of a JSON text. -/
inductive JsonFlaw where
  | value
  | propertyName
  | colon
  | comma
  | extraData
  | unterminatedString
  | controlCharacter
  | badEscape
  | badCodeEscape
  | byteOrderMark
deriving DecidableEq, Repr

/-- The wording of a flaw. -/
def JsonFlaw.message : JsonFlaw → String
  | .value => "Expecting value"
  | .propertyName => "Expecting property name enclosed in double quotes"
  | .colon => "Expecting ':' delimiter"
  | .comma => "Expecting ',' delimiter"
  | .extraData => "Extra data"
  | .unterminatedString => "Unterminated string starting at"
  | .controlCharacter => "Invalid control character at"
  | .badEscape => "Invalid \\escape"
  | .badCodeEscape => "Invalid \\uXXXX escape"
  | .byteOrderMark => "Unexpected UTF-8 BOM (decode using utf-8-sig)"

/-- Why a text is not a JSON value. -/
inductive JsonFault where
  | flaw (what : JsonFlaw) (offset : Nat)
  /-- An integer with more digits than are converted. -/
  | tooManyDigits (digits : Nat)
deriving DecidableEq, Repr

/-- The wording of a fault in the text `source`. -/
def JsonFault.message (source : Text) : JsonFault → Text
  | .flaw what offset =>
    let p := Pos.start.advance (source.take offset)
    text what.message ++ text ": line " ++ decimal p.line ++ text " column " ++ decimal p.column
      ++ text " (char " ++ decimal offset ++ text ")"
  | .tooManyDigits n => tooManyDigitsMessage n

namespace Json

/-- A place in a text: the offset and what follows. -/
structure Cursor where
  offset : Nat
  rest : Text

/-- Moves over `n` code points. -/
def Cursor.skip (n : Nat) (c : Cursor) : Cursor := ⟨c.offset + n, c.rest.drop n⟩

/-- A flaw at the cursor. -/
def Cursor.fail {α : Type} (c : Cursor) (what : JsonFlaw) : Except JsonFault α :=
  .error (.flaw what c.offset)

/-- White space between the parts of a value. -/
def isSpace (c : Code) : Bool := c = 32 || c = 9 || c = 10 || c = 13

/-- Moves over white space. -/
def Cursor.skipSpace (c : Cursor) : Cursor := c.skip (c.rest.takeWhile isSpace).length

/-- The next code point is `x`. -/
def Cursor.at (c : Cursor) (x : Char) : Bool := c.rest.head? = some (code x)

/-! ## 2. Strings -/

/-- The value of four hexadecimal digits at the front of a text that goes on after them. -/
def codeUnit? (t : Text) : Option Nat :=
  if t.drop 4 ≠ [] then ((t.take 4).mapM hexDigit?).map (ofDigits 16) else none

/-- The escapes of one letter. -/
def escapedCode? (c : Code) : Option Code :=
  if c = code '"' ∨ c = code '\\' ∨ c = code '/' then some c
  else if c = code 'b' then some 8
  else if c = code 'f' then some 12
  else if c = code 'n' then some 10
  else if c = code 'r' then some 13
  else if c = code 't' then some 9
  else none

/-- A high surrogate. -/
def isHigh (c : Code) : Bool := 0xD800 ≤ c && c ≤ 0xDBFF

/-- A low surrogate. -/
def isLow (c : Code) : Bool := 0xDC00 ≤ c && c ≤ 0xDFFF

/-- The code point that two surrogates write together. -/
def joined (high low : Code) : Code := 0x10000 + (high - 0xD800) * 0x400 + (low - 0xDC00)

/-- The escape `\uXXXX`, the cursor standing on its `u`: the code point and the size after the `u`.
A high surrogate and an escape that writes a low one make one code point. -/
def unicodeEscape (c : Cursor) : Except JsonFault (Code × Nat) :=
  match codeUnit? (c.rest.drop 1) with
  | none => c.fail .badCodeEscape
  | some u =>
    let next := c.rest.drop 5
    if isHigh u ∧ next.drop 6 ≠ [] ∧ (text "\\u").isPrefixOf next then
      match codeUnit? (next.drop 2) with
      | none => (c.skip 6).fail .badCodeEscape
      | some v => if isLow v then .ok (joined u v, 10) else .ok (u, 4)
    else .ok (u, 4)

/-- The rest of a string whose opening quote stands at `start`, with its code points so far in
reverse. -/
def stringFrom (start : Nat) (acc : Text) (offset : Nat) (cs : Text) :
    Except JsonFault (Text × Cursor) :=
  match cs with
  | [] => .error (.flaw .unterminatedString start)
  | c :: rest =>
    if c = code '"' then .ok (acc.reverse, ⟨offset + 1, rest⟩)
    else if c = code '\\' then
      match rest with
      | [] => .error (.flaw .unterminatedString start)
      | e :: rest =>
        if e = code 'u' then
          match unicodeEscape ⟨offset + 1, e :: rest⟩ with
          | .error f => .error f
          | .ok (v, n) => stringFrom start (v :: acc) (offset + 2 + n) (rest.drop n)
        else
          match escapedCode? e with
          | none => .error (.flaw .badEscape offset)
          | some v => stringFrom start (v :: acc) (offset + 2) rest
    else if c < 0x20 then .error (.flaw .controlCharacter offset)
    else stringFrom start (c :: acc) (offset + 1) rest
termination_by cs.length
decreasing_by all_goals simp only [List.length_cons, List.length_drop]; omega

/-- A string, the cursor standing on its opening quote. -/
def stringAt (c : Cursor) : Except JsonFault (Text × Cursor) :=
  stringFrom c.offset [] (c.offset + 1) (c.rest.drop 1)

/-! ## 3. Numbers -/

/-- The size of the longest numeral at the front of a text, and whether it has a point or an
exponent. -/
def numeralSize? (t : Text) : Option (Nat × Bool) :=
  let minus := if t.head? = some (code '-') then 1 else 0
  let body := t.drop minus
  let whole := (body.takeWhile isDigit).length
  if whole = 0 then none
  else
    let whole := if body.head? = some (code '0') then 1 else whole
    let rest := body.drop whole
    let fraction :=
      if rest.head? = some (code '.') then
        let ds := (rest.drop 1).takeWhile isDigit
        if ds = [] then 0 else ds.length + 1
      else 0
    let rest := rest.drop fraction
    let exponent :=
      if rest.head? = some (code 'e') ∨ rest.head? = some (code 'E') then
        let after := rest.drop 1
        let signed := if after.head? = some (code '+') ∨ after.head? = some (code '-') then 1 else 0
        let ds := (after.drop signed).takeWhile isDigit
        if ds = [] then 0 else ds.length + signed + 1
      else 0
    some (minus + whole + fraction + exponent, fraction + exponent != 0)

/-- The value of an integer numeral. -/
def integer (t : Text) : Except JsonFault Int :=
  let (neg, ds) := Double.sign t
  if maxDigits < ds.length then .error (.tooManyDigits ds.length)
  else
    let n := ofDigits 10 (ds.filterMap decimalDigit?)
    .ok (if neg then -(n : Int) else n)

/-- A number. -/
def numberAt (c : Cursor) : Except JsonFault (Json × Cursor) :=
  match numeralSize? c.rest with
  | none => c.fail .value
  | some (n, fractional) =>
    let t := c.rest.take n
    if fractional then
      match Double.decimal? t with
      | some d => .ok (.float d, c.skip n)
      | none => c.fail .value
    else
      match integer t with
      | .ok i => .ok (.int i, c.skip n)
      | .error f => .error f

/-! ## 4. Values -/

/-- The values that are written as a word. -/
def words : List (String × Json) :=
  [("null", .null), ("true", .bool true), ("false", .bool false), ("NaN", .float .nan),
    ("Infinity", .float (.infinite false)), ("-Infinity", .float (.infinite true))]

/-- The word at the front of a text. -/
def word? (t : Text) : Option (String × Json) :=
  words.find? fun (w, _) => (text w).isPrefixOf t

mutual

/-- A value that starts at the cursor. -/
def value : (depth : Nat) → Cursor → Except JsonFault (Json × Cursor)
  | 0, c => c.fail .value
  | depth + 1, c =>
    if c.at '"' then
      match stringAt c with
      | .ok (s, c) => .ok (.str s, c)
      | .error f => .error f
    else if c.at '\x7b' then
      let c := (c.skip 1).skipSpace
      if c.at '\x7d' then .ok (.obj [], c.skip 1) else members depth [] c
    else if c.at '[' then
      let c := (c.skip 1).skipSpace
      if c.at ']' then .ok (.arr [], c.skip 1) else items depth [] c
    else
      match word? c.rest with
      | some (w, v) => .ok (v, c.skip w.length)
      | none => numberAt c

/-- The items of an array from one of them on, those before it in reverse. -/
def items : (depth : Nat) → List Json → Cursor → Except JsonFault (Json × Cursor)
  | 0, _, c => c.fail .value
  | depth + 1, acc, c =>
    match value depth c with
    | .error f => .error f
    | .ok (v, c) =>
      let c := c.skipSpace
      if c.at ']' then .ok (.arr (v :: acc).reverse, c.skip 1)
      else if c.at ',' then items depth (v :: acc) (c.skip 1).skipSpace
      else c.fail .comma

/-- The members of an object from one of them on, after those before it. -/
def members : (depth : Nat) → Members → Cursor → Except JsonFault (Json × Cursor)
  | 0, _, c => c.fail .value
  | depth + 1, acc, c =>
    if c.at '"' then
      match stringAt c with
      | .error f => .error f
      | .ok (name, c) =>
        let c := c.skipSpace
        if c.at ':' then
          match value depth (c.skip 1).skipSpace with
          | .error f => .error f
          | .ok (v, c) =>
            let c := c.skipSpace
            let acc := Table.insert name v acc
            if c.at '\x7d' then .ok (.obj acc, c.skip 1)
            else if c.at ',' then members depth acc (c.skip 1).skipSpace
            else c.fail .comma
        else c.fail .colon
    else c.fail .propertyName

end

/-- The value that a text writes. -/
def parse (t : Text) : Except JsonFault Json :=
  if t.head? = some 0xFEFF then .error (.flaw .byteOrderMark 0)
  else
    match value (2 * t.length + 2) (Cursor.skipSpace ⟨0, t⟩) with
    | .error f => .error f
    | .ok (v, c) =>
      let c := c.skipSpace
      if c.rest = [] then .ok v else c.fail .extraData

end Json
end LuaServer
