/-
# Scalars of a project file

Strings, numbers, booleans, dates and times, as TOML writes them.  Each reader looks at the front of a
text and answers with the value and with what is left.  Dates and times are kept as texts.
-/
import LuaServer.Json.Value
import LuaServer.Text.Utf8

namespace LuaServer.Toml

/-- Why a project file cannot be read. -/
inductive Fault where
  | malformed
  /-- An integer with more digits than are converted. -/
  | tooManyDigits (digits : Nat)
deriving DecidableEq, Repr

/-- A reader of the front of a text. -/
abbrev Read (α : Type) := Text → Except Fault (α × Text)

/-- A text that does not go on as it must. -/
def malformed {α : Type} : Except Fault α := .error .malformed

/-! ## 1. Strings -/

/-- A control that no string on one line may hold. -/
def isControl (c : Code) : Bool := (c < 32 && c != 9) || c = 127

/-- A control that no string may hold. -/
def isControlInLines (c : Code) : Bool := isControl c && c != 10

/-- White space on one line. -/
def isSpace (c : Code) : Bool := c = 32 || c = 9

/-- White space and line ends. -/
def isSpaceOrLine (c : Code) : Bool := isSpace c || c = 10

/-- The text before the first occurrence of a delimiter, which must hold no illegal code point. -/
def until' (delim : Text) (illegal : Code → Bool) : Read Text := fun t =>
  match splitAtFirst? delim t with
  | some (s, rest) => if s.any illegal then malformed else .ok (s, rest)
  | none => malformed

/-- The escapes of one letter. -/
def letterEscape? (c : Code) : Option Code :=
  if c = code 'b' then some 8
  else if c = code 't' then some 9
  else if c = code 'n' then some 10
  else if c = code 'f' then some 12
  else if c = code 'r' then some 13
  else if c = code '"' ∨ c = code '\\' then some c
  else none

/-- A character given by a number of hexadecimal digits. -/
def hexEscape? (size : Nat) (t : Text) : Option Code :=
  let ds := t.take size
  if ds.length = size then
    match ds.mapM hexDigit? with
    | some vs =>
      let n := ofDigits 16 vs
      if n ≤ maxCode && !isSurrogate n then some n else none
    | none => none
  else none

/-- What an escape writes, after its backslash, and its size.  In a string of several lines a backslash
at the end of a line takes the line end and the white space after it away. -/
def escape? (lines : Bool) (t : Text) : Option (Text × Nat) :=
  match t with
  | [] => none
  | c :: rest =>
    if lines && isSpaceOrLine c then
      let blank := if c = 10 then 0 else (rest.takeWhile isSpace).length
      let after := rest.drop blank
      if c = 10 then some ([], 1 + (rest.takeWhile isSpaceOrLine).length)
      else
        match after with
        | [] => some ([], 1 + blank)
        | d :: ds =>
          if d = 10 then some ([], 2 + blank + (ds.takeWhile isSpaceOrLine).length) else none
    else if c = code 'u' then (hexEscape? 4 rest).map fun v => ([v], 5)
    else if c = code 'U' then (hexEscape? 8 rest).map fun v => ([v], 9)
    else (letterEscape? c).map fun v => ([v], 1)

/-- The rest of a basic string after its opening quotes, with its code points so far in reverse. -/
def basicFrom (lines : Bool) (acc : Text) (t : Text) : Except Fault (Text × Text) :=
  match t with
  | [] => malformed
  | c :: rest =>
    if c = code '"' then
      if !lines then .ok (acc.reverse, rest)
      else if (text "\"\"").isPrefixOf rest then .ok (acc.reverse, rest.drop 2)
      else basicFrom lines (c :: acc) rest
    else if c = code '\\' then
      match escape? lines rest with
      | some (v, n) => basicFrom lines (v.reverse ++ acc) (rest.drop n)
      | none => malformed
    else if if lines then isControlInLines c else isControl c then malformed
    else basicFrom lines (c :: acc) rest
termination_by t.length
decreasing_by all_goals simp only [List.length_cons, List.length_drop]; omega

/-- A string on one line, in double quotes. -/
def basicString : Read Text := fun t => basicFrom false [] (t.drop 1)

/-- A string on one line, in single quotes. -/
def literalString : Read Text := fun t => until' (text "'") isControl (t.drop 1)

/-- Up to two more quotes belong to a string of several lines that ends with them. -/
def extraQuotes (q : Code) (s rest : Text) : Text × Text :=
  let n := min 2 (rest.takeWhile (· = q)).length
  (s ++ List.replicate n q, rest.drop n)

/-- A string of several lines.  A line end right after the opening quotes does not belong to it. -/
def linesString (q : Code) : Read Text := fun t =>
  let t := t.drop 3
  let t := if t.head? = some 10 then t.drop 1 else t
  let body := if q = code '"' then basicFrom true [] t else until' [q, q, q] isControlInLines t
  match body with
  | .ok (s, rest) => .ok (extraQuotes q s rest)
  | .error e => .error e

/-- A string. -/
def string (q : Code) : Read Text := fun t =>
  if [q, q, q].isPrefixOf t then linesString q t
  else if q = code '"' then basicString t
  else literalString t

/-! ## 2. Dates and times -/

/-- Exactly `n` decimal digits. -/
def fixedDigits? (n : Nat) (t : Text) : Option (Nat × Text) :=
  let ds := t.take n
  if ds.length = n ∧ ds.all isDigit then
    some (ofDigits 10 (ds.filterMap decimalDigit?), t.drop n)
  else none

/-- A number of two digits between two bounds. -/
def two? (lo hi : Nat) (t : Text) : Option (Nat × Text) :=
  match fixedDigits? 2 t with
  | some (n, rest) => if lo ≤ n ∧ n ≤ hi then some (n, rest) else none
  | none => none

/-- A code point that must come next. -/
def sign? (c : Char) (t : Text) : Option Text :=
  if t.head? = some (code c) then some (t.drop 1) else none

/-- A number of at least two digits. -/
def twoDigits (n : Nat) : Text := if n < 10 then code '0' :: decimal n else decimal n

/-- The digits of a fraction of a second, of which six count. -/
def fraction (t : Text) : Text × Text :=
  match t with
  | [] => ([], [])
  | c :: rest =>
    let ds := rest.takeWhile isDigit
    if c = code '.' ∧ ds ≠ [] then
      let six := ds.take 6 ++ List.replicate (6 - ds.length) (code '0')
      (if six.all (· = code '0') then [] else code '.' :: six, rest.drop ds.length)
    else ([], t)

/-- A time of day. -/
def time? (t : Text) : Option (Text × Text) := do
  let (h, t) ← two? 0 23 t
  let t ← sign? ':' t
  let (m, t) ← two? 0 59 t
  let t ← sign? ':' t
  let (s, t) ← two? 0 59 t
  let (f, t) := fraction t
  return (twoDigits h ++ [code ':'] ++ twoDigits m ++ [code ':'] ++ twoDigits s ++ f, t)

/-- The offset of a time from universal time. -/
def offset (t : Text) : Text × Text :=
  match t with
  | [] => ([], [])
  | c :: rest =>
    if c = code 'Z' ∨ c = code 'z' then (text "+00:00", rest)
    else if c = code '+' ∨ c = code '-' then
      match two? 0 23 rest with
      | some (h, after) =>
        match (sign? ':' after).bind (two? 0 59) with
        | some (m, after) =>
          let s := if h = 0 ∧ m = 0 then code '+' else c
          (s :: twoDigits h ++ [code ':'] ++ twoDigits m, after)
        | none => ([], t)
      | none => ([], t)
    else ([], t)

/-- The number of days of a month. -/
def daysOf (year month : Nat) : Nat :=
  if month = 2 then
    if (year % 4 = 0 ∧ year % 100 ≠ 0) ∨ year % 400 = 0 then 29 else 28
  else if month = 4 ∨ month = 6 ∨ month = 9 ∨ month = 11 then 30
  else 31

/-- The form of a date: whether the date exists, its text, and what is left. -/
def date? (t : Text) : Option (Bool × Text × Text) := do
  let (y, rest) ← fixedDigits? 4 t
  let rest ← sign? '-' rest
  let (m, rest) ← two? 1 12 rest
  let rest ← sign? '-' rest
  let (d, rest) ← two? 1 31 rest
  return (y ≠ 0 ∧ d ≤ daysOf y m, t.take 10, rest)

/-- A date, with a time of day after it allowed. -/
def dateTime? (t : Text) : Option (Bool × Text × Text) := do
  let (valid, d, rest) ← date? t
  match rest with
  | c :: after =>
    if c = code 'T' ∨ c = code 't' ∨ c = code ' ' then
      match time? after with
      | some (time, after) =>
        let (o, after) := offset after
        return (valid, d ++ [code ' '] ++ time ++ o, after)
      | none => return (valid, d, rest)
    else return (valid, d, rest)
  | [] => return (valid, d, rest)

/-! ## 3. Numbers -/

/-- The size of a run of digits with single underscores between them. -/
def runSize (digit : Code → Bool) : Text → Nat
  | [] => 0
  | [c] => if digit c then 1 else 0
  | c :: d :: cs =>
    if digit c then
      if d = code '_' then
        let n := runSize digit cs
        if n = 0 then 1 else n + 2
      else runSize digit (d :: cs) + 1
    else 0

/-- An integer in a base that is written after a zero and a letter. -/
def prefixed? (t : Text) : Option (Json × Text) :=
  let read (base : Nat) (digit : Code → Bool) : Option (Json × Text) :=
    let body := t.drop 2
    let n := runSize digit body
    if n = 0 then none
    else some (.nat (ofDigits base ((body.take n).filterMap hexDigit?)), body.drop n)
  match t with
  | z :: c :: _ =>
    if z ≠ code '0' then none
    else if c = code 'x' then read 16 isHexDigit
    else if c = code 'b' then read 2 fun c => c = code '0' || c = code '1'
    else if c = code 'o' then read 8 fun c => code '0' ≤ c && c ≤ code '7'
    else none
  | _ => none

/-- The size of a decimal number, and whether it has a fraction or an exponent. -/
def decimalSize? (t : Text) : Option (Nat × Bool) :=
  let signSize := if t.head? = some (code '+') ∨ t.head? = some (code '-') then 1 else 0
  let body := t.drop signSize
  let whole := if body.head? = some (code '0') then 1 else runSize isDigit body
  if whole = 0 then none
  else
    let rest := body.drop whole
    let fraction :=
      if rest.head? = some (code '.') then
        let n := runSize isDigit (rest.drop 1)
        if n = 0 then 0 else n + 1
      else 0
    let rest := rest.drop fraction
    let exponent :=
      if rest.head? = some (code 'e') ∨ rest.head? = some (code 'E') then
        let after := rest.drop 1
        let s := if after.head? = some (code '+') ∨ after.head? = some (code '-') then 1 else 0
        let n := runSize isDigit (after.drop s)
        if n = 0 then 0 else n + s + 1
      else 0
    some (signSize + whole + fraction + exponent, fraction + exponent != 0)

/-- The value of a decimal number. -/
def decimalValue (t : Text) (fractional : Bool) : Except Fault Json :=
  if fractional then
    match Double.decimal? t with
    | some d => .ok (.float d)
    | none => malformed
  else
    let (neg, ds) := Double.sign t
    let ds := ds.filterMap decimalDigit?
    if maxDigits < ds.length then .error (.tooManyDigits ds.length)
    else
      let n := ofDigits 10 ds
      .ok (.int (if neg then -(n : Int) else n))

/-- The numbers that are written as a word. -/
def words : List (String × Json) :=
  [("inf", .float (.infinite false)), ("nan", .float .nan), ("-inf", .float (.infinite true)),
    ("+inf", .float (.infinite false)), ("-nan", .float .nan), ("+nan", .float .nan)]

/-- A date, a time or a number. -/
def number : Read Json := fun t =>
  match dateTime? t with
  | some (valid, s, rest) => if valid then .ok (.str s, rest) else malformed
  | none =>
    match time? t with
    | some (s, rest) => .ok (.str s, rest)
    | none =>
      match prefixed? t with
      | some r => .ok r
      | none =>
        match decimalSize? t with
        | some (n, fractional) =>
          match decimalValue (t.take n) fractional with
          | .ok v => .ok (v, t.drop n)
          | .error e => .error e
        | none =>
          match words.find? fun (w, _) => (text w).isPrefixOf t with
          | some (w, v) => .ok (v, t.drop w.length)
          | none => malformed

end LuaServer.Toml
