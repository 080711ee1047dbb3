/-
# From text to tokens

Between two tokens stands a gap: white space, line comments and long comments.  `tokensFrom` skips a
gap, reads one token and goes on with what is left, so the text is the concatenation of gaps and
token texts, and the place of a token is the start moved over everything before it.

Every scanner below looks at the front of a text and answers with a value and with how many code
points it took; nothing but these counts moves the reader forward.  A scanner that fails says how far
it had come, because some faults are reported at that place and others at the start of the token.

Main definitions, in the order of use:

* `gap`: how much white space and comment stands in front;
* `longBracket?`: the content of a long bracket;
* `numberSize`, `numeral?`: the extent of a number and what it denotes;
* `escape`, `stringBody`: quoted strings;
* `lexeme`: one token; `tokenize`: all of them.
-/
import LuaServer.Lua.Fault

namespace LuaServer.Lua

/-! ## 1. Classes of code points -/

/-- White space. -/
def isBlank (c : Code) : Bool :=
  c = code ' ' || c = code '\t' || c = code '\r' || c = code '\n' || c = 0x0C || c = 0x0B

/-- What a name may begin with. -/
def isNameStart (c : Code) : Bool :=
  c = code '_' || (code 'a' ≤ c && c ≤ code 'z') || (code 'A' ≤ c && c ≤ code 'Z')

/-- What a name may go on with. -/
def isNameChar (c : Code) : Bool := isNameStart c || isDigit c

/-! ## 2. Long brackets and gaps -/

/-- The level of the long bracket whose opener the text begins with. -/
def openerLevel? : Text → Option Nat
  | [] => none
  | c :: cs =>
    if c = code '[' ∧ (cs.dropWhile (· = code '=')).head? = some (code '[') then
      some (cs.takeWhile (· = code '=')).length
    else none

/-- The size of the line break that the text begins with. -/
def lineBreakSize : Text → Nat
  | [] => 0
  | c :: cs =>
    if c = code '\n' then 1
    else if c = code '\r' then (if cs.head? = some (code '\n') then 2 else 1)
    else 0

/-- What closes a long bracket of a level. -/
def closer (level : Nat) : Text :=
  code ']' :: List.replicate level (code '=') ++ [code ']']

/-- The content of the long bracket of the given level that the text begins with, and the size of
the whole.  A line break right after the opener is not part of the content. -/
def longBracket? (level : Nat) (cs : Text) : Option (Text × Nat) :=
  let inner := cs.drop (level + 2)
  let skip := lineBreakSize inner
  (splitAtFirst? (closer level) (inner.drop skip)).map fun (content, _) =>
    (content, level + 2 + skip + content.length + (level + 2))

/-- The size of a comment after its two dashes, and nothing if it is long and never closed. -/
def commentSize? (cs : Text) : Option Nat :=
  match openerLevel? cs with
  | some level => (longBracket? level cs).map (·.2)
  | none => some (cs.takeWhile (· != code '\n')).length

/-- The size of the white space and the comments in front of a text.  The failure is a long comment
that is never closed, with the offset at which it begins. -/
def gap (cs : Text) : Except Nat Nat :=
  match cs with
  | [] => .ok 0
  | c :: rest =>
    if isBlank c then
      match gap rest with
      | .ok n => .ok (n + 1)
      | .error k => .error (k + 1)
    else if c = code '-' ∧ rest.head? = some (code '-') then
      match commentSize? (rest.drop 1) with
      | none => .error 0
      | some n =>
        match gap ((rest.drop 1).drop n) with
        | .ok m => .ok (m + n + 2)
        | .error k => .error (k + n + 2)
    else .ok 0
termination_by cs.length
decreasing_by all_goals simp only [List.length_cons, List.length_drop]; omega

/-! ## 3. Numbers -/

/-- The extent of a number from a place inside it: digits, points, and exponent marks with an
optional sign, after which only decimal digits count as digits.  The answer also says whether a point
or a mark was seen. -/
def numberSize (digit mark : Code → Bool) : Text → Nat × Bool
  | [] => (0, false)
  | c :: cs =>
    if digit c then
      let (n, float) := numberSize digit mark cs
      (n + 1, float)
    else if c = code '.' then
      ((numberSize digit mark cs).1 + 1, true)
    else if mark c then
      match cs with
      | [] => (1, true)
      | d :: ds =>
        if d = code '+' ∨ d = code '-' then ((numberSize isDigit mark ds).1 + 2, true)
        else ((numberSize isDigit mark (d :: ds)).1 + 1, true)
    else (0, false)

/-- The text begins with the mark of a hexadecimal number. -/
def isHexadecimal : Text → Bool
  | c :: d :: _ => c = code '0' && (d = code 'x' || d = code 'X')
  | _ => false

/-- The extent of the number at the front of a text: the number proper, and every name character
that follows it without a gap. -/
def numberExtent (cs : Text) : Nat × Bool :=
  let (n, float) :=
    if isHexadecimal cs then
      let (n, float) := numberSize isHexDigit (fun c => c = code 'p' || c = code 'P') (cs.drop 2)
      (n + 2, float)
    else numberSize isDigit (fun c => c = code 'e' || c = code 'E') cs
  (n + ((cs.drop n).takeWhile isNameChar).length, float)

/-- Hexadecimal digits of an integer; one underscore may follow the `0x`. -/
def hexInteger? (t : Text) : Option Nat :=
  match t with
  | c :: rest => if c = code '_' then hexNatural? rest else hexNatural? (c :: rest)
  | [] => none

/-- What a number denotes, if its text is a numeral. -/
def numeral? (t : Text) (float : Bool) : Option Numeral :=
  match isHexadecimal t, float with
  | true, true => (Double.hexadecimal? (t.drop 2)).map .float
  | true, false => (hexInteger? (t.drop 2)).map .integer
  | false, true => (Double.decimal? t).map .float
  | false, false => (natural? decimalDigit? t).map .integer

/-! ## 4. Quoted strings -/

/-- The escapes of one code point after the backslash. -/
def simpleEscape? (c : Code) : Option Code :=
  if c = code 'n' ∨ c = code '\n' then some 10
  else if c = code 't' then some 9
  else if c = code 'r' then some 13
  else if c = code 'a' then some 7
  else if c = code 'b' then some 8
  else if c = code 'f' then some 12
  else if c = code 'v' then some 11
  else if c = code '\\' ∨ c = code '"' ∨ c = code '\'' then some c
  else none

/-- The largest value that a braced escape may write. -/
def maxEscape : Nat := 0x7FFFFFFF

/-- The digits of a braced escape: the value so far and the number of digits before what stops them.
The failure is a value that is too large, with the number of digits up to the one that made it so. -/
def escapeDigits (value : Nat) : Text → Except Nat (Nat × Nat)
  | [] => .ok (value, 0)
  | c :: cs =>
    match hexDigit? c with
    | none => .ok (value, 0)
    | some d =>
      let value := value * 16 + d
      if maxEscape < value then .error 1
      else match escapeDigits value cs with
        | .ok (v, n) => .ok (v, n + 1)
        | .error n => .error (n + 1)

/-- A code point beyond Unicode is read as the replacement character. -/
def clampCode (n : Nat) : Code := if n ≤ maxCode then n else replacement

/-- The braced escape after its opening brace. -/
def codeEscape (cs : Text) : Except (Fault × Nat) (Text × Nat) :=
  match escapeDigits 0 cs with
  | .error n => .error (.codeTooLarge, n)
  | .ok (value, n) =>
    if n = 0 then .error (.hexDigitExpected, 0)
    else if (cs.drop n).head? = some (code '\x7d') then .ok ([clampCode value], n + 1)
    else .error (.unclosedCodeEscape, n)

/-- The escape after a backslash: what it writes and its size.  A failure says how far the reader
had come. -/
def escape (cs : Text) : Except (Fault × Nat) (Text × Nat) :=
  match cs with
  | [] => .error (.unknownEscape none, 0)
  | c :: rest =>
    match simpleEscape? c with
    | some v => .ok ([v], 1)
    | none =>
      if c = code 'z' then .ok ([], (rest.takeWhile isBlank).length + 1)
      else if c = code 'x' then
        let ds := rest.take 2
        match ds.mapM hexDigit? with
        | some [a, b] => .ok ([a * 16 + b], 3)
        | _ => .error (.hexDigitExpected, ds.length + 1)
      else if isDigit c then
        let ds := (c :: rest.take 2).takeWhile isDigit
        let value := ofDigits 10 (ds.filterMap decimalDigit?)
        if 255 < value then .error (.decimalEscapeTooLarge, ds.length)
        else .ok ([value], ds.length)
      else if c = code 'u' ∧ rest.head? = some (code '\x7b') then
        match codeEscape (rest.drop 1) with
        | .ok (v, n) => .ok (v, n + 2)
        | .error (f, n) => .error (f, n + 2)
      else .error (.unknownEscape (some c), 0)

/-- Why a quoted string ends badly. -/
inductive StringFault where
  /-- The text or the line ends inside the string. -/
  | unfinished
  | badEscape (f : Fault)

/-- The rest of a quoted string after its opening quote: its value and its size, the closing quote
included.  A failure says how far the reader had come. -/
def stringBody (quote : Code) (cs : Text) : Except (StringFault × Nat) (Text × Nat) :=
  match cs with
  | [] => .error (.unfinished, 0)
  | c :: rest =>
    if c = code '\n' then .error (.unfinished, 0)
    else if c = quote then .ok ([], 1)
    else if c = code '\\' then
      match escape rest with
      | .error (f, n) => .error (.badEscape f, n + 1)
      | .ok (v, n) =>
        match stringBody quote (rest.drop n) with
        | .ok (w, m) => .ok (v ++ w, m + n + 1)
        | .error (f, m) => .error (f, m + n + 1)
    else
      match stringBody quote rest with
      | .ok (w, m) => .ok (c :: w, m + 1)
      | .error (f, m) => .error (f, m + 1)
termination_by cs.length
decreasing_by all_goals simp only [List.length_cons, List.length_drop]; omega

/-! ## 5. Tokens -/

/-- A word is a reserved one or a name. -/
def word (t : Text) : Kind :=
  match Keyword.ofText? t with
  | some k => .keyword k
  | none => .name t

/-- The sign that the text begins with. -/
def symbol? (cs : Text) : Option Symbol := Symbol.all.find? (fun s => s.spelling.isPrefixOf cs)

/-- The token that begins with `c` at `start`: its kind, and how many code points after `c` belong
to it. -/
def lexeme (start : Pos) (c : Code) (rest : Text) : Except SyntaxError (Kind × Nat) :=
  if isNameStart c then
    let tail := rest.takeWhile isNameChar
    .ok (word (c :: tail), tail.length)
  else if isDigit c || (c = code '.' && rest.head?.any isDigit) then
    let (n, float) := numberExtent (c :: rest)
    let t := (c :: rest).take n
    match numeral? t float with
    | some v => .ok (.number v, n - 1)
    | none => .error ⟨start, .malformedNumber t⟩
  else if c = code '"' ∨ c = code '\'' then
    match stringBody c rest with
    | .ok (v, n) => .ok (.string v, n)
    | .error (.unfinished, n) => .error ⟨start, .unfinishedString (c :: rest.take n)⟩
    | .error (.badEscape f, n) => .error ⟨start.advance (c :: rest.take n), f⟩
  else
    match openerLevel? (c :: rest) with
    | some level =>
      match longBracket? level (c :: rest) with
      | some (v, n) => .ok (.string v, n - 1)
      | none => .error ⟨start.advance (c :: rest), .unfinishedLong .string start.line⟩
    | none =>
      match symbol? (c :: rest) with
      | some s => .ok (.symbol s, s.spelling.length - 1)
      | none => .error ⟨start, .strayCode c⟩

/-- The tokens of a text that stands at `pos`, up to and including its end. -/
def tokensFrom (pos : Pos) (cs : Text) : Except SyntaxError (List Token) :=
  match gap cs with
  | .error k =>
    .error ⟨pos.advance cs, .unfinishedLong .comment (pos.advance (cs.take k)).line⟩
  | .ok k =>
    let start := pos.advance (cs.take k)
    match _h : cs.drop k with
    | [] => .ok [⟨.eof, start, []⟩]
    | c :: rest =>
      match lexeme start c rest with
      | .error e => .error e
      | .ok (kind, n) =>
        let taken := c :: rest.take n
        match tokensFrom (start.advance taken) (rest.drop n) with
        | .error e => .error e
        | .ok ts => .ok (⟨kind, start, taken⟩ :: ts)
termination_by cs.length
decreasing_by
  have hlen := congrArg List.length _h
  simp only [List.length_drop, List.length_cons] at hlen ⊢
  omega

/-- The tokens of a text. -/
def tokenize (cs : Text) : Except SyntaxError (List Token) := tokensFrom .start cs

end LuaServer.Lua
