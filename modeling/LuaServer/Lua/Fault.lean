/-
# What can be wrong with a source text

Every reason for which a text is refused is a constructor of `Fault`; the wording is
`Fault.message`.  A `SyntaxError` is a fault at a place, and its text is `line:column: message`.
-/
import LuaServer.Lua.Token

namespace LuaServer.Lua

/-- Which kind of long bracket was left open. -/
inductive Bracketed where
  | string | comment
deriving DecidableEq, Repr

/-- What the grammar asks for at a place. -/
inductive Wanted where
  | name | eof
  /-- The two ways in which the header of a loop goes on. -/
  | assignOrIn
  | keyword (k : Keyword)
  | symbol (s : Symbol)
deriving DecidableEq, Repr

/-- How a message shows what was wanted. -/
def Wanted.text : Wanted → Text
  | .name => LuaServer.text "<name>"
  | .eof => LuaServer.text "'<eof>'"
  | .assignOrIn => LuaServer.text "'=' or 'in'"
  | .keyword k => quoted k.spelling
  | .symbol s => quoted s.spelling

/-- The reasons for which a source text is refused. -/
inductive Fault where
  /-- A code point that begins no token. -/
  | strayCode (c : Code)
  | malformedNumber (near : Text)
  | unfinishedString (near : Text)
  /-- A long bracket, opened on the given line, that is never closed. -/
  | unfinishedLong (what : Bracketed) (line : Nat)
  | hexDigitExpected
  | decimalEscapeTooLarge
  | codeTooLarge
  | unclosedCodeEscape
  /-- A backslash before a code point that begins no escape, or before the end. -/
  | unknownEscape (c : Option Code)
  /-- A token other than the one that had to follow. -/
  | expected (what : Wanted) (near : Text)
  /-- The same, where that token would have closed a construct opened on an earlier line. -/
  | expectedToClose (what : Wanted) (opener : Text) (line : Nat) (near : Text)
  | unexpectedSymbol (near : Text)
  | unknownAttribute (name near : Text)
  /-- A statement that is neither a call nor an assignment to something assignable. -/
  | notAStatement (near : Text)
  | constAssigned (name : Text)
  /-- The bound on the depth of the search was reached; it is chosen so that this never happens. -/
  | tooDeep
deriving DecidableEq, Repr

namespace Fault

/-- How a message names what it stopped at. -/
def nearText (t : Text) : Text := text " near " ++ quoted t

/-- The wording of a fault. -/
def message : Fault → Text
  | .strayCode c => text "unexpected symbol" ++ nearText [c]
  | .malformedNumber t => text "malformed number" ++ nearText t
  | .unfinishedString t => text "unfinished string" ++ nearText t
  | .unfinishedLong what line =>
    text "unfinished long " ++ text (match what with | .string => "string" | .comment => "comment")
      ++ text " (starting at line " ++ decimal line ++ text ")" ++ nearText (text "<eof>")
  | .hexDigitExpected => text "hexadecimal digit expected"
  | .decimalEscapeTooLarge => text "decimal escape too large"
  | .codeTooLarge => text "UTF-8 value too large"
  | .unclosedCodeEscape => text "missing '\x7d' in \\u\x7bxxxx\x7d"
  | .unknownEscape c => text "invalid escape sequence '\\" ++ c.toList ++ text "'"
  | .expected what near => what.text ++ text " expected" ++ nearText near
  | .expectedToClose what opener line near =>
    what.text ++ text " expected (to close " ++ quoted opener ++ text " at line " ++ decimal line
      ++ text ")" ++ nearText near
  | .unexpectedSymbol near => text "unexpected symbol" ++ nearText near
  | .unknownAttribute name near =>
    text "unknown attribute " ++ quoted name ++ nearText near
  | .notAStatement near => text "syntax error" ++ nearText near
  | .constAssigned name => text "attempt to assign to const variable " ++ quoted name
  | .tooDeep => text "chunk has too many syntax levels"

end Fault

/-- A fault at a place of the text. -/
structure SyntaxError where
  pos : Pos
  fault : Fault
deriving DecidableEq, Repr

namespace SyntaxError

/-- The full text of a syntax error: `line:column: message`. -/
def message (e : SyntaxError) : Text :=
  decimal e.pos.line ++ [code ':'] ++ decimal e.pos.column ++ text ": " ++ e.fault.message

end SyntaxError

end LuaServer.Lua
