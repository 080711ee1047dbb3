/-
# Quoted literals

How a message shows a text that may hold anything: between quotes, with escapes for what cannot be seen.
-/
import LuaServer.Text.Printable
import LuaServer.Text.Utf8

namespace LuaServer

/-- The escape of a code point by its number, in the shortest of three forms. -/
def numericEscape (c : Code) : Text :=
  if c < 0x100 then text "\\x" ++ Utf8.hexadecimal 2 c
  else if c < 0x10000 then text "\\u" ++ Utf8.hexadecimal 4 c
  else text "\\U" ++ Utf8.hexadecimal 8 c

/-- A code point of a literal in the given quotes. -/
def literalCode (quote c : Code) : Text :=
  if c = quote ∨ c = code '\\' then [code '\\', c]
  else if c = 10 then text "\\n"
  else if c = 13 then text "\\r"
  else if c = 9 then text "\\t"
  else if isPrintable c then [c]
  else numericEscape c

/-- A text as a quoted literal.  The quotes are double ones if the text holds single ones and no double
ones. -/
def literal (t : Text) : Text :=
  let quote := if t.contains (code '\'') && !t.contains (code '"') then code '"' else code '\''
  quote :: t.flatMap (literalCode quote) ++ [quote]

end LuaServer
