/-
# Writing JSON

The compact form: no blanks, members in their order, every code point kept except the quote, the
backslash and the controls below U+0020.
-/
import LuaServer.Json.Value
import LuaServer.Text.Utf8

namespace LuaServer
namespace Json

/-- How a code point is written inside a string. -/
def escaped (c : Code) : Text :=
  if c = code '"' then text "\\\""
  else if c = code '\\' then text "\\\\"
  else if c = 10 then text "\\n"
  else if c = 13 then text "\\r"
  else if c = 9 then text "\\t"
  else if c = 8 then text "\\b"
  else if c = 12 then text "\\f"
  else if c < 0x20 then text "\\u" ++ Utf8.hexadecimal 4 c
  else [c]

/-- A string between quotes. -/
def quote (s : Text) : Text := code '"' :: s.flatMap escaped ++ [code '"']

/-- A number that is a double.  What is not finite has a name. -/
def number : Double → Text
  | .nan => text "NaN"
  | .infinite neg => text (if neg then "-Infinity" else "Infinity")
  | d => d.text

mutual

/-- The compact text of a value. -/
def render : Json → Text
  | .null => text "null"
  | .bool b => text (if b then "true" else "false")
  | .int n => decimalInt n
  | .float d => number d
  | .str s => quote s
  | .arr items => code '[' :: renderItems items ++ [code ']']
  | .obj members => code '\x7b' :: renderMembers members ++ [code '\x7d']

/-- The items of an array, separated by commas. -/
def renderItems : List Json → Text
  | [] => []
  | [v] => render v
  | v :: w :: vs => render v ++ code ',' :: renderItems (w :: vs)

/-- The members of an object, separated by commas. -/
def renderMembers : List (Text × Json) → Text
  | [] => []
  | [(n, v)] => quote n ++ code ':' :: render v
  | (n, v) :: m :: ms => quote n ++ code ':' :: render v ++ code ',' :: renderMembers (m :: ms)

end

end Json
end LuaServer
