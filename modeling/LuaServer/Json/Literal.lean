/-
# Values shown as text

Where a string is wanted and another value is sent, the value is taken as a text.  The words for null and
the booleans, and the blanks after commas and colons, are not those of the JSON writer.

* `Json.shown`: a value inside a text, with its strings as quoted literals.
* `Json.asText`: the text that a value is taken for; a string is taken for itself.
-/
import LuaServer.Json.Value
import LuaServer.Text.Literal

namespace LuaServer
namespace Json

mutual

/-- A value inside a text. -/
def shown : Json → Text
  | .null => text "None"
  | .bool b => text (if b then "True" else "False")
  | .int n => decimalInt n
  | .float d => d.text
  | .str s => literal s
  | .arr items => code '[' :: shownItems items ++ [code ']']
  | .obj members => code '\x7b' :: shownMembers members ++ [code '\x7d']

/-- The items of an array inside a text. -/
def shownItems : List Json → Text
  | [] => []
  | [v] => shown v
  | v :: w :: vs => shown v ++ text ", " ++ shownItems (w :: vs)

/-- The members of an object inside a text. -/
def shownMembers : List (Text × Json) → Text
  | [] => []
  | [(n, v)] => literal n ++ text ": " ++ shown v
  | (n, v) :: m :: ms => literal n ++ text ": " ++ shown v ++ text ", " ++ shownMembers (m :: ms)

end

/-- The text that a value is taken for. -/
def asText : Json → Text
  | .str s => s
  | v => v.shown

end Json
end LuaServer
