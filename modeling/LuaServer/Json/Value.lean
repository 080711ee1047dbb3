/-
# JSON values

Integers are exact and unbounded, numbers with a point or an exponent are doubles, and the members
of an object keep the order in which their names first appeared.

* `Json`: the values; `Members`: the members of an object as a table.
* `Json.get?`: the value of a member.
-/
import LuaServer.Number.Shortest
import LuaServer.Table

namespace LuaServer

/-- A JSON value. -/
inductive Json where
  | null
  | bool (b : Bool)
  | int (n : Int)
  | float (d : Double)
  | str (s : Text)
  | arr (items : List Json)
  | obj (members : List (Text × Json))
deriving Inhabited, Repr, BEq

/-- The members of an object, in order. -/
abbrev Members := Table Json

namespace Json

/-- The value of a member, if the value is an object that has it. -/
def get? (name : Text) : Json → Option Json
  | .obj ms => Table.get? name ms
  | _ => none

/-- An object literal. -/
def object (ms : List (String × Json)) : Json := .obj (ms.map fun (n, v) => (text n, v))

/-- A string literal. -/
def string (s : String) : Json := .str (text s)

/-- A natural number as a value. -/
def nat (n : Nat) : Json := .int n

end Json
end LuaServer
