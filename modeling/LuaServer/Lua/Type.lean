/-
# Types of values

The checker knows the basic types of the language, tells integers from other numbers, and knows the
parameters of a function that it has seen.  `any` is the type of which nothing is known.

* `Ty`: the types, with their text.
* `Base`: the classes in which a store is recorded.  Integers are numbers, and all functions are one
  class.
* `builtins`: the globals that every program has.
-/
import LuaServer.Lua.Syntax

namespace LuaServer.Lua

/-- The type of a value. -/
inductive Ty where
  | any | nil | boolean | integer | number | string | table
  /-- A function of which nothing more is known. -/
  | function
  /-- A function with its parameters. -/
  | closure (params : List Text) (isVararg : Bool)
deriving DecidableEq, Repr

/-- The class of a stored value. -/
inductive Base where
  | nil | boolean | number | string | table | function
deriving DecidableEq, Repr

namespace Ty

/-- The class of a type; of `any` it is not known. -/
def base? : Ty → Option Base
  | .any => none
  | .nil => some .nil
  | .boolean => some .boolean
  | .integer | .number => some .number
  | .string => some .string
  | .table => some .table
  | .function | .closure _ _ => some .function

/-- The type without the parameters of a function. -/
def plain : Ty → Ty
  | .closure _ _ => .function
  | t => t

/-- The type of a function with the given parameters. -/
def ofFunc (f : FuncBody) : Ty := .closure (f.params.map (·.name)) f.isVararg

/-- How a type is shown. -/
def text : Ty → Text
  | .any => LuaServer.text "any"
  | .nil => LuaServer.text "nil"
  | .boolean => LuaServer.text "boolean"
  | .integer => LuaServer.text "integer"
  | .number => LuaServer.text "number"
  | .string => LuaServer.text "string"
  | .table => LuaServer.text "table"
  | .function => LuaServer.text "function"
  | .closure params more =>
    let all := params ++ if more then [LuaServer.text "..."] else []
    LuaServer.text "function(" ++ join (LuaServer.text ", ") all ++ LuaServer.text ")"

/-- The article in front of a type's name. -/
def article : Ty → String
  | .any | .integer => "an"
  | _ => "a"

/-- A type that is open: the first store settles it. -/
def isOpen : Ty → Bool
  | .any | .nil => true
  | _ => false

/-- A type of numbers. -/
def isNumeric : Ty → Bool
  | .integer | .number => true
  | _ => false

/-- A type whose values cannot be operands of arithmetic. -/
def notArithmetic : Ty → Bool
  | .string | .boolean | .nil | .table | .function | .closure _ _ => true
  | _ => false

/-- A type whose values cannot be concatenated. -/
def notConcatenable : Ty → Bool
  | .boolean | .nil | .table | .function | .closure _ _ => true
  | _ => false

/-- A type whose values cannot be called. -/
def notCallable : Ty → Bool
  | .integer | .number | .string | .boolean | .nil => true
  | _ => false

end Ty

/-- The globals that are tables. -/
def tableBuiltins : List String :=
  ["_G", "arg", "coroutine", "debug", "io", "math", "os", "package", "string", "table", "utf8"]

/-- The globals that are functions. -/
def functionBuiltins : List String :=
  ["assert", "collectgarbage", "dofile", "error", "getmetatable", "ipairs", "load", "loadfile",
    "next", "pairs", "pcall", "print", "rawequal", "rawget", "rawlen", "rawset", "require", "select",
    "setmetatable", "tonumber", "tostring", "type", "xpcall"]

/-- The type of a global that every program has. -/
def builtinType? (name : Text) : Option Ty :=
  if name = text "_VERSION" then some .string
  else if tableBuiltins.any (fun s => text s = name) then some .table
  else if functionBuiltins.any (fun s => text s = name) then some .function
  else none

/-- A name of a global that every program has. -/
def isBuiltin (name : Text) : Bool := (builtinType? name).isSome

end LuaServer.Lua
