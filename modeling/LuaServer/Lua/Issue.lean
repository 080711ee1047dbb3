/-
# What the checker reports

Each kind of report is a constructor of `Issue`; its short category is `Issue.tag` and its wording
`Issue.message`.  A `Message` is an issue at a stretch of one line.
-/
import LuaServer.Lua.Type

namespace LuaServer.Lua

/-- What an operation does with its operands. -/
inductive Operation where
  | arithmetic | bitwise | concatenate | call
deriving DecidableEq, Repr

/-- How a message names an operation. -/
def Operation.text : Operation → String
  | .arithmetic => "perform arithmetic on"
  | .bitwise => "perform bitwise operation on"
  | .concatenate => "concatenate"
  | .call => "call"

/-- The variable that holds the value of which a message complains. -/
structure Subject where
  name : Text
  isGlobal : Bool
deriving DecidableEq, Repr

/-- How a message names a variable. -/
def Subject.text (s : Subject) : Text :=
  LuaServer.text (if s.isGlobal then " (global " else " (local ") ++ quoted s.name
    ++ LuaServer.text ")"

/-- What the checker may find. -/
inductive Issue where
  /-- A local declared without a value. -/
  | untyped (name : Text)
  /-- A local that hides another one, declared on the given line if it was declared at all. -/
  | shadows (name : Text) (line : Option Nat)
  /-- A global that nothing defines. -/
  | undefined (name : Text)
  | floatLiteral (source : Text)
  | floatDivision
  /-- An operation on a value of the wrong type. -/
  | mistyped (op : Operation) (type : Ty) (subject : Option Subject)
  /-- A local or a local function that is never read. -/
  | unused (isFunction : Bool) (name : Text)
deriving DecidableEq, Repr

namespace Issue

/-- The category of an issue. -/
def tag : Issue → String
  | .untyped _ => "any"
  | .shadows _ _ => "mask"
  | .undefined _ => "undefined"
  | .floatLiteral _ | .floatDivision => "integer"
  | .mistyped _ _ _ => "type"
  | .unused _ _ => "unused"

/-- The wording of an issue. -/
def message : Issue → Text
  | .untyped name =>
    text "local " ++ quoted name ++ text " is declared without a value and has type any"
  | .shadows name line =>
    text "local " ++ quoted name ++ text " shadows a variable declared"
      ++ (match line with | some l => text " on line " ++ decimal l | none => [])
  | .undefined name => text "undefined global " ++ quoted name
  | .floatLiteral source => text "float literal " ++ quoted source ++ text " in integer mode"
  | .floatDivision => text "float division '/' in integer mode, use '//'"
  | .mistyped op type subject =>
    text "attempt to " ++ text op.text ++ text " " ++ text type.article ++ text " " ++ type.text
      ++ text " value" ++ (subject.map Subject.text).getD []
  | .unused isFunction name =>
    text (if isFunction then "unused function " else "unused local ") ++ quoted name

end Issue

/-- An issue at a place, with the number of code points that it concerns. -/
structure Message where
  pos : Pos
  length : Nat
  issue : Issue
deriving DecidableEq, Repr

end LuaServer.Lua
