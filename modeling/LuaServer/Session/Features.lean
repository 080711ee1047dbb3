/-
# What a client can ask about an identifier

Hover, rename, references and definition first find the identifier at the position, and fail as that
fails.  The first occurrence of a variable in source order is taken for its definition.
-/
import LuaServer.Session.Analysis

namespace LuaServer

variable {σ τ : Type}

/-- What a hover says about an identifier. -/
def hoverText (o : Occurrence) : Text :=
  let type := match o.type with
    | some (c :: cs) => c :: cs
    | _ => text "any"
  text "```lua\n" ++ text (if o.isGlobal then "global " else "local ") ++ o.name ++ text ": " ++ type
    ++ text "\n```"

/-- Type and scope of the identifier at a position. -/
def hover (srv : Server σ τ) (place : PlaceParams) : Act σ τ Json := do
  let (_, o) ← resolve srv place
  return hoverJson (hoverText o) (← orCrash o.span)

/-- A text that begins like a name and consists of name characters. -/
def isIdentifierText : Text → Bool
  | [] => false
  | c :: cs => Lua.isNameStart c && cs.all Lua.isNameChar

/-- A new name is accepted if it is an identifier, a newline after it not counting, and no reserved
word. -/
def acceptsName (name : Text) : Bool :=
  let body := if name.getLast? = some (code '\n') then name.dropLast else name
  isIdentifierText body && (Lua.Keyword.ofText? name).isNone

/-- The edits that give the identifier at a position a new name. -/
def rename (srv : Server σ τ) (p : RenameParams) : Act σ τ Json := do
  if acceptsName p.newName then
    let (tree, o) ← resolve srv p.place
    let os ← matching srv tree o
    return editsJson p.place.uri (← orCrash (spansOf os)) p.newName
  else
    refuse .invalidParams (quoted p.newName ++ text " is not a valid identifier")

/-- Every place where the identifier at a position occurs. -/
def references (srv : Server σ τ) (place : PlaceParams) : Act σ τ Json := do
  let (tree, o) ← resolve srv place
  let os ← matching srv tree o
  let spans ← orCrash (spansOf os)
  return .arr (spans.map (locationJson place.uri))

/-- The first place where the identifier at a position occurs. -/
def definition (srv : Server σ τ) (place : PlaceParams) : Act σ τ Json := do
  let (tree, o) ← resolve srv place
  match ← matching srv tree o with
  | [] => throw (.crashed .lostSymbol)
  | first :: _ => return locationJson place.uri (← orCrash first.span)

end LuaServer
