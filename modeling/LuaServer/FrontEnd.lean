/-
# Front ends

The session needs three things of a language: a tree for a text, the findings of a check of that tree,
and the identifiers of the tree in source order.  `FrontEnd` is that contract; the trees are its own
affair, and it may remember something between two visits.

`luaFrontEnd` is the one the server uses.  `scriptedFrontEnd` answers from a script, whatever the text.
-/
import LuaServer.Lua.Checker
import LuaServer.Lua.Parser
import LuaServer.Protocol.Position

namespace LuaServer

/-! ## 1. The contract -/

/-- What a check found at a place, both counted from 1. -/
structure Finding where
  line : Int
  column : Int
  length : Int
  tag : Text
  message : Text
deriving DecidableEq, Repr

/-- An identifier in a text, with the scope that tells variables of one name apart. -/
structure Occurrence where
  name : Text
  line : Int
  column : Int
  length : Int
  scope : Int
  type : Option Text := none
  isGlobal : Bool := false
deriving DecidableEq, Repr

namespace Occurrence

/-- The identifier covers a place. -/
def covers (o : Occurrence) (line column : Int) : Bool :=
  line = o.line && o.column ≤ column && column < o.column + o.length

/-- Two identifiers denote the same variable. -/
def sameSymbol (a b : Occurrence) : Bool := a.name = b.name && a.scope = b.scope

end Occurrence

/-- Why a front end has no tree for a text. -/
inductive ParseFault where
  /-- The text is refused, with a message that should begin with a place. -/
  | refused (message : Text)
  | crashed (message : Text)
deriving DecidableEq, Repr

/-- A language: trees of type `τ`, and what is remembered between visits of type `σ`. -/
structure FrontEnd (σ τ : Type) where
  parse : (source uri : Text) → Lua.CheckSettings → Except ParseFault τ
  check : τ → Lua.CheckSettings → List Finding × τ
  visit : σ → τ → List Occurrence × σ

/-! ## 2. The language of the documents -/

/-- A checked tree. -/
structure LuaTree where
  chunk : Lua.Chunk
  types : Lua.Types

/-- What a report of the checker says to the session. -/
def Finding.ofMessage (m : Lua.Message) : Finding :=
  ⟨m.pos.line, m.pos.column, m.length, text m.issue.tag, m.issue.message⟩

/-- What an identifier of a chunk says to the session. -/
def Occurrence.ofIdentifier (i : Lua.Identifier) : Occurrence :=
  { name := i.name, line := i.pos.line, column := i.pos.column, length := i.name.length,
    scope := i.scope, type := some i.type.text, isGlobal := i.isGlobal }

/-- The front end that the server uses. -/
def luaFrontEnd : FrontEnd Unit LuaTree where
  parse source uri _ :=
    match Lua.parse source uri with
    | .ok c => .ok ⟨c, #[]⟩
    | .error e => .error (.refused e.message)
  check t settings :=
    let r := Lua.check settings t.chunk
    (r.messages.map Finding.ofMessage, ⟨t.chunk, r.types⟩)
  visit _ t := ((t.chunk.identifiers t.types).map Occurrence.ofIdentifier, ())

/-! ## 3. Scripts -/

/-- The answers of a scripted front end: how it refuses every text, if it does; what every check finds;
and what the visits report, each list once and the last one from then on. -/
structure Script where
  fault : Option ParseFault := none
  findings : List Finding := []
  visits : List (List Occurrence) := []

/-- The report of a visit, and what is left for the next ones. -/
def nextVisit : List (List Occurrence) → List Occurrence × List (List Occurrence)
  | [] => ([], [])
  | [v] => (v, [v])
  | v :: vs => (v, vs)

/-- The front end that follows a script. -/
def scriptedFrontEnd (s : Script) : FrontEnd (List (List Occurrence)) Unit where
  parse _ _ _ :=
    match s.fault with
    | some f => .error f
    | none => .ok ()
  check _ _ := (s.findings, ())
  visit left _ := nextVisit left

end LuaServer
