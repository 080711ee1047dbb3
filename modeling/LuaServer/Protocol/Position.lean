/-
# Positions on the wire

Lines and characters are counted from 0 and lie between 0 and 2147483647; a value outside is refused
when the position is made, the line before the character.

* `Position.make`, `Span`: positions and stretches between them.
* `Diagnostic`: what is published about a document.
* the JSON forms of these and of locations and edits, with their members in the order of the wire.
-/
import LuaServer.Failure

namespace LuaServer

/-! ## 1. Positions and spans -/

/-- A position in a document, counted from 0. -/
structure Position where
  line : Nat
  character : Nat
deriving DecidableEq, Repr

/-- A stretch of a document. -/
structure Span where
  start : Position
  stop : Position
deriving DecidableEq, Repr

/-- A member of a position, if it is in range. -/
def coordinate (c : Coordinate) (value : Int) : Except Crash Nat :=
  if 0 ≤ value ∧ value ≤ maxCoordinate then .ok value.toNat else .error (.outOfRange c value)

/-- A position, if both members are in range. -/
def Position.make (line character : Int) : Except Crash Position :=
  match coordinate .line line with
  | .error e => .error e
  | .ok l =>
    match coordinate .character character with
    | .error e => .error e
    | .ok c => .ok ⟨l, c⟩

/-- The stretch of one line from a character on. -/
def Span.make (line character length : Int) : Except Crash Span :=
  match Position.make line character with
  | .error e => .error e
  | .ok start =>
    match Position.make line (character + length) with
    | .error e => .error e
    | .ok stop => .ok ⟨start, stop⟩

/-! ## 2. Diagnostics -/

/-- How bad a diagnostic is. -/
inductive Severity where
  | error | warning
deriving DecidableEq, Repr

/-- The number of a severity. -/
def Severity.number : Severity → Nat
  | .error => 1
  | .warning => 2

/-- What is published about a stretch of a document. -/
structure Diagnostic where
  span : Span
  message : Text
  severity : Severity
  source : Text
deriving DecidableEq, Repr

/-! ## 3. JSON forms -/

/-- The JSON form of a position. -/
def Position.toJson (p : Position) : Json :=
  Json.object [("line", .nat p.line), ("character", .nat p.character)]

/-- The JSON form of a stretch. -/
def Span.toJson (s : Span) : Json :=
  Json.object [("start", s.start.toJson), ("end", s.stop.toJson)]

/-- The JSON form of a diagnostic. -/
def Diagnostic.toJson (d : Diagnostic) : Json :=
  Json.object [("range", d.span.toJson), ("message", .str d.message),
    ("severity", .nat d.severity.number), ("source", .str d.source)]

/-- A stretch of a document with the document's URI. -/
def locationJson (uri : Text) (s : Span) : Json :=
  Json.object [("uri", .str uri), ("range", s.toJson)]

/-- The edits that put a text in place of each stretch of a document. -/
def editsJson (uri : Text) (spans : List Span) (newText : Text) : Json :=
  Json.object [("changes", .obj [(uri, .arr (spans.map fun s =>
    Json.object [("range", s.toJson), ("newText", .str newText)]))])]

/-- What a hover shows for a stretch. -/
def hoverJson (value : Text) (s : Span) : Json :=
  Json.object [("contents", Json.object [("kind", .string "markdown"), ("value", .str value)]),
    ("range", s.toJson)]

/-- The notification that publishes the diagnostics of a document; a version that is absent is left
out. -/
def publishJson (uri : Text) (ds : List Diagnostic) (version : Option Int) : Json :=
  notification (text "textDocument/publishDiagnostics")
    (.obj ([(text "uri", .str uri), (text "diagnostics", .arr (ds.map Diagnostic.toJson))]
      ++ match version with
        | some v => [(text "version", .int v)]
        | none => []))

end LuaServer
