/-
# Analysing a document

`analyze` parses and checks an open document, publishes what it found, and keeps the tree if nothing is an
error.  `resolve` finds the identifier at a position of a document without errors.
-/
import LuaServer.Protocol.Params
import LuaServer.Session.State

namespace LuaServer

variable {σ τ : Type}

/-! ## 1. Diagnostics -/

/-- Keeps the diagnostics of a document and tells the client. -/
def publish (uri : Text) (ds : List Diagnostic) : Act σ τ Unit := do
  modifySession fun s => { s with diagnostics := Table.insert uri ds s.diagnostics }
  let s ← session
  send (publishJson uri ds ((Table.get? uri s.documents).bind (·.version)))

/-- Forgets the tree of a document. -/
def dropTree (uri : Text) : Act σ τ Unit :=
  modifySession fun s => { s with trees := Table.erase uri s.trees }

/-- What is done about a text that the front end refuses. -/
def reportRefusal (uri message : Text) : Act σ τ Unit := do
  dropTree uri
  match ← orCrash (Diagnostic.ofRefusal message) with
  | none =>
    record .warning
      (text "unrecognized parse failure for " ++ uri ++ text ": " ++ message)
    publish uri []
  | some d => publish uri [d]

/-- A diagnostic is an error. -/
def Diagnostic.isError (d : Diagnostic) : Bool := d.severity = .error

/-- Analyses an open document and publishes its diagnostics.  The result is its tree, if the document is
open and nothing in it is an error. -/
def analyze (srv : Server σ τ) (uri : Text) : Act σ τ (Option τ) := do
  let s ← session
  match Table.get? uri s.documents with
  | none => return none
  | some doc =>
    match srv.frontEnd.parse doc.text uri s.analysis with
    | .error (.crashed message) => throw (.crashed (.component message))
    | .error (.refused message) =>
      reportRefusal uri message
      return none
    | .ok tree =>
      let (findings, tree) := srv.frontEnd.check tree s.analysis
      let ds ← orCrash (diagnosticsOf findings)
      publish uri ds
      if ds.any Diagnostic.isError then
        record .debug (uri ++ text " has " ++ decimal ds.length
          ++ text " diagnostics with errors; tree discarded")
        dropTree uri
        return none
      else
        modifySession fun s => { s with trees := Table.insert uri tree s.trees }
        return some tree

/-! ## 2. Identifiers -/

/-- The identifiers of a tree. -/
def visit (srv : Server σ τ) (tree : τ) : Act σ τ (List Occurrence) := do
  let s ← session
  let (os, memory) := srv.frontEnd.visit s.memory tree
  modifySession fun s => { s with memory := memory }
  return os

/-- The shortest of the identifiers that cover a place, and of several the first. -/
def bestAt (line column : Int) (os : List Occurrence) : Option Occurrence :=
  (os.filter fun o => o.covers line column).foldl (fun best o =>
    match best with
    | none => some o
    | some b => if o.length < b.length then some o else some b) none

/-- The identifier at a position of a document, with the tree of the document. -/
def resolve (srv : Server σ τ) (place : PlaceParams) : Act σ τ (τ × Occurrence) := do
  match ← analyze srv place.uri with
  | none =>
    refuse .syntaxOrTypeError (text "syntax or type error in " ++ place.uri)
      (Json.object [("uri", .str place.uri)])
  | some tree =>
    let os ← visit srv tree
    match bestAt (place.position.line + 1) (place.position.character + 1) os with
    | some o => return (tree, o)
    | none =>
      refuse .identifierNotFound (text "identifier not found")
        (Json.object [("uri", .str place.uri), ("line", .nat place.position.line),
          ("character", .nat place.position.character)])

/-- Every identifier of a tree that denotes the same variable, in order. -/
def matching (srv : Server σ τ) (tree : τ) (o : Occurrence) : Act σ τ (List Occurrence) := do
  let os ← visit srv tree
  return os.filter fun x => x.sameSymbol o

/-- The stretch of an identifier. -/
def Occurrence.span (o : Occurrence) : Except Crash Span :=
  Span.make (o.line - 1) (o.column - 1) o.length

/-- The stretches of identifiers, in order. -/
def spansOf : List Occurrence → Except Crash (List Span)
  | [] => .ok []
  | o :: os =>
    match o.span with
    | .error e => .error e
    | .ok s =>
      match spansOf os with
      | .error e => .error e
      | .ok ss => .ok (s :: ss)

end LuaServer
