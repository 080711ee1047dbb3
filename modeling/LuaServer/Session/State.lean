/-
# The state of a connection

Everything that the server keeps about one client, and the effects that handling a message may have on
the world: messages written, records in the log, and requests to exit.

A step can fail half way.  What it did before the failure stays done, so a step is a function from a
world to a result and a world (`Act`), and a failure does not undo anything.

* `Session`, `World`, `Act`: the state, the effects, and steps.
* `send`, `record`: the elementary effects.
* `putDocument`, `removeDocument`, `addLayer`: the elementary changes.
-/
import LuaServer.Config.Project
import LuaServer.Diagnostics
import LuaServer.Settings
import LuaServer.Uri

namespace LuaServer

/-! ## 1. State -/

/-- An open document. -/
structure Document where
  text : Text
  version : Option Int
  languageId : Json

/-- What the server keeps about one client. -/
structure Session (σ τ : Type) where
  documents : Table Document := []
  settings : Members := []
  diagnostics : Table (List Diagnostic) := []
  trees : Table τ := []
  root : Option Text := none
  initialized : Bool := false
  shutdownRequested : Bool := false
  running : Bool := true
  /-- What the front end remembers. -/
  memory : σ

/-- The settings of the session that are used for analysis. -/
def Session.analysis {σ τ : Type} (s : Session σ τ) : Lua.CheckSettings := analysisOf s.settings

/-- The levels of log records. -/
inductive Level where
  | debug | info | warning | error
deriving DecidableEq, Repr

/-- The name of a level. -/
def Level.name : Level → String
  | .debug => "DEBUG"
  | .info => "INFO"
  | .warning => "WARNING"
  | .error => "ERROR"

/-- A record of the log, with the crash that it reports if it does. -/
structure LogRecord where
  level : Level
  message : Text
  crash : Option Crash := none

/-- A session with the effects so far, oldest first. -/
structure World (σ τ : Type) where
  session : Session σ τ
  sent : List Json := []
  log : List LogRecord := []
  exits : List Nat := []

/-- What happens when a client asks the process to exit. -/
inductive ExitPolicy where
  /-- The status is noted and the session goes on. -/
  | note
  /-- The process ends. -/
  | leave
deriving DecidableEq, Repr

/-- What a session depends on: a front end, the files of the workspace, and what exiting means. -/
structure Server (σ τ : Type) where
  frontEnd : FrontEnd σ τ
  read : ReadFile
  onExit : ExitPolicy := .note

/-- A step: it changes the world and gives a result or fails. -/
abbrev Act (σ τ α : Type) := ExceptT Failure (StateM (World σ τ)) α

variable {σ τ α : Type}

/-! ## 2. Elementary effects -/

/-- The session. -/
def session : Act σ τ (Session σ τ) := do return (← get).session

/-- Changes the session. -/
def modifySession (f : Session σ τ → Session σ τ) : Act σ τ Unit :=
  modify fun w => { w with session := f w.session }

/-- A result that may be a crash. -/
def orCrash : Except Crash α → Act σ τ α
  | .ok a => return a
  | .error c => throw (.crashed c)

/-- A refusal. -/
def refuse (code : ErrorCode) (message : Text) (data : Json := .null) : Act σ τ α :=
  throw (.refused { code, message, data })

/-- Adds a record to the log. -/
def record (level : Level) (message : Text) (crash : Option Crash := none) : Act σ τ Unit :=
  modify fun w => { w with log := w.log ++ [{ level, message, crash }] }

/-- Writes a message.  One that cannot be encoded is not written. -/
def send (message : Json) : Act σ τ Unit := do
  match encode message with
  | .ok _ => modify fun w => { w with sent := w.sent ++ [message] }
  | .error u => throw (.crashed (.unencodable u))

/-! ## 3. Elementary changes -/

/-- The language of a document of which no other is known. -/
def defaultLanguage : Json := .string "lua"

/-- A document with a new text.  A version or language that is not given is kept from the document
before. -/
def Document.next (previous : Option Document) (text : Text) (version : Option Int)
    (languageId : Json) : Document where
  text := text
  version := version <|> previous.bind (·.version)
  languageId :=
    match languageId with
    | .null => (previous.map (·.languageId)).getD defaultLanguage
    | l => l

/-- Stores a document under a URI, which must be well formed. -/
def putDocument (uri text : Text) (version : Option Int) (languageId : Json) : Act σ τ Unit := do
  let s ← session
  match fsPath? uri with
  | .error e => throw (.crashed (.invalidUri e))
  | .ok _ =>
    let d := Document.next (Table.get? uri s.documents) text version languageId
    modifySession fun s => { s with documents := Table.insert uri d s.documents }

/-- Forgets a document and everything about it. -/
def removeDocument (uri : Text) : Act σ τ Unit :=
  modifySession fun s =>
    { s with
      documents := Table.erase uri s.documents
      trees := Table.erase uri s.trees
      diagnostics := Table.erase uri s.diagnostics }

/-- Adds a layer to the settings. -/
def addLayer (layer : Members) : Act σ τ Unit :=
  modifySession fun s => { s with settings := mergeLayer layer s.settings }

end LuaServer
