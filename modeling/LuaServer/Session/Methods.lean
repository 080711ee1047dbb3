/-
# The methods of the server

The table of methods is closed: `Method` lists them, `Method.name` gives their names on the wire, and
`call` carries one out.
-/
import LuaServer.Session.Features

namespace LuaServer

variable {σ τ α : Type}

/-! ## 1. Names -/

/-- The methods that the server knows. -/
inductive Method where
  | start | initialized | shutdown | exit
  | didOpen | didChange | didClose | didSave | didChangeConfiguration
  | hover | rename | references | definition | completion | signatureHelp
deriving DecidableEq, Repr

namespace Method

/-- The name of a method on the wire. -/
def name : Method → String
  | .start => "initialize"
  | .initialized => "initialized"
  | .shutdown => "shutdown"
  | .exit => "exit"
  | .didOpen => "textDocument/didOpen"
  | .didChange => "textDocument/didChange"
  | .didClose => "textDocument/didClose"
  | .didSave => "textDocument/didSave"
  | .didChangeConfiguration => "workspace/didChangeConfiguration"
  | .hover => "textDocument/hover"
  | .rename => "textDocument/rename"
  | .references => "textDocument/references"
  | .definition => "textDocument/definition"
  | .completion => "textDocument/completion"
  | .signatureHelp => "textDocument/signatureHelp"

/-- Every method. -/
def all : List Method :=
  [.start, .initialized, .shutdown, .exit, .didOpen, .didChange, .didClose, .didSave,
    .didChangeConfiguration, .hover, .rename, .references, .definition, .completion, .signatureHelp]

/-- The method with a name. -/
def ofText? (t : Text) : Option Method := all.find? (fun m => text m.name = t)

theorem mem_all (m : Method) : m ∈ all := by cases m <;> decide

end Method

/-! ## 2. The life of a session -/

/-- The name of the server. -/
def serverName : String := "lunals"

/-- The version of the server. -/
def serverVersion : String := "0.1.0"

/-- What the server can do, as it tells a client that starts. -/
def capabilities : Json :=
  Json.object
    [("textDocumentSync", Json.object
        [("openClose", .bool true), ("change", .nat 1),
          ("save", Json.object [("includeText", .bool false)])]),
      ("completionProvider", Json.object
        [("triggerCharacters", .arr [.string ".", .string ":"])]),
      ("hoverProvider", .bool true),
      ("signatureHelpProvider", Json.object
        [("triggerCharacters", .arr [.string "(", .string ","])]),
      ("definitionProvider", .bool true),
      ("referencesProvider", .bool true),
      ("documentSymbolProvider", .bool false),
      ("codeActionProvider", .bool false),
      ("documentFormattingProvider", .bool false),
      ("renameProvider", .bool true)]

/-- The answer to a client that starts. -/
def startResult : Json :=
  Json.object
    [("capabilities", capabilities),
      ("serverInfo", Json.object
        [("name", .string serverName), ("version", .string serverVersion)])]

/-- A string that is not empty. -/
def nonEmpty? : Option Json → Option Text
  | some (.str (c :: cs)) => some (c :: cs)
  | _ => none

/-- The root of the workspace: the path of its URI, or the path that an older client sends. -/
def rootOf (params : Members) : Except Crash (Option Text) :=
  let older := (nonEmpty? (Table.get? (text "rootPath") params)).map normalizePath
  match nonEmpty? (Table.get? (text "rootUri") params) with
  | none => .ok older
  | some uri =>
    match fsPath? uri with
    | .error e => .error (.invalidUri e)
    | .ok (some (c :: cs)) => .ok (some (normalizePath (c :: cs)))
    | .ok _ => .ok older

/-- Starts the session: finds the root, and takes the settings from the project file and from the
client. -/
def startSession (srv : Server σ τ) (params : Option Json) : Act σ τ Json := do
  if (← session).initialized then
    refuse .invalidRequest (text "initialize may only be sent once")
  else
    let ms := (params.bind Json.members?).getD []
    let root ← orCrash (rootOf ms)
    modifySession fun s => { s with root := root }
    addLayer (← orCrash (projectLayer srv.read root))
    addLayer (pickSection ((Table.get? (text "initializationOptions") ms).getD .null))
    modifySession fun s => { s with initialized := true }
    let s ← session
    record .info (text "initialized (root=" ++ s.root.getD (text "None") ++ text ", settings="
      ++ (Json.obj s.settings).render ++ text ")")
    return startResult

/-- Announces that the session will end. -/
def shutdown : Act σ τ Json := do
  modifySession fun s => { s with shutdownRequested := true, running := false }
  return .null

/-- Ends the session, with success if that was announced. -/
def exit (srv : Server σ τ) : Act σ τ Json := do
  modifySession fun s => { s with running := false }
  let status := if (← session).shutdownRequested then 0 else 1
  match srv.onExit with
  | .leave => throw (.exited status)
  | .note =>
    modify fun w => { w with exits := w.exits ++ [status] }
    return .null

/-! ## 3. Documents -/

/-- A document is opened. -/
def didOpen (srv : Server σ τ) (p : OpenParams) : Act σ τ Json := do
  putDocument p.uri p.text (some p.version) p.languageId
  let _ ← analyze srv p.uri
  return .null

/-- A document has changed.  Only whole texts are accepted, and the last one counts. -/
def didChange (srv : Server σ τ) (p : ChangeParams) : Act σ τ Json := do
  if p.changes.any (·.ranged) then
    refuse .invalidParams
      (text "incremental change for " ++ p.uri
        ++ text " rejected: server only supports full document sync")
      (Json.object [("uri", .str p.uri)])
  else
    match p.changes.getLast? with
    | none => return .null
    | some c =>
      putDocument p.uri c.text (some p.version) .null
      let _ ← analyze srv p.uri
      return .null

/-- A document is closed. -/
def didClose (uri : Text) : Act σ τ Json := do
  removeDocument uri
  send (publishJson uri [] none)
  return .null

/-- A document is saved. -/
def didSave (srv : Server σ τ) (p : SaveParams) : Act σ τ Json := do
  match p.text with
  | some t => putDocument p.uri t none .null
  | none => pure ()
  let _ ← analyze srv p.uri
  return .null

/-- Analyses documents one after the other. -/
def analyzeAll (srv : Server σ τ) : List Text → Act σ τ Unit
  | [] => return ()
  | uri :: uris => do
    let _ ← analyze srv uri
    analyzeAll srv uris

/-- The settings have changed. -/
def didChangeConfiguration (srv : Server σ τ) (settings : Json) : Act σ τ Json := do
  addLayer (pickSection settings)
  analyzeAll srv (Table.keys (← session).documents)
  return .null

/-! ## 4. Calls -/

/-- Reads the parameters of a method.  Absent ones count as an object without members.  A refusal names the
class of the parameters; the words in which the converter goes on to say what is wrong with them are left
out. -/
def withParams (name : String) (read : Members → Option α) (params : Option Json) :
    Act σ τ α :=
  let read? : Option α :=
    match params with
    | none => read []
    | some (.obj ms) => read ms
    | some _ => none
  match read? with
  | some a => return a
  | none => refuse .invalidParams (text "invalid params for " ++ text name)

/-- Completions are advertised, and there are none. -/
def noCompletions : Json := Json.object [("isIncomplete", .bool false), ("items", .arr [])]

/-- Carries a method out. -/
def call (srv : Server σ τ) (m : Method) (params : Option Json) : Act σ τ Json := do
  match m with
  | .start => startSession srv params
  | .initialized => return .null
  | .shutdown => shutdown
  | .exit => exit srv
  | .didOpen => didOpen srv (← withParams "DidOpenTextDocumentParams" openParams? params)
  | .didChange => didChange srv (← withParams "DidChangeTextDocumentParams" changeParams? params)
  | .didClose => didClose (← withParams "DidCloseTextDocumentParams" closeParams? params)
  | .didSave => didSave srv (← withParams "DidSaveTextDocumentParams" saveParams? params)
  | .didChangeConfiguration =>
    didChangeConfiguration srv (← withParams "DidChangeConfigurationParams" configurationParams? params)
  | .hover => hover srv (← withParams "HoverParams" placeParams? params)
  | .rename => rename srv (← withParams "RenameParams" renameParams? params)
  | .references => references srv (← withParams "ReferenceParams" referenceParams? params)
  | .definition => definition srv (← withParams "DefinitionParams" placeParams? params)
  | .completion =>
    let _ ← withParams "CompletionParams" completionParams? params
    return noCompletions
  | .signatureHelp =>
    let _ ← withParams "SignatureHelpParams" signatureParams? params
    return .null

end LuaServer
