/-
# What an analysis finds and does

`inspect` is the analysis of a text as a function: the diagnostics of the text, and its tree if none of
them is an error.  `analyze` of an open document keeps what `inspect` finds in the text of the document
and publishes it; of any other document it does nothing.

Main results: `analyze_open`, `analyze_absent`.
-/
import LuaServer.Proofs.Acts

namespace LuaServer

/-! ## 1. The findings of a text -/

/-- The diagnostics of a text, and its tree if none of them is an error. -/
structure Report where
  diagnostics : List Diagnostic
  tree : Option LuaTree

/-- The report on a text that is refused: one diagnostic at the place that the refusal names. -/
def inspectRefusal (message : Text) : Except Crash Report :=
  match Diagnostic.ofRefusal message with
  | .error c => .error c
  | .ok d => .ok ⟨d.toList, none⟩

/-- The report on a chunk: what the checker says about it, in order. -/
def inspectChunk (settings : Lua.CheckSettings) (c : Lua.Chunk) : Except Crash Report :=
  let checked := Lua.check settings c
  match diagnosticsOf (checked.messages.map Finding.ofMessage) with
  | .error c => .error c
  | .ok ds => .ok ⟨ds, if ds.any Diagnostic.isError then none else some ⟨c, checked.types⟩⟩

/-- The report on a text. -/
def inspect (settings : Lua.CheckSettings) (source uri : Text) : Except Crash Report :=
  match Lua.parse source uri with
  | .error e => inspectRefusal e.message
  | .ok c => inspectChunk settings c

/-- How a report comes about, or why there is none: the text is refused or read, and the places of what
is found can be sent or not. -/
inductive Inspected (settings : Lua.CheckSettings) (source uri : Text) : Except Crash Report → Prop
  | refused {e : Lua.SyntaxError} {d? : Option Diagnostic} (hparse : Lua.parse source uri = .error e)
      (hrefusal : Diagnostic.ofRefusal e.message = .ok d?) :
      Inspected settings source uri (.ok ⟨d?.toList, none⟩)
  | refusedBeyond {e : Lua.SyntaxError} {c : Crash} (hparse : Lua.parse source uri = .error e)
      (hrefusal : Diagnostic.ofRefusal e.message = .error c) : Inspected settings source uri (.error c)
  | read {c : Lua.Chunk} {ds : List Diagnostic} (hparse : Lua.parse source uri = .ok c)
      (hds : diagnosticsOf ((Lua.check settings c).messages.map Finding.ofMessage) = .ok ds) :
      Inspected settings source uri
        (.ok ⟨ds, if ds.any Diagnostic.isError then none else some ⟨c, (Lua.check settings c).types⟩⟩)
  | readBeyond {c : Lua.Chunk} {crash : Crash} (hparse : Lua.parse source uri = .ok c)
      (hds : diagnosticsOf ((Lua.check settings c).messages.map Finding.ofMessage) = .error crash) :
      Inspected settings source uri (.error crash)

theorem inspected_of {settings : Lua.CheckSettings} {source uri : Text} {result : Except Crash Report}
    (h : inspect settings source uri = result) : Inspected settings source uri result := by
  subst h
  unfold inspect
  split
  · next e hparse =>
    unfold inspectRefusal
    split
    · next c hrefusal => exact .refusedBeyond hparse hrefusal
    · next d? hrefusal => exact .refused hparse hrefusal
  · next c hparse =>
    dsimp only [inspectChunk]
    split
    · next crash hds => exact .readBeyond hparse hds
    · next ds hds => exact .read hparse hds

/-- A text with a tree is read, and what the checker says about it are the diagnostics of the text, of
which none is an error. -/
theorem inspect_eq_tree {settings : Lua.CheckSettings} {source uri : Text} {r : Report} {t : LuaTree}
    (h : inspect settings source uri = .ok r) (ht : r.tree = some t) :
    Lua.parse source uri = .ok t.chunk ∧ t.types = (Lua.check settings t.chunk).types ∧
      diagnosticsOf ((Lua.check settings t.chunk).messages.map Finding.ofMessage) = .ok r.diagnostics ∧
      r.diagnostics.any Diagnostic.isError = false := by
  cases inspected_of h with
  | refused => cases ht
  | read hparse hds =>
    dsimp only at ht
    split at ht
    · cases ht
    · next herror =>
      cases ht
      exact ⟨hparse, rfl, hds, by simpa using herror⟩

/-! ## 2. Analyses -/

/-- The server of Lua documents. -/
def luaServer (read : ReadFile) (onExit : ExitPolicy) : Server Unit LuaTree :=
  ⟨luaFrontEnd, read, onExit⟩

/-- The trees after a report. -/
def Report.keep (r : Report) (uri : Text) (trees : Table LuaTree) : Table LuaTree :=
  match r.tree with
  | none => Table.erase uri trees
  | some t => Table.insert uri t trees

/-- What a report changes in a session. -/
def Report.applied (r : Report) (uri : Text) (s : Session Unit LuaTree) : Session Unit LuaTree :=
  { s with diagnostics := Table.insert uri r.diagnostics s.diagnostics, trees := r.keep uri s.trees }

/-- What is published about an open document. -/
def Report.notice (r : Report) (uri : Text) (doc : Document) : Json :=
  publishJson uri r.diagnostics doc.version

section
variable (read : ReadFile) (onExit : ExitPolicy) {uri : Text} {doc : Document} {r : Report}
  {w : World Unit LuaTree}

/-- A document that is not open is not analysed. -/
theorem analyze_absent (hdoc : Table.get? uri w.session.documents = none) :
    analyze (luaServer read onExit) uri w = (.ok none, w) := by
  rw [analyze, bind_run, session_run, andThen_ok, hdoc]
  rfl

theorem publish_run {ds : List Diagnostic} {body : Bytes}
    (hdoc : Table.get? uri w.session.documents = some doc)
    (hencode : encode (publishJson uri ds doc.version) = .ok body) :
    publish uri ds w = (.ok (),
      { w with
        session := { w.session with diagnostics := Table.insert uri ds w.session.diagnostics }
        sent := w.sent ++ [publishJson uri ds doc.version] }) := by
  simp only [publish, bind_run, modifySession_run, andThen_ok, session_run, hdoc, Option.bind_some]
  exact send_run _ hencode

/-- **An analysis keeps and publishes what it finds.** -/
theorem analyze_open {body : Bytes} (hdoc : Table.get? uri w.session.documents = some doc)
    (hreport : inspect w.session.analysis doc.text uri = .ok r)
    (hencode : encode (r.notice uri doc) = .ok body) :
    ∃ log, analyze (luaServer read onExit) uri w = (.ok r.tree,
      { w with
        session := r.applied uri w.session, sent := w.sent ++ [r.notice uri doc], log := log }) := by
  rw [analyze, bind_run, session_run, andThen_ok, hdoc]
  cases inspected_of hreport with
  | @refused e d? hparse hrefusal =>
    simp only [luaServer, luaFrontEnd, hparse, bind_run, reportRefusal, dropTree, modifySession_run,
      andThen_ok, hrefusal, orCrash_ok_run]
    cases d? with
    | none =>
      replace hencode : encode (publishJson uri [] doc.version) = .ok body := hencode
      simp only [bind_run, record_run, andThen_ok]
      rw [publish_run (by exact hdoc) hencode]
      exact ⟨_, rfl⟩
    | some d =>
      replace hencode : encode (publishJson uri [d] doc.version) = .ok body := hencode
      dsimp only
      rw [publish_run (by exact hdoc) hencode]
      exact ⟨_, rfl⟩
  | @read c ds hparse hds =>
    simp only [luaServer, luaFrontEnd, hparse, bind_run, hds, orCrash_ok_run, andThen_ok]
    rw [publish_run hdoc hencode, andThen_ok]
    by_cases herror : ds.any Diagnostic.isError = true
    · simp only [if_pos herror, bind_run, record_run, andThen_ok, dropTree, modifySession_run]
      exact ⟨_, rfl⟩
    · simp only [if_neg herror, bind_run, andThen_ok, modifySession_run]
      exact ⟨_, rfl⟩

/-- A visit of a tree changes nothing. -/
@[simp] theorem visit_run (tree : LuaTree) :
    visit (luaServer read onExit) tree w = (.ok (luaFrontEnd.visit () tree).1, w) := rfl

end

end LuaServer
