/-
# The project file at the start

A session that starts takes its first layer of settings from the project file in its root, and the second
one from the client.  A file that is missing, cannot be opened or is malformed contributes nothing, and
neither does one without a table `analysis`; the session starts all the same.

Two contents stop the start: bytes that are not UTF-8, and an integer with more digits than are ever read
(`Unreadable`).  Then the request is answered with an internal error, and the session is as it was but for
its root, so that it can be started later.

Main result: `handled_starts`.
-/
import LuaServer.Proofs.Layers
import LuaServer.Proofs.Lifecycle

namespace LuaServer

variable {σ τ : Type}

/-! ## 1. Project files -/

/-- What a project file contributes to the settings.  There is no content of one that is missing or cannot
be opened. -/
inductive FileContributes : Option Bytes → Members → Prop
  | unopened : FileContributes none []
  | malformed {content : Bytes} {source : Text} (hsource : Utf8.decode content = .ok source)
    (hfault : Toml.parse source = .error .malformed) : FileContributes (some content) []
  /-- The table `analysis`. -/
  | analysis {content : Bytes} {source : Text} {tables layer : Members}
    (hsource : Utf8.decode content = .ok source) (htables : Toml.parse source = .ok tables)
    (hlayer : Table.get? (text "analysis") tables = some (.obj layer)) :
    FileContributes (some content) layer
  /-- Nothing, if `analysis` is no table or is not there. -/
  | other {content : Bytes} {source : Text} {tables : Members}
    (hsource : Utf8.decode content = .ok source) (htables : Toml.parse source = .ok tables)
    (hnone : ∀ layer, Table.get? (text "analysis") tables ≠ some (.obj layer)) :
    FileContributes (some content) []

/-- The content of a project file cannot be read, which is a crash. -/
inductive Unreadable : Bytes → Crash → Prop
  | notUtf8 {content : Bytes} {f : Utf8.Fault} (hfault : Utf8.decode content = .error f) :
    Unreadable content (.undecodable f)
  | longInteger {content : Bytes} {source : Text} {n : Nat} (hsource : Utf8.decode content = .ok source)
    (hfault : Toml.parse source = .error (.tooManyDigits n)) : Unreadable content (.tooManyDigits n)

/-- A project file contributes something, if only nothing, or it cannot be read. -/
theorem contributes_or_unreadable (file : Option Bytes) :
    (∃ layer, FileContributes file layer) ∨ ∃ content c, file = some content ∧ Unreadable content c := by
  cases file with
  | none => exact .inl ⟨[], .unopened⟩
  | some content =>
    cases hsource : Utf8.decode content with
    | error f => exact .inr ⟨content, _, rfl, .notUtf8 hsource⟩
    | ok source =>
      cases hparse : Toml.parse source with
      | error fault =>
        cases fault with
        | malformed => exact .inl ⟨[], .malformed hsource hparse⟩
        | tooManyDigits n => exact .inr ⟨content, _, rfl, .longInteger hsource hparse⟩
      | ok tables =>
        by_cases hlayer : ∃ layer, Table.get? (text "analysis") tables = some (.obj layer)
        · obtain ⟨layer, hlayer⟩ := hlayer
          exact .inl ⟨layer, .analysis hsource hparse hlayer⟩
        · exact .inl ⟨[], .other hsource hparse (not_exists.mp hlayer)⟩

theorem Unreadable.inner {content : Bytes} {c : Crash} (h : Unreadable content c) : c.Inner := by
  cases h <;> trivial

theorem Unreadable.projectTables {content : Bytes} {c : Crash} (h : Unreadable content c) :
    projectTables content = .error c := by
  cases h with
  | notUtf8 hfault => simp [LuaServer.projectTables, hfault]
  | longInteger hsource hfault => simp [LuaServer.projectTables, hsource, hfault]

section
variable {read : ReadFile} {root : Option Text} (hpath : checkPath (projectPath root) = .ok ())
include hpath

theorem FileContributes.projectLayer {layer : Members}
    (h : FileContributes (read (projectPath root)) layer) :
    projectLayer read root = .ok layer := by
  rw [LuaServer.projectLayer, loadProject, hpath]
  dsimp only
  generalize read (projectPath root) = file at h
  cases h with
  | unopened => rfl
  | malformed hsource hfault => simp [LuaServer.projectTables, hsource, hfault, analysisSection, Table.get?]
  | analysis hsource htables hlayer =>
    simp [LuaServer.projectTables, hsource, htables, analysisSection, hlayer]
  | other hsource htables hnone =>
    simp only [LuaServer.projectTables, hsource, htables, analysisSection]

theorem Unreadable.projectLayer {content : Bytes} {c : Crash}
    (hfile : read (projectPath root) = some content) (h : Unreadable content c) :
    projectLayer read root = .error c := by
  rw [LuaServer.projectLayer, loadProject, hpath, hfile]
  dsimp only
  rw [h.projectTables]

end

/-! ## 2. The start -/

/-- The members of the parameters of a start. -/
def Envelope.startMembers (e : Envelope) : Members := (e.params.bind Json.members?).getD []

/-- The value that a client sends for its settings when it starts. -/
def Envelope.startOptions (e : Envelope) : Json :=
  (Table.get? (text "initializationOptions") e.startMembers).getD .null

section
variable (srv : Server σ τ) {w : World σ τ} {e : Envelope} {root : Option Text}
  (hno : w.session.initialized = false) (hroot : rootOf e.startMembers = .ok root)
include hno hroot

/-- The start of a session whose project file can be read. -/
theorem startSession_run {layer : Members} (hlayer : projectLayer srv.read root = .ok layer) :
    ∃ note, startSession srv e.params w = (.ok startResult,
      { w with
        session := { w.session with
          root := root
          settings := mergeLayers [layer, pickSection e.startOptions] w.session.settings
          initialized := true }
        log := w.log ++ [note] }) := by
  rw [startSession, bind_run, session_run, andThen_ok, hno, if_neg Bool.false_ne_true]
  rw [Envelope.startMembers] at hroot
  dsimp only
  rw [hroot, bind_run, orCrash_ok_run, andThen_ok, bind_run, modifySession_run, andThen_ok, hlayer]
  exact ⟨_, rfl⟩

/-- The start of a session whose project file cannot be read. -/
theorem startSession_run_error {c : Crash} (hlayer : projectLayer srv.read root = .error c) :
    startSession srv e.params w
      = (.error (.crashed c), { w with session := { w.session with root := root } }) := by
  rw [startSession, bind_run, session_run, andThen_ok, hno, if_neg Bool.false_ne_true]
  rw [Envelope.startMembers] at hroot
  dsimp only
  rw [hroot, bind_run, orCrash_ok_run, andThen_ok, bind_run, modifySession_run, andThen_ok, hlayer]
  rfl

end

/-! ## 3. The request -/

theorem clean_startResult : startResult.Clean := by
  simp [startResult, capabilities]

section
variable (srv : Server σ τ) {w w' : World σ τ} {body : Bytes} {e : Envelope} {id : Json}
  (he : IsRequest body e id) (hid : id.Clean)
include he hid

/-- A request whose method comes to its end is answered with the result. -/
theorem handle_request_ok {result : Json} (hresult : result.Clean)
    (hrun : answer srv e w = (.ok result, w')) :
    handle srv w body = (none, { w' with sent := w'.sent ++ [resultResponse id result] }) := by
  obtain ⟨hdecode, hrequest⟩ := he
  have hreply : (resultResponse id result).Clean := by simp [resultResponse, hid, hresult]
  simp only [handle, handlePayload, hdecode, hrequest, handleRequest, bind_run, attempt_run, hrun,
    andThen_ok]
  rw [send_run_of_clean hreply]

/-- A request whose method crashes is answered with an internal error, and the crash is noted. -/
theorem handle_request_crashed {c : Crash} (hc : c.Inner)
    (hrun : answer srv e w = (.error (.crashed c), w')) :
    handle srv w body = (none, { w' with
      sent := w'.sent ++ [errorResponse id c.toRpc]
      log := w'.log ++ [⟨.error, text "request " ++ e.method ++ text " crashed", some c⟩] }) := by
  obtain ⟨hdecode, hrequest⟩ := he
  have hmessage : Clean c.toRpc.message := by simpa [Crash.toRpc] using hc.clean
  simp only [handle, handlePayload, hdecode, hrequest, handleRequest, bind_run, attempt_run, hrun,
    andThen_ok, record_run]
  rw [send_run_of_clean (clean_errorResponse hid hmessage Json.clean_null)]

end

/-- A start is let in, unless the session stops. -/
theorem answer_start (srv : Server σ τ) {w : World σ τ} {e : Envelope}
    (hmethod : e.method = text Method.start.name) (hdown : w.session.shutdownRequested = false) :
    answer srv e w = startSession srv e.params w := by
  have hm : Method.ofText? e.method = some .start := by
    rw [hmethod]
    decide
  simp [answer, hm, hdown, call]

/-- The world after a session was started in a root with settings. -/
def World.started (w : World σ τ) (root : Text) (settings : Members) (id : Json) (note : LogRecord) :
    World σ τ :=
  { w with
    session := { w.session with root := some root, settings := settings, initialized := true }
    sent := w.sent ++ [resultResponse id startResult]
    log := w.log ++ [note] }

/-- The world after the start of a session in a root has crashed. -/
def World.stranded (w : World σ τ) (root : Text) (id : Json) (c : Crash) : World σ τ :=
  { w with
    session := { w.session with root := some root }
    sent := w.sent ++ [errorResponse id c.toRpc]
    log := w.log ++ [⟨.error, text "request initialize crashed", some c⟩] }

section
variable (srv : Server σ τ) {w : World σ τ} {body : Bytes} {e : Envelope} {id : Json} {root : Text}
  (he : IsRequest body e id) (hid : id.Clean) (hmethod : e.method = text Method.start.name)
  (hno : w.session.initialized = false) (hdown : w.session.shutdownRequested = false)
  (hroot : rootOf e.startMembers = .ok (some root))
  (hpath : checkPath (projectPath (some root)) = .ok ())
include he hid hmethod hno hdown hroot hpath

theorem handle_start_ok {layer : Members}
    (hfile : FileContributes (srv.read (projectPath (some root))) layer) :
    ∃ note, handle srv w body = (none, w.started root
      (mergeLayers [layer, pickSection e.startOptions] w.session.settings) id note) := by
  obtain ⟨note, hrun⟩ := startSession_run srv hno hroot (hfile.projectLayer hpath)
  have hanswer := (answer_start srv hmethod hdown).trans hrun
  exact ⟨note, handle_request_ok srv he hid clean_startResult hanswer⟩

theorem handle_start_crashed {content : Bytes} {c : Crash}
    (hfile : srv.read (projectPath (some root)) = some content) (hc : Unreadable content c) :
    handle srv w body = (none, w.stranded root id c) := by
  have hrun := startSession_run_error srv hno hroot (hc.projectLayer hpath hfile)
  have hanswer := (answer_start srv hmethod hdown).trans hrun
  rw [handle_request_crashed srv he hid hc.inner hanswer, hmethod]
  rfl

end

/-- **A project file that can be read never stops a start.**  A session, whatever it has handled so far, is
asked to start in a root that can be looked at.  If the project file there contributes a layer, be it an
empty one, then the session is started, with that layer below what the client sends, and the request is
answered with the result.  If the file cannot be read, the session has nothing but its new root, and the
request is answered with an internal error. -/
theorem handled_starts (srv : Server σ τ) (memory : σ) (bodies : List Bytes) {body : Bytes} {e : Envelope}
    {id : Json} {root : Text} {picked : Members}
    (hearly : (handled srv (Connection.fresh memory).world bodies).session.initialized = false)
    (he : IsRequest body e id) (hid : id.Clean) (hmethod : e.method = text Method.start.name)
    (hroot : rootOf e.startMembers = .ok (some root))
    (hpath : checkPath (projectPath (some root)) = .ok ())
    (hpicked : Contributes e.startOptions picked) :
    let w := handled srv (Connection.fresh memory).world bodies
    let file := srv.read (projectPath (some root))
    (∀ layer, FileContributes file layer → ∃ settings note,
      handle srv w body = (none, w.started root settings id note) ∧
      settings = mergeLayers [layer, picked] [] ∧
      ((Table.keys layer).Nodup → (Table.keys picked).Nodup →
        ∀ name, Table.get? name settings = (given? name picked).or (given? name layer))) ∧
    (∀ content c, file = some content → Unreadable content c →
      handle srv w body = (none, w.stranded root id c) ∧ c.toRpc.code.number = -32603) ∧
    ((handle srv w body).2.session.initialized = true ↔
      ∀ content c, file = some content → ¬Unreadable content c) := by
  intro w file
  -- a session that is not started yet has no settings and does not stop
  have horderly : Orderly memory w.session :=
    handled_orderly srv ⟨fun _ => rfl, fun h => absurd h Bool.false_ne_true⟩ bodies
  have hmade := horderly.early hearly
  have hsettings : w.session.settings = [] := congrArg Session.settings hmade
  have hdown : w.session.shutdownRequested = false := congrArg Session.shutdownRequested hmade
  refine ⟨fun layer hlayer => ?_, fun content c hfile hc => ⟨?_, rfl⟩, ?_⟩
  · obtain ⟨note, hrun⟩ := handle_start_ok srv he hid hmethod hearly hdown hroot hpath hlayer
    rw [pickSection_eq hpicked, hsettings] at hrun
    refine ⟨_, note, hrun, rfl, fun hkeys hkeys' name => ?_⟩
    have hdistinct : ∀ l ∈ [layer, picked], (Table.keys l).Nodup := by
      simp [hkeys, hkeys']
    rw [get?_layered name hdistinct]
    cases hgiven : given? name picked <;> cases hgiven' : given? name layer <;> simp [hgiven, hgiven']
  · exact handle_start_crashed srv he hid hmethod hearly hdown hroot hpath hfile hc
  · rcases contributes_or_unreadable file with ⟨layer, hlayer⟩ | ⟨content, c, hfile, hc⟩
    · obtain ⟨note, hrun⟩ := handle_start_ok srv he hid hmethod hearly hdown hroot hpath hlayer
      refine iff_of_true (by rw [hrun, World.started]) fun content c hfile hc => ?_
      have hcrash := hc.projectLayer hpath hfile
      rw [hlayer.projectLayer hpath] at hcrash
      cases hcrash
    · have hrun := handle_start_crashed srv he hid hmethod hearly hdown hroot hpath hfile hc
      refine iff_of_false ?_ fun h => h content c hfile hc
      rw [hrun]
      exact fun h => Bool.false_ne_true (hearly.symm.trans h)

/-- A session is started with `strict` from the project file and `unused` from the client, who overrides the
file. -/
theorem handled_starts_overridden :
    let source := text "[analysis]\nstrict = true\nunused = true\n"
    let srv := luaServer (fun path => if path = text "/w/lunals.toml" then some (asciiBytes source) else none)
      .note
    let fresh : World Unit LuaTree := (Connection.fresh ()).world
    let body := requestBody 1 .start [("rootPath", .string "/w"),
      ("initializationOptions", Json.object [("unused", .bool false)])]
    ∃ layer id, FileContributes (some (asciiBytes source)) layer ∧
      Table.keys layer = [text "strict", text "unused"] ∧ (handle srv fresh body).1 = none ∧
      (handle srv fresh body).2.sent = [resultResponse id startResult] ∧
      (handle srv fresh body).2.session.initialized = true ∧
      (handle srv fresh body).2.session.analysis
        = { strict := true, integer := false, unused := false } := by
  intro source srv fresh body
  -- the request
  have hrequest : ∃ e : Envelope, IsRequest body e (.nat 1) ∧ e.method = text Method.start.name ∧
      (rootOf e.startMembers).toOption = some (some (text "/w")) ∧
      e.startOptions = Json.object [("unused", .bool false)] :=
    ⟨_, ⟨decode_requestBody .start (by decide) (by decide +kernel), rfl⟩, rfl, by decide +kernel, rfl⟩
  obtain ⟨e, he, hmethod, hroot, hoptions⟩ := hrequest
  -- the file, and what the settings come to
  have hread : srv.read (projectPath (some (text "/w"))) = some (asciiBytes source) := by decide +kernel
  have hpath : (checkPath (projectPath (some (text "/w")))).toOption = some () := by decide +kernel
  have hsource : (Utf8.decode (asciiBytes source)).toOption = some source := by decide +kernel
  have hlayer : ((Toml.parse source).toOption.bind fun tables =>
      (Table.get? (text "analysis") tables).bind Json.members?).map (fun layer => (Table.keys layer,
        analysisOf (mergeLayers [layer, pickSection (Json.object [("unused", .bool false)])] [])))
      = some ([text "strict", text "unused"], { strict := true, integer := false, unused := false }) := by
    decide +kernel
  obtain ⟨layer, hlayer, hsettings⟩ := Option.map_eq_some_iff.mp hlayer
  obtain ⟨hkeys, hanalysis⟩ := Prod.mk.inj hsettings
  obtain ⟨tables, htables, hlayer⟩ := Option.bind_eq_some_iff.mp hlayer
  obtain ⟨v, hv, hlayer⟩ := Option.bind_eq_some_iff.mp hlayer
  have hobject : v = .obj layer := by
    cases v <;> cases hlayer
    rfl
  have hfile : FileContributes (some (asciiBytes source)) layer :=
    .analysis (ok_of_toOption hsource) (ok_of_toOption htables) (hobject ▸ hv)
  -- the start
  obtain ⟨hstarts, -⟩ := handled_starts srv () [] rfl he (Json.clean_nat 1) hmethod (ok_of_toOption hroot)
    (ok_of_toOption hpath) (contributes_pickSection e.startOptions)
  obtain ⟨settings, note, hrun, hmerged, -⟩ := hstarts layer (hread ▸ hfile)
  change handle srv fresh body = _ at hrun
  rw [hrun]
  refine ⟨layer, .nat 1, hfile, hkeys, rfl, rfl, rfl, ?_⟩
  rw [← hanalysis, ← hoptions, ← hmerged]
  rfl

/-- A project file of the one byte 255 stops the start: the request is answered with an internal error
instead of a result, and the session has its root, but is not started. -/
theorem handle_undecodable :
    let srv := luaServer (fun path => if path = text "/w/lunals.toml" then some [0xFF] else none) .note
    let fresh : World Unit LuaTree := (Connection.fresh ()).world
    let w := (handle srv fresh (requestBody 1 .start [("rootPath", .string "/w")])).2
    w.session.initialized = false ∧ w.session.root = some (text "/w") ∧
      w.sent.map (fun m => (m.get? (text "result")).isSome) = [false] ∧
      w.sent.map (fun m => ((m.get? (text "error")).bind (Json.get? (text "code"))).map Json.render)
        = [some (text "-32603")] := by
  decide +kernel

end LuaServer
