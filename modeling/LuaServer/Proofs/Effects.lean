/-
# What a step depends on

What a step does is decided by the session alone: messages that were written, records in the log and
exits that were noted are never looked at again, and a step only adds to them.  Of the session it does not
look at what the analyses keep there, the diagnostics and the trees: each analysis starts from the text.
So two worlds whose sessions differ in those at most go on alike, whatever came before (`Local`).  The same
walk over the methods shows that only one of them can end the process.

Main results: `call_local`, `handle_local`, `handle_uncached`.
-/
import LuaServer.Connection
import LuaServer.Proofs.Acts

namespace LuaServer

variable {σ τ α β : Type}

/-! ## 1. Local steps -/

/-- The session of a world, to which nothing has happened yet. -/
def World.bare (w : World σ τ) : World σ τ := { session := w.session }

/-- What happened in one world and then in another, which gives the session. -/
def World.after (w v : World σ τ) : World σ τ :=
  ⟨v.session, w.sent ++ v.sent, w.log ++ v.log, w.exits ++ v.exits⟩

/-- What is written after one another is put together. -/
theorem World.after_after (w v u : World σ τ) : w.after (v.after u) = (w.after v).after u := by
  simp [World.after]

/-- A session without what analyses keep in it. -/
def Session.uncached (s : Session σ τ) : Session σ τ := { s with diagnostics := [], trees := [] }

/-- A world whose session is without what analyses keep in it. -/
def World.uncached (w : World σ τ) : World σ τ := { w with session := w.session.uncached }

/-- Two worlds agree apart from what analyses keep if their sessions do, and all the rest is the same. -/
theorem World.uncached_eq_iff {v w : World σ τ} : v.uncached = w.uncached ↔
    v.session.uncached = w.session.uncached ∧ v.sent = w.sent ∧ v.log = w.log ∧ v.exits = w.exits := by
  rw [World.uncached, World.uncached, World.mk.injEq]

/-- A step goes on alike in two worlds which differ in what analyses keep. -/
def Blind (x : Act σ τ α) : Prop :=
  ∀ v w : World σ τ, v.uncached = w.uncached →
    (x v).1 = (x w).1 ∧ (x v).2.uncached = (x w).2.uncached

/-- A step reads nothing but the session, of that nothing which analyses keep, and adds to the rest of the
world.  It ends the process only if `leaves` is true. -/
structure Local (leaves : Prop) (x : Act σ τ α) : Prop where
  run : ∀ w, x w = ((x w.bare).1, w.after (x w.bare).2)
  exited : ∀ w status, (x w).1 = .error (.exited status) → leaves
  blind : Blind x

namespace Local

section
variable {leaves : Prop} {x : Act σ τ α}

/-- A step that has no effect but a change of the session. -/
theorem quiet {r : Session σ τ → Except Failure α} {f : Session σ τ → Session σ τ}
    (hrun : ∀ w, x w = (r w.session, { w with session := f w.session }))
    (hexited : ∀ s status, r s = .error (.exited status) → leaves) (hr : ∀ s, r s.uncached = r s)
    (hf : ∀ s, (f s.uncached).uncached = (f s).uncached) : Local leaves x := by
  refine ⟨fun w => ?_, fun w status h => ?_, fun v w h => ?_⟩
  · rw [hrun, hrun]
    simp [World.after, World.bare]
  · rw [hrun] at h
    exact hexited _ status h
  · obtain ⟨hsession, hsent, hlog, hexits⟩ := World.uncached_eq_iff.mp h
    rw [hrun, hrun, World.uncached_eq_iff]
    exact ⟨by rw [← hr, hsession, hr], by rw [← hf, hsession, hf], hsent, hlog, hexits⟩

/-- A step that gives the same result everywhere and has no effect. -/
theorem const {r : Except Failure α} (hrun : ∀ w, x w = (r, w))
    (hexited : ∀ status, r = .error (.exited status) → leaves) : Local leaves x :=
  quiet (r := fun _ => r) (f := id) hrun (fun _ => hexited) (fun _ => rfl) fun _ => rfl

/-- A result without an effect. -/
theorem pure (a : α) : Local leaves (Pure.pure a : Act σ τ α) := const (fun _ => rfl) (by simp)

/-- A refusal depends on nothing. -/
theorem refuse (code : ErrorCode) (message : Text) (data : Json) :
    Local leaves (LuaServer.refuse code message data : Act σ τ α) := const (fun _ => rfl) (by simp)

theorem crash (c : Crash) : Local leaves (throw (.crashed c) : Act σ τ α) :=
  const (fun _ => rfl) (by simp)

/-- The session is left only where that is allowed. -/
theorem leave (h : leaves) (status : Nat) : Local leaves (throw (.exited status) : Act σ τ α) :=
  const (fun _ => rfl) fun _ _ => h

/-- A change of the session that does not carry over to the rest what analyses keep. -/
theorem modifySession {f : Session σ τ → Session σ τ} (hf : ∀ s, (f s.uncached).uncached = (f s).uncached) :
    Local leaves (LuaServer.modifySession f) :=
  quiet (r := fun _ => .ok ()) (fun _ => rfl) (by simp) (fun _ => rfl) hf

theorem orCrash : ∀ r : Except Crash α, Local leaves (LuaServer.orCrash r : Act σ τ α)
  | .ok a => pure a
  | .error c => crash c

/-- A record is added to the log, whatever the log holds. -/
theorem record (level : Level) (message : Text) (c : Option Crash) :
    Local leaves (LuaServer.record level message c : Act σ τ Unit) := by
  refine ⟨fun w => ?_, fun w status h => ?_, fun v w h => ⟨rfl, ?_⟩⟩
  · simp [World.after, World.bare]
  · cases h
  · obtain ⟨hsession, hsent, hlog, hexits⟩ := World.uncached_eq_iff.mp h
    exact World.uncached_eq_iff.mpr ⟨hsession, hsent, congrArg (· ++ _) hlog, hexits⟩

/-- A message is written after those before. -/
theorem send (m : Json) : Local leaves (LuaServer.send m : Act σ τ Unit) := by
  cases hencode : encode m with
  | ok body =>
    refine ⟨fun w => ?_, fun w status h => ?_, fun v w h => ?_⟩
    · rw [send_run w hencode, send_run w.bare hencode]
      simp [World.after, World.bare]
    · rw [send_run w hencode] at h
      cases h
    · obtain ⟨hsession, hsent, hlog, hexits⟩ := World.uncached_eq_iff.mp h
      rw [send_run v hencode, send_run w hencode]
      exact ⟨rfl, World.uncached_eq_iff.mpr ⟨hsession, congrArg (· ++ _) hsent, hlog, hexits⟩⟩
  | error u => exact const (fun w => send_run_error w hencode) (by simp)

/-- A step that reads the session, apart from what analyses keep in it. -/
theorem reads {f : Session σ τ → Act σ τ α} (hf : ∀ s, Local leaves (f s))
    (hs : ∀ s, f s.uncached = f s) : Local leaves (LuaServer.session >>= f) := by
  have hrun : ∀ w, (LuaServer.session >>= f) w = f w.session w := fun w => by
    rw [bind_run, session_run, andThen_ok]
  refine ⟨fun w => ?_, fun w status h => ?_, fun v w h => ?_⟩
  · rw [hrun, hrun]
    exact (hf w.session).run w
  · rw [hrun] at h
    exact (hf w.session).exited w status h
  · have hsession : f v.session = f w.session := by
      rw [← hs, (World.uncached_eq_iff.mp h).1, hs]
    rw [hrun, hrun, hsession]
    exact (hf w.session).blind v w h

/-- One step after another: what the first one writes the second one does not see. -/
theorem bind {f : α → Act σ τ β} (hx : Local leaves x) (hf : ∀ a, Local leaves (f a)) :
    Local leaves (x >>= f) := by
  refine ⟨fun w => ?_, fun w status h => ?_, fun v w h => ?_⟩
  · rw [bind_run, bind_run, hx.run w]
    rcases x w.bare with ⟨e | a, v⟩
    · rfl
    -- the second step starts from the session that the first one leaves, in both runs
    · have hbare : (w.after v).bare = v.bare := rfl
      rw [andThen_ok, andThen_ok, (hf a).run (w.after v), (hf a).run v, hbare, World.after_after]
  · rw [bind_run] at h
    rcases hrun : x w with ⟨e | a, v⟩
    · rw [hrun] at h
      cases h
      exact hx.exited w status (congrArg Prod.fst hrun)
    · rw [hrun] at h
      exact (hf a).exited v status h
  · obtain ⟨hresult, hworld⟩ := hx.blind v w h
    rw [bind_run, bind_run]
    generalize x v = first, x w = second at hresult hworld ⊢
    obtain ⟨r, v'⟩ := first
    obtain ⟨r', w'⟩ := second
    obtain rfl : r = r' := hresult
    cases r with
    | error e => exact ⟨rfl, hworld⟩
    | ok a => exact (hf a).blind v' w' hworld

/-- The failure of a step as a value. -/
theorem attempt (hx : Local leaves x) : Local leaves (LuaServer.attempt x) := by
  refine ⟨fun w => ?_, fun w status h => ?_, fun v w h => ?_⟩
  · rw [LuaServer.attempt, LuaServer.attempt, hx.run w]
    rcases x w.bare with ⟨r, v⟩
    rfl
  · cases h
  · obtain ⟨hresult, hworld⟩ := hx.blind v w h
    exact ⟨congrArg Except.ok hresult, hworld⟩

/-- Params are converted, or the request is refused. -/
theorem withParams (name : String) (read : Members → Option α) (params : Option Json) :
    Local leaves (LuaServer.withParams name read params : Act σ τ α) := by
  unfold LuaServer.withParams
  dsimp only
  split
  · exact .pure _
  · exact .refuse _ _ _

/-- The result of a step depends on the session alone. -/
theorem result (hx : Local leaves x) (w : World σ τ) : (x w).1 = (x w.bare).1 :=
  (congrArg Prod.fst (hx.run w)).trans rfl

/-- A step that does not leave may be said to leave. -/
theorem mono {leaves' : Prop} (hx : Local leaves x) (h : leaves → leaves') : Local leaves' x :=
  ⟨hx.run, fun w status hw => h (hx.exited w status hw), hx.blind⟩

end

end Local

/-! ## 2. Methods -/

section
variable {leaves : Prop} (srv : Server σ τ)

/-- A notice is written and remembered, which no step looks at. -/
theorem publish_local (uri : Text) (ds : List Diagnostic) :
    Local leaves (publish uri ds : Act σ τ Unit) :=
  .bind (.modifySession fun _ => rfl) fun _ => .reads (fun _ => .send _) fun _ => rfl

theorem reportRefusal_local (uri message : Text) :
    Local leaves (reportRefusal uri message : Act σ τ Unit) := by
  refine .bind (.modifySession fun _ => rfl) fun _ => (Local.orCrash _).bind fun d => ?_
  split
  · exact (Local.record _ _ _).bind fun _ => publish_local uri []
  · exact publish_local uri _

/-- An analysis looks at the document and at the settings, and at nothing that an analysis has kept. -/
theorem analyze_local (uri : Text) : Local leaves (analyze srv uri) := by
  refine .reads (fun s => ?_) fun _ => rfl
  split
  · exact .pure _
  · split
    · exact .crash _
    · exact (reportRefusal_local uri _).bind fun _ => .pure _
    · refine (Local.orCrash _).bind fun ds => (publish_local uri ds).bind fun _ => ?_
      split
      · exact (Local.record _ _ _).bind fun _ => .bind (.modifySession fun _ => rfl) fun _ => .pure _
      · exact .bind (.modifySession fun _ => rfl) fun _ => .pure _

theorem visit_local (tree : τ) : Local leaves (visit srv tree) :=
  .reads (fun _ => .bind (.modifySession fun _ => rfl) fun _ => .pure _) fun _ => rfl

/-- A place is resolved in the tree that the analysis gives, not in the one that is kept. -/
theorem resolve_local (place : PlaceParams) : Local leaves (resolve srv place) := by
  refine (analyze_local srv place.uri).bind fun tree => ?_
  split
  · exact .refuse _ _ _
  · refine (visit_local srv _).bind fun os => ?_
    split
    · exact .pure _
    · exact .refuse _ _ _

theorem matching_local (tree : τ) (o : Occurrence) : Local leaves (matching srv tree o) :=
  (visit_local srv tree).bind fun _ => .pure _

theorem hover_local (place : PlaceParams) : Local leaves (hover srv place) :=
  (resolve_local srv place).bind fun _ => (Local.orCrash _).bind fun _ => .pure _

/-- The new name is checked before the document is analysed. -/
theorem rename_local (p : RenameParams) : Local leaves (rename srv p) := by
  unfold rename
  split
  · exact (resolve_local srv p.place).bind fun _ => (matching_local srv _ _).bind fun _ =>
      (Local.orCrash _).bind fun _ => .pure _
  · exact .refuse _ _ _

theorem references_local (place : PlaceParams) : Local leaves (references srv place) :=
  (resolve_local srv place).bind fun _ => (matching_local srv _ _).bind fun _ =>
    (Local.orCrash _).bind fun _ => .pure _

theorem definition_local (place : PlaceParams) : Local leaves (definition srv place) := by
  refine (resolve_local srv place).bind fun _ => (matching_local srv _ _).bind fun os => ?_
  split
  · exact .crash _
  · exact (Local.orCrash _).bind fun _ => .pure _

theorem putDocument_local (uri t : Text) (version : Option Int) (languageId : Json) :
    Local leaves (putDocument uri t version languageId : Act σ τ Unit) := by
  refine .reads (fun s => ?_) fun _ => rfl
  split
  · exact .crash _
  · exact .modifySession fun _ => rfl

theorem analyzed_local (uri : Text) :
    Local leaves (do
      let _ ← analyze srv uri
      return Json.null) :=
  (analyze_local srv uri).bind fun _ => .pure _

/-- Changes look at the document that is open. -/
theorem didChange_local (p : ChangeParams) : Local leaves (didChange srv p) := by
  unfold didChange
  split
  · exact .refuse _ _ _
  · split
    · exact .pure _
    · exact (putDocument_local _ _ _ _).bind fun _ => analyzed_local srv p.uri

theorem didSave_local (p : SaveParams) : Local leaves (didSave srv p) := by
  unfold didSave
  split
  · exact (putDocument_local _ _ _ _).bind fun _ => analyzed_local srv p.uri
  · exact (Local.pure ()).bind fun _ => analyzed_local srv p.uri

theorem analyzeAll_local : ∀ uris : List Text, Local leaves (analyzeAll srv uris)
  | [] => .pure _
  | uri :: uris => (analyze_local srv uri).bind fun _ => analyzeAll_local uris

/-- The start reads the configuration, which is no part of the world. -/
theorem startSession_local (params : Option Json) : Local leaves (startSession srv params) := by
  refine .reads (fun s => ?_) fun _ => rfl
  split
  · exact .refuse _ _ _
  · refine (Local.orCrash _).bind fun root => .bind (.modifySession fun _ => rfl) fun _ => ?_
    refine (Local.orCrash _).bind fun layer => .bind (.modifySession fun _ => rfl) fun _ => ?_
    refine .bind (.modifySession fun _ => rfl) fun _ => .bind (.modifySession fun _ => rfl) fun _ => ?_
    exact .reads (fun _ => (Local.record _ _ _).bind fun _ => .pure _) fun _ => rfl

/-- The exit leaves the session if that is how it ends. -/
theorem exit_local : Local (srv.onExit = .leave) (exit srv) := by
  refine .bind (.modifySession fun _ => rfl) fun _ => .reads (fun s => ?_) fun _ => rfl
  cases hexit : srv.onExit with
  | leave => exact .leave rfl _
  | note =>
    refine Local.bind (x := modify _) ⟨fun w => ?_, fun w status h => ?_, fun v w h => ⟨rfl, ?_⟩⟩
      fun _ => .pure _
    · simp [World.after, World.bare]
    · cases h
    · obtain ⟨hsession, hsent, hlog, hexits⟩ := World.uncached_eq_iff.mp h
      exact World.uncached_eq_iff.mpr ⟨hsession, hsent, hlog, congrArg (· ++ _) hexits⟩

/-- **What a method does depends on the session alone,** and there not on what analyses keep.  Only one
method can end the process. -/
theorem call_local (m : Method) (params : Option Json) :
    Local (m = .exit ∧ srv.onExit = .leave) (call srv m params) := by
  cases m with
  | start => exact startSession_local srv params
  | initialized => exact .pure _
  | shutdown => exact .bind (.modifySession fun _ => rfl) fun _ => .pure _
  | exit => exact (exit_local srv).mono fun h => ⟨rfl, h⟩
  | didOpen =>
    exact (Local.withParams _ _ _).bind fun p => (putDocument_local _ _ _ _).bind fun _ =>
      analyzed_local srv p.uri
  | didChange => exact (Local.withParams _ _ _).bind fun p => didChange_local srv p
  | didClose =>
    exact (Local.withParams _ _ _).bind fun uri => .bind (.modifySession fun _ => rfl) fun _ =>
      (Local.send _).bind fun _ => .pure _
  | didSave => exact (Local.withParams _ _ _).bind fun p => didSave_local srv p
  | didChangeConfiguration =>
    exact (Local.withParams _ _ _).bind fun _ => .bind (.modifySession fun _ => rfl) fun _ =>
      .reads (fun _ => (analyzeAll_local srv _).bind fun _ => .pure _) fun _ => rfl
  | hover => exact (Local.withParams _ _ _).bind fun place => hover_local srv place
  | rename => exact (Local.withParams _ _ _).bind fun p => rename_local srv p
  | references => exact (Local.withParams _ _ _).bind fun place => references_local srv place
  | definition => exact (Local.withParams _ _ _).bind fun place => definition_local srv place
  | completion => exact (Local.withParams _ _ _).bind fun _ => .pure _
  | signatureHelp => exact (Local.withParams _ _ _).bind fun _ => .pure _

end

/-! ## 3. Messages -/

section
variable (srv : Server σ τ)

/-- A method is called if its message is let in. -/
theorem answer_local (e : Envelope) :
    Local (Method.ofText? e.method = some .exit ∧ srv.onExit = .leave) (answer srv e) := by
  refine .reads (fun s => ?_) fun _ => rfl
  dsimp only
  split
  · exact .refuse _ _ _
  · split
    · exact .refuse _ _ _
    · next m hm =>
      split
      · exact .refuse _ _ _
      · exact (call_local srv m e.params).mono fun h => ⟨hm.trans (congrArg some h.1), h.2⟩

theorem handleRequest_local (id : Json) (e : Envelope) : Local True (handleRequest srv id e) := by
  refine ((answer_local srv e).mono fun _ => trivial).attempt.bind fun r => ?_
  split
  · exact .send _
  · exact (Local.record _ _ _).bind fun _ => .send _
  · exact (Local.record _ _ _).bind fun _ => .send _
  · exact .leave trivial _

theorem handleNotification_local (e : Envelope) : Local True (handleNotification srv e) := by
  refine .reads (fun s => ?_) fun _ => rfl
  split
  · split <;> exact .record _ _ _
  · next m _ =>
    split
    · exact .record _ _ _
    · refine ((call_local srv m e.params).mono fun _ => trivial).attempt.bind fun r => ?_
      split
      · exact .pure _
      · exact .record _ _ _
      · exact .record _ _ _
      · exact .leave trivial _

/-- A body is decoded, and then handled as a request or as a notification. -/
theorem handlePayload_local (body : Bytes) : Local True (handlePayload srv body) := by
  unfold handlePayload
  split
  · refine (Local.record _ _ _).bind fun _ => ?_
    split
    · exact .send _
    · exact .pure _
  · split
    · exact handleRequest_local srv _ _
    · exact handleNotification_local srv _

/-- **How a body is handled depends on the session alone.** -/
theorem handle_local (w : World σ τ) (body : Bytes) :
    handle srv w body = ((handle srv w.bare body).1, w.after (handle srv w.bare body).2) := by
  have hrun := (handlePayload_local srv body).run w
  rw [handle, handle, hrun]
  rcases handlePayload srv body w.bare with ⟨_ | _, v⟩ <;> rfl

/-- **No body looks at what analyses keep.** -/
theorem handle_uncached {v w : World σ τ} (h : v.uncached = w.uncached) (body : Bytes) :
    (handle srv v body).1 = (handle srv w body).1 ∧
      (handle srv v body).2.uncached = (handle srv w body).2.uncached := by
  obtain ⟨hresult, hworld⟩ := (handlePayload_local srv body).blind v w h
  rw [handle, handle]
  generalize handlePayload srv body v = first, handlePayload srv body w = second at hresult hworld ⊢
  obtain ⟨r, v'⟩ := first
  obtain ⟨r', w'⟩ := second
  obtain rfl : r = r' := hresult
  cases r <;> exact ⟨rfl, hworld⟩

end

end LuaServer
