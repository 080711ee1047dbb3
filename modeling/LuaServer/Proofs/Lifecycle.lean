/-
# The life of a session

A session is started once, by a request that comes to its end.  Until then it stays as it was made, but
for its root and for whether it is running, and it refuses every other request.  A shutdown is final, an
exit is noted with the status that tells whether there was one, and a session that has stopped running
never runs again.

None of this depends on the front end, so the flags are followed on outlines: one equation says what a
body does to each of them (`handle_flags`), and the rest is induction over the bodies.

Main result: `handled_lifecycle`.
-/
import LuaServer.Proofs.Outline
import LuaServer.Proofs.Survival

namespace LuaServer

variable {σ τ : Type}

/-! ## 1. What a run is asked for -/

/-- A body has a method carried out to its end. -/
def CarriesOut (srv : Server σ τ) (w : World σ τ) (m : Method) (body : Bytes) : Prop :=
  ∃ e result, admitted? body w.session.initialized w.session.shutdownRequested = some (e, m) ∧
    (call srv m e.params w).1 = .ok result

/-- One of the bodies of a run has a method carried out to its end. -/
def HasCarriedOut (srv : Server σ τ) (w : World σ τ) (m : Method) : List Bytes → Prop
  | [] => False
  | body :: bodies => CarriesOut srv w m body ∨ HasCarriedOut srv (handle srv w body).2 m bodies

/-- A body is a request, with its method and id. -/
def IsRequest (body : Bytes) (e : Envelope) (id : Json) : Prop := decode body = .ok e ∧ e.id = some id

/-- What is true of a session between two bodies: until it is started it is as it was made, but for its
root and for whether it is running; and a shutdown comes after the start and stops it. -/
structure Orderly (memory : σ) (s : Session σ τ) : Prop where
  early : s.initialized = false → s = { memory := memory, root := s.root, running := s.running }
  stopping : s.shutdownRequested = true → s.initialized = true ∧ s.running = false

/-- One session comes after another: what has happened to the one has happened to the other. -/
structure Later (s s' : Session σ τ) : Prop where
  initialized : s.initialized = true → s'.initialized = true
  shutdownRequested : s.shutdownRequested = true → s'.shutdownRequested = true
  running : s.running = false → s'.running = false

/-- How a body changes the flags of a session and the exits that are noted, and what it is answered before
the start. -/
structure Advances (srv : Server σ τ) (w : World σ τ) (stopped : Prop) (body : Bytes) : Prop where
  /-- A session is started by a request for it that comes to its end, and in no other way. -/
  starts : w.session.initialized = false → ((handle srv w body).2.session.initialized = true ↔
    CarriesOut srv w .start body ∧ ∃ e id, IsRequest body e id)
  stops : w.session.shutdownRequested = false →
    ((handle srv w body).2.session.shutdownRequested = true ↔ CarriesOut srv w .shutdown body)
  /-- Before the start every other request is refused. -/
  refuses : ∀ e id, IsRequest body e id → e.method ≠ text Method.start.name →
    w.session.initialized = false → CleanBody body →
    (handle srv w body).2.session = w.session ∧ ∃ err : RpcError, err.code.number = -32002 ∧
      (handle srv w body).2.sent = w.sent ++ [errorResponse id err]
  /-- An exit is noted with a status that tells whether there was a shutdown before. -/
  exits : CarriesOut srv w .exit body → ∃ status, (handle srv w body).2.exits = w.exits ++ [status] ∧
    (stopped → status = 0) ∧ (¬stopped → status = 1)
  stays : ¬CarriesOut srv w .exit body → (handle srv w body).2.exits = w.exits

/-! ## 2. One body -/

section
variable (srv : Server σ τ) {w : World σ τ} {body : Bytes}

/-- A body that is not let in changes nothing. -/
theorem handle_barred
    (h : admitted? body w.session.initialized w.session.shutdownRequested = none) :
    (handle srv w body).2.session = w.session ∧ (handle srv w body).2.exits = w.exits := by
  have hcarried := handle_carried srv w body
  rwa [carried_eq, h] at hcarried

/-- What a body that is let in does to the flags and the exits. -/
theorem handle_flags {e : Envelope} {m : Method}
    (h : admitted? body w.session.initialized w.session.shutdownRequested = some (e, m)) :
    (handle srv w body).2.session.initialized
        = (w.session.initialized || (m = .start && startCompletes srv.read e.params)) ∧
      (handle srv w body).2.session.shutdownRequested = (w.session.shutdownRequested || m = .shutdown) ∧
      (handle srv w body).2.session.running = (w.session.running && m ≠ .shutdown && m ≠ .exit) ∧
      (handle srv w body).2.exits
        = if m = .exit then (w.outline.exit srv.onExit).exits else w.exits := by
  have houtline := handle_outline srv w body
  obtain ⟨ds, settings, root, hflags⟩ := w.outline.call_flags srv.read srv.onExit m e
  rw [Outline.handle] at houtline
  change _ = (admitted? body w.session.initialized w.session.shutdownRequested).elim _ _ at houtline
  rw [h, Option.elim_some] at houtline
  dsimp only at houtline
  rw [hflags] at houtline
  exact ⟨congrArg Outline.initialized houtline, congrArg Outline.shutdownRequested houtline,
    congrArg Outline.running houtline, congrArg Outline.exits houtline⟩

theorem handle_later (w : World σ τ) (body : Bytes) : Later w.session (handle srv w body).2.session := by
  cases h : admitted? body w.session.initialized w.session.shutdownRequested with
  | none =>
    rw [(handle_barred srv h).1]
    exact ⟨id, id, id⟩
  | some found =>
    obtain ⟨hinitialized, hdown, hrunning, -⟩ := handle_flags srv h
    constructor
    · intro hw
      rw [hinitialized, hw, Bool.true_or]
    · intro hw
      rw [hdown, hw, Bool.true_or]
    · intro hw
      rw [hrunning, hw, Bool.false_and, Bool.false_and]

/-- A start that does not come to its end sets the root at most. -/
theorem startSession_early (params : Option Json) (hno : w.session.initialized = false) :
    (startCompletes srv.read params = false → (∃ c, (startSession srv params w).1 = .error c) ∧
      ∃ root, (startSession srv params w).2.session = { w.session with root := root }) ∧
    (startCompletes srv.read params = true → (startSession srv params w).1 = .ok startResult) := by
  rw [startSession, bind_run, session_run, andThen_ok, hno, if_neg Bool.false_ne_true, startCompletes]
  dsimp only
  rw [bind_run]
  cases rootOf ((params.bind Json.members?).getD []) with
  | error c => exact ⟨fun _ => ⟨⟨_, rfl⟩, w.session.root, rfl⟩, fun h => absurd h Bool.false_ne_true⟩
  | ok root =>
    rw [orCrash_ok_run, andThen_ok, bind_run, modifySession_run, andThen_ok, bind_run]
    dsimp only
    cases projectLayer srv.read root with
    | error c => exact ⟨fun _ => ⟨⟨_, rfl⟩, root, rfl⟩, fun h => absurd h Bool.false_ne_true⟩
    | ok layer => exact ⟨fun h => absurd h.symm Bool.false_ne_true, fun _ => rfl⟩

/-- Before the start a session takes notice of its start and its exit only. -/
theorem handle_early {memory : σ} (hw : Orderly memory w.session)
    (hno : (handle srv w body).2.session.initialized = false) :
    ∃ root running, (handle srv w body).2.session = { memory := memory, root, running } := by
  have hearly : w.session.initialized = false := by
    by_contra hstarted
    rw [(handle_later srv w body).initialized (by simpa using hstarted)] at hno
    cases hno
  have hmade := hw.early hearly
  cases h : admitted? body w.session.initialized w.session.shutdownRequested with
  | none =>
    rw [(handle_barred srv h).1]
    exact ⟨_, _, hmade⟩
  | some found =>
    obtain ⟨e, m⟩ := found
    have hsession := (handle_carried srv w body).1
    rw [carried_eq, h, Option.elim_some] at hsession
    rw [(handle_flags srv h).1, hearly, Bool.false_or] at hno
    rcases Envelope.admitted?_early (hearly ▸ (admitted?_eq_some.mp h).2) with rfl | rfl
    · obtain ⟨-, root, hroot⟩ := (startSession_early srv e.params hearly).1 (by simpa using hno)
      exact ⟨root, w.session.running, by rw [hsession]; dsimp only [call]; rw [hroot, hmade]⟩
    · refine ⟨w.session.root, false, ?_⟩
      rw [hsession]
      dsimp only [call]
      rw [exit, bind_run, modifySession_run, andThen_ok, bind_run, session_run, andThen_ok]
      cases srv.onExit <;> (dsimp only; rw [hmade]; rfl)

theorem handle_orderly {memory : σ} (body : Bytes) (hw : Orderly memory w.session) :
    Orderly memory (handle srv w body).2.session := by
  constructor
  · intro hno
    obtain ⟨root, running, h⟩ := handle_early srv hw hno
    rw [h]
  · intro hdown
    have hlater := handle_later srv w body
    by_cases hbefore : w.session.shutdownRequested = true
    · exact (hw.stopping hbefore).imp hlater.initialized hlater.running
    · rw [Bool.not_eq_true] at hbefore
      cases h : admitted? body w.session.initialized w.session.shutdownRequested with
      | none =>
        rw [(handle_barred srv h).1, hbefore] at hdown
        cases hdown
      | some found =>
        obtain ⟨e, m⟩ := found
        obtain ⟨-, hshutdown, hrunning, -⟩ := handle_flags srv h
        rw [hshutdown, hbefore, Bool.false_or, decide_eq_true_eq] at hdown
        subst hdown
        -- a shutdown that is let in finds the session started
        have hstarted : w.session.initialized = true := by
          by_contra hno
          rw [Bool.not_eq_true] at hno
          rcases Envelope.admitted?_early (hno ▸ (admitted?_eq_some.mp h).2) with hm | hm <;> cases hm
        exact ⟨hlater.initialized hstarted, by simp [hrunning]⟩

/-- A request other than the start is refused before the start. -/
theorem handle_refuses {e : Envelope} {id : Json} (he : IsRequest body e id)
    (hmethod : e.method ≠ text Method.start.name) (hno : w.session.initialized = false)
    (hclean : CleanBody body) :
    (handle srv w body).2.session = w.session ∧ ∃ err : RpcError, err.code.number = -32002 ∧
      (handle srv w body).2.sent = w.sent ++ [errorResponse id err] := by
  obtain ⟨hdecode, hid⟩ := he
  have hother : Method.ofText? e.method ≠ some .start := by
    intro h
    have hname := List.find?_some h
    exact hmethod (of_decide_eq_true hname).symm
  have hanswer : answer srv e w = (.error (.refused
      ⟨.serverNotInitialized, text "server not initialized", .null⟩), w) := by
    simp [answer, hno, hother]
  have hreply : (errorResponse id
      ⟨.serverNotInitialized, text "server not initialized", .null⟩).Clean :=
    clean_errorResponse ((hclean.envelope hdecode).id id hid) (by decide) Json.clean_null
  simp only [handle_snd, handlePayload, hdecode, hid, handleRequest, bind_run, attempt_run, hanswer,
    andThen_ok, record_run]
  rw [send_run_of_clean hreply]
  exact ⟨rfl, _, rfl, rfl⟩

/-- A body that is not let in has nothing carried out. -/
theorem not_carriesOut (m : Method)
    (h : admitted? body w.session.initialized w.session.shutdownRequested = none) :
    ¬CarriesOut srv w m body := by
  rintro ⟨e, result, h', -⟩
  rw [h] at h'
  cases h'

/-- A body that is let in has its own method carried out, if that comes to its end. -/
theorem carriesOut_iff {e : Envelope} {m m' : Method}
    (h : admitted? body w.session.initialized w.session.shutdownRequested = some (e, m)) :
    CarriesOut srv w m' body ↔ m = m' ∧ ∃ result, (call srv m e.params w).1 = .ok result := by
  constructor
  · rintro ⟨e', result, h', hresult⟩
    rw [h] at h'
    cases h'
    exact ⟨rfl, result, hresult⟩
  · rintro ⟨rfl, result, hresult⟩
    exact ⟨e, result, h, hresult⟩

/-- An exit that is noted comes to its end. -/
theorem exit_noted (hnote : srv.onExit = .note) (params : Option Json) :
    (call srv .exit params w).1 = .ok .null := by
  dsimp only [call]
  rw [exit, bind_run, modifySession_run, andThen_ok, bind_run, session_run, andThen_ok, hnote]
  rfl

/-- A session remembers its shutdown, and nothing else counts as one. -/
theorem handle_shutdownRequested (w : World σ τ) (body : Bytes) :
    (handle srv w body).2.session.shutdownRequested = true ↔
      w.session.shutdownRequested = true ∨ CarriesOut srv w .shutdown body := by
  cases h : admitted? body w.session.initialized w.session.shutdownRequested with
  | none =>
    rw [(handle_barred srv h).1]
    exact (or_iff_left (not_carriesOut srv .shutdown h)).symm
  | some found =>
    rw [(handle_flags srv h).2.1, carriesOut_iff srv h, Bool.or_eq_true, decide_eq_true_eq]
    refine or_congr_right ⟨fun hm => ⟨hm, .null, ?_⟩, And.left⟩
    rw [hm]
    rfl

/-- A session is started by a request for it that comes to its end. -/
theorem handle_initialized (hno : w.session.initialized = false) :
    (handle srv w body).2.session.initialized = true ↔
      CarriesOut srv w .start body ∧ ∃ e id, IsRequest body e id := by
  cases h : admitted? body w.session.initialized w.session.shutdownRequested with
  | none =>
    rw [(handle_barred srv h).1, hno]
    exact iff_of_false Bool.false_ne_true fun hstarts => not_carriesOut srv .start h hstarts.1
  | some found =>
    obtain ⟨e, m⟩ := found
    obtain ⟨hdecode, hadmitted⟩ := admitted?_eq_some.mp h
    rw [(handle_flags srv h).1, hno, Bool.false_or, Bool.and_eq_true, decide_eq_true_eq,
      carriesOut_iff srv h]
    constructor
    · rintro ⟨rfl, hcompletes⟩
      refine ⟨⟨rfl, startResult, (startSession_early srv e.params hno).2 hcompletes⟩, ?_⟩
      rcases (Envelope.admitted?_eq_some.mp hadmitted).2 with ⟨id, hid, -⟩ | ⟨-, hearly⟩
      · exact ⟨e, id, hdecode, hid⟩
      · simp [hno] at hearly
    · rintro ⟨⟨rfl, result, hresult⟩, -⟩
      refine ⟨rfl, ?_⟩
      by_contra hfails
      obtain ⟨c, hc⟩ := ((startSession_early srv e.params hno).1 (by simpa using hfails)).1
      rw [show call srv .start e.params w = startSession srv e.params w from rfl, hc] at hresult
      cases hresult

/-- An exit is noted with its status, and no other body notes one. -/
theorem handle_exits (hnote : srv.onExit = .note) :
    (CarriesOut srv w .exit body → (handle srv w body).2.exits
        = w.exits ++ [if w.session.shutdownRequested then 0 else 1]) ∧
      (¬CarriesOut srv w .exit body → (handle srv w body).2.exits = w.exits) := by
  cases h : admitted? body w.session.initialized w.session.shutdownRequested with
  | none =>
    exact ⟨fun hexit => absurd hexit (not_carriesOut srv .exit h), fun _ => (handle_barred srv h).2⟩
  | some found =>
    obtain ⟨e, m⟩ := found
    rw [(handle_flags srv h).2.2.2, carriesOut_iff srv h, hnote]
    constructor
    · rintro ⟨rfl, -⟩
      rfl
    · intro hno
      refine if_neg fun hm => hno ⟨hm, .null, ?_⟩
      rw [hm, exit_noted srv hnote]

end

/-! ## 3. Runs -/

section
variable (srv : Server σ τ)

theorem Later.trans {s t u : Session σ τ} (h : Later s t) (h' : Later t u) : Later s u :=
  ⟨h'.initialized ∘ h.initialized, h'.shutdownRequested ∘ h.shutdownRequested, h'.running ∘ h.running⟩

theorem handled_later (w : World σ τ) (bodies : List Bytes) :
    Later w.session (handled srv w bodies).session :=
  handled_keeps (I := fun v => Later w.session v.session)
    (fun v body h => h.trans (handle_later srv v body)) bodies ⟨id, id, id⟩

theorem handled_orderly {memory : σ} {w : World σ τ} (hw : Orderly memory w.session)
    (bodies : List Bytes) : Orderly memory (handled srv w bodies).session :=
  handled_keeps (I := fun v => Orderly memory v.session) (fun _ body h => handle_orderly srv body h)
    bodies hw

/-- A session remembers whether a shutdown was carried out. -/
theorem handled_shutdownRequested : ∀ (bodies : List Bytes) (w : World σ τ),
    (handled srv w bodies).session.shutdownRequested = true ↔
      w.session.shutdownRequested = true ∨ HasCarriedOut srv w .shutdown bodies
  | [], w => (or_iff_left id).symm
  | body :: bodies, w => by
    have ih := handled_shutdownRequested bodies (handle srv w body).2
    rw [handle_shutdownRequested srv w body, or_assoc] at ih
    exact ih

/-- **The life of a session.**  Whatever bodies a fresh session has handled, it is orderly, what has
happened stays so whatever follows, and the next body advances it as it should: it is started by the
request for that alone and stopped by a shutdown alone, until the start it refuses every other request,
and an exit is noted with the status 0 if a shutdown was carried out before it, and 1 otherwise. -/
theorem handled_lifecycle (hnote : srv.onExit = .note) (memory : σ) (bodies : List Bytes) :
    let fresh : World σ τ := (Connection.fresh memory).world
    let w := handled srv fresh bodies
    Orderly memory w.session ∧
      (∀ more, Later w.session (handled srv w more).session) ∧
      ∀ body, Advances srv w (HasCarriedOut srv fresh .shutdown bodies) body := by
  intro fresh w
  have hfresh : Orderly memory fresh.session := ⟨fun _ => rfl, fun h => absurd h Bool.false_ne_true⟩
  refine ⟨handled_orderly srv hfresh bodies, handled_later srv w, fun body => ?_⟩
  have hdown : w.session.shutdownRequested = true ↔ HasCarriedOut srv fresh .shutdown bodies :=
    (handled_shutdownRequested srv bodies fresh).trans (or_iff_right Bool.false_ne_true)
  constructor
  case starts => exact handle_initialized srv
  case stops =>
    intro hno
    rw [handle_shutdownRequested srv w body, hno]
    exact or_iff_right Bool.false_ne_true
  case refuses => exact fun e id he hmethod hno hclean => handle_refuses srv he hmethod hno hclean
  case exits =>
    intro hexit
    refine ⟨_, (handle_exits srv hnote).1 hexit, fun hstopped => ?_, fun hno => ?_⟩
    · rw [if_pos (hdown.mpr hstopped)]
    · rw [if_neg (mt hdown.mp hno)]
  case stays => exact (handle_exits srv hnote).2

end

/-- A shutdown after a start that comes to its end is carried out. -/
theorem hasCarriedOut_shutdown (srv : Server σ τ) (memory : σ) (bodies : List Bytes)
    (hcompletes : startCompletes srv.read (some (Json.object [])) = true) :
    HasCarriedOut srv (Connection.fresh memory).world .shutdown
      (requestBody 1 .start [] :: requestBody 2 .shutdown [] :: bodies) := by
  have hstart : admitted? (requestBody 1 .start []) false false = some (⟨_, _, _⟩, .start) :=
    admitted?_requestBody .start false false (by decide) (by decide)
  have hshutdown : admitted? (requestBody 2 .shutdown []) true false = some (⟨_, _, _⟩, .shutdown) :=
    admitted?_requestBody .shutdown true false (by decide) (by decide)
  obtain ⟨hstarted, hdown, -⟩ := handle_flags srv (w := (Connection.fresh memory).world) hstart
  rw [hcompletes] at hstarted
  exact .inr (.inl ⟨_, .null, by rw [hstarted, hdown]; exact hshutdown, rfl⟩)

/-- A session that is started, shut down and told to exit notes a success.  One that is told to exit at
once notes a failure, and a question before the start is refused. -/
theorem handled_lifecycle_ended :
    let srv := luaServer (fun _ => none) .note
    let fresh : World Unit LuaTree := (Connection.fresh ()).world
    let ended := handled srv fresh [requestBody 1 .start [], requestBody 2 .shutdown []]
    let exitBody := notificationBody .exit []
    let question := requestBody 3 .hover []
    ended.session.initialized = true ∧ ended.session.running = false ∧
      (handle srv ended exitBody).2.exits = ended.exits ++ [0] ∧
      (handle srv fresh exitBody).2.exits = [1] ∧
      ∃ id, ∃ err : RpcError, err.code.number = -32002 ∧
        (handle srv fresh question).2.sent = [errorResponse id err] := by
  intro srv fresh ended exitBody question
  have hrun : ended = handled srv fresh [requestBody 1 .start [], requestBody 2 .shutdown []] := rfl
  have hstopped := hasCarriedOut_shutdown srv () [] (by decide +kernel)
  have hdown := (handled_shutdownRequested srv _ fresh).mpr (.inr hstopped)
  have hexit : ∀ w : World Unit LuaTree, CarriesOut srv w .exit exitBody := by
    intro w
    have hadmitted := admitted?_notificationBody .exit w.session.initialized w.session.shutdownRequested
      (by decide : (Json.object []).Plain)
    rw [if_pos (by simp)] at hadmitted
    exact ⟨_, .null, hadmitted, exit_noted srv rfl _⟩
  obtain ⟨horderly, -, hnext⟩ := handled_lifecycle srv rfl ()
    [requestBody 1 .start [], requestBody 2 .shutdown []]
  obtain ⟨-, -, hfirst⟩ := handled_lifecycle srv rfl () []
  rw [hrun]
  refine ⟨(horderly.stopping hdown).1, (horderly.stopping hdown).2, ?_, ?_, ?_⟩
  · obtain ⟨status, hexits, hzero, -⟩ := (hnext exitBody).exits (hexit _)
    rw [hexits, hzero hstopped]
  · obtain ⟨status, hexits, -, hone⟩ := (hfirst exitBody).exits (hexit _)
    rw [hone id] at hexits
    exact hexits
  · have hplain : (Json.object []).Plain := by decide
    have hother : text Method.hover.name ≠ text Method.start.name := by simp [text_inj, Method.name]
    exact ⟨.nat 3, ((hfirst question).refuses _ (.nat 3)
      ⟨decode_requestBody .hover (by decide) hplain, rfl⟩ hother rfl
      (cleanBody_requestBody .hover (by decide) hplain)).2⟩

end LuaServer
