/-
# What ends a session

A body is handled to its end whatever is wrong with it: what fails inside becomes an error reply, a record
in the log, or both.  Two things come through.  The process ends when it is told to exit and may; and a
response that holds half of a pair cannot be written, and nothing stands between that and the caller.
Every half pair in a response comes from the body, so bodies without them never end a session.

Main result: `handle_outcome`.
-/
import LuaServer.Proofs.Effects
import LuaServer.Proofs.Replies

namespace LuaServer

variable {σ τ : Type}

/-! ## 1. How a body ends -/

/-- The response to a request whose method has ended in some way.  There is none if the process ends. -/
def responseTo (id : Json) : Except Failure Json → Option Json
  | .ok result => some (resultResponse id result)
  | .error (.refused e) => some (errorResponse id e)
  | .error (.crashed c) => some (errorResponse id c.toRpc)
  | .error (.exited _) => none

/-- The response that a body calls for. -/
def responseFor (srv : Server σ τ) (w : World σ τ) (body : Bytes) : Option Json :=
  match decode body with
  | .error e => e.id.map fun id => errorResponse id e.toRpc
  | .ok e => e.id.bind fun id => responseTo id (answer srv e w).1

/-- The response that a body calls for holds a surrogate, and the failure says which. -/
def Unwritable (srv : Server σ τ) (w : World σ τ) (body : Bytes) (f : Failure) : Prop :=
  ∃ m u, responseFor srv w body = some m ∧ encode m = .error u ∧ f = .crashed (.unencodable u)

/-- A body is an `exit` that the session obeys, and the process ends with the status of the failure. -/
def Leaves (srv : Server σ τ) (w : World σ τ) (body : Bytes) (f : Failure) : Prop :=
  ∃ e, decode body = .ok e ∧ Method.ofText? e.method = some .exit ∧ srv.onExit = .leave ∧
    (e.id = none ∨ w.session.initialized = true ∧ w.session.shutdownRequested = false) ∧
    f = .exited (if w.session.shutdownRequested then 0 else 1)

/-- Something is wrong with a body: it is no message, or its method fails. -/
def GoesWrong (srv : Server σ τ) (w : World σ τ) (body : Bytes) : Prop :=
  match decode body with
  | .error _ => True
  | .ok e =>
    match e.id with
    | some _ => ∃ f, (answer srv e w).1 = .error f
    | none => ∃ m f, Method.ofText? e.method = some m ∧ (call srv m e.params w).1 = .error f

section
variable (srv : Server σ τ) (e : Envelope) (w : World σ τ)

theorem attempt_run {α : Type} (x : Act σ τ α) : attempt x w = (.ok (x w).1, (x w).2) := rfl

/-- Where the process may end, `exit` ends it. -/
theorem call_exit (hleave : srv.onExit = .leave) (params : Option Json) :
    (call srv .exit params w).1
      = .error (.exited (if w.session.shutdownRequested then 0 else 1)) := by
  simp only [call, exit, bind_run, modifySession_run, session_run, andThen_ok, hleave, throw_run]

/-- A method that ends the process is `exit`. -/
theorem eq_exit_of_call {m : Method} {params : Option Json} {status : Nat}
    (h : (call srv m params w).1 = .error (.exited status)) :
    m = .exit ∧ srv.onExit = .leave ∧ status = if w.session.shutdownRequested then 0 else 1 := by
  obtain ⟨rfl, hleave⟩ := (call_local srv m params).exited w status h
  rw [call_exit srv w hleave] at h
  cases h
  exact ⟨rfl, hleave, rfl⟩

/-- A started session lets a request in, unless it shuts down. -/
theorem answer_started {m : Method} (hm : Method.ofText? e.method = some m)
    (hstarted : w.session.initialized = true) :
    answer srv e w = if w.session.shutdownRequested then
        (.error (.refused ⟨.invalidRequest, text "server is shutting down", .null⟩), w)
      else call srv m e.params w := by
  simp only [answer, bind_run, session_run, andThen_ok, hstarted, hm, Bool.not_true, Bool.false_and,
    Bool.false_eq_true, if_false]
  split <;> rfl

/-- A request ends the process if it is an `exit` that is let in. -/
theorem answer_exited_iff {status : Nat} : (answer srv e w).1 = .error (.exited status) ↔
    Method.ofText? e.method = some .exit ∧ srv.onExit = .leave ∧
      (w.session.initialized = true ∧ w.session.shutdownRequested = false) ∧
      status = if w.session.shutdownRequested then 0 else 1 := by
  constructor
  · intro h
    rcases answer_cases srv e w with ⟨code, message, hrun, -⟩ | ⟨m, hm, hearly, hrun⟩
    · rw [hrun] at h
      cases h
    · obtain ⟨rfl, hleave, hstatus⟩ := eq_exit_of_call srv w (hrun ▸ h)
      have hstarted : w.session.initialized = true := by
        by_contra hno
        cases hearly (by simpa using hno)
      refine ⟨hm, hleave, ⟨hstarted, ?_⟩, hstatus⟩
      by_contra hdown
      rw [answer_started srv e w hm hstarted, if_pos (by simpa using hdown)] at h
      cases h
  · rintro ⟨hm, hleave, ⟨hstarted, hup⟩, rfl⟩
    rw [answer_started srv e w hm hstarted, if_neg (by simp [hup])]
    exact call_exit srv w hleave e.params

/-- A notification ends the process if it is an `exit`. -/
theorem handleNotification_fails_iff {f : Failure} : (handleNotification srv e w).1 = .error f ↔
    Method.ofText? e.method = some .exit ∧ srv.onExit = .leave ∧
      f = .exited (if w.session.shutdownRequested then 0 else 1) := by
  constructor
  · intro h
    rcases handleNotification_cases srv e w with
      ⟨log, hrun⟩ | ⟨m, hm, -, ⟨status, v, hcall, hrun⟩ | ⟨log, hrun⟩⟩
    · rw [hrun] at h
      cases h
    · rw [hrun] at h
      cases h
      obtain ⟨rfl, hleave, rfl⟩ := eq_exit_of_call srv w (congrArg Prod.fst hcall)
      exact ⟨hm, hleave, rfl⟩
    · rw [hrun] at h
      cases h
  · rintro ⟨hm, hleave, rfl⟩
    have hcall := call_exit srv w hleave e.params
    simp [handleNotification, hm, attempt_run, hcall]

/-- A request ends with its response, after a record if its method fails. -/
theorem handleRequest_ends (id : Json) :
    (∃ status, (answer srv e w).1 = .error (.exited status) ∧
      handleRequest srv id e w = (.error (.exited status), (answer srv e w).2)) ∨
    ∃ m log, responseTo id (answer srv e w).1 = some m ∧
      (∀ f, (answer srv e w).1 = .error f → log ≠ []) ∧
      handleRequest srv id e w = send m { (answer srv e w).2 with log := log } := by
  rw [handleRequest, bind_run, attempt]
  rcases answer srv e w with ⟨(err | c | status) | result, v⟩
  · exact .inr ⟨_, _, rfl, fun _ _ => List.concat_ne_nil _ _, rfl⟩
  · exact .inr ⟨_, _, rfl, fun _ _ => List.concat_ne_nil _ _, rfl⟩
  · exact .inl ⟨status, rfl, rfl⟩
  · exact .inr ⟨_, v.log, rfl, by simp, rfl⟩

theorem send_fails_iff {m : Json} {f : Failure} :
    ((send m : Act σ τ Unit) w).1 = .error f ↔
      ∃ u, encode m = .error u ∧ f = .crashed (.unencodable u) := by
  cases hencode : encode m with
  | ok body => simp [send_run w hencode]
  | error u =>
    rw [send_run_error w hencode]
    simp [eq_comm]

/-- A request fails if its response cannot be written or the process ends. -/
theorem handleRequest_fails_iff {id : Json} {f : Failure} :
    (handleRequest srv id e w).1 = .error f ↔
      (∃ m u, responseTo id (answer srv e w).1 = some m ∧ encode m = .error u ∧
        f = .crashed (.unencodable u)) ∨
      ∃ status, (answer srv e w).1 = .error (.exited status) ∧ f = .exited status := by
  rcases handleRequest_ends srv e w id with ⟨status, hexited, hrun⟩ | ⟨m, log, hm, -, hrun⟩
  · simp [hrun, hexited, responseTo, eq_comm]
  · have hstay : ∀ status, (answer srv e w).1 ≠ .error (.exited status) := by
      intro status hexited
      rw [hexited] at hm
      cases hm
    simp [hrun, send_fails_iff, hm, hstay]

theorem handle_fails_iff {body : Bytes} {f : Failure} :
    (handle srv w body).1 = some f ↔ (handlePayload srv body w).1 = .error f := by
  rw [handle]
  rcases handlePayload srv body w with ⟨_ | _, v⟩ <;> simp

/-- **A body ends a session in two ways,** by a response that cannot be written and by an exit. -/
theorem handle_error_iff {body : Bytes} {f : Failure} :
    (handle srv w body).1 = some f ↔ Unwritable srv w body f ∨ Leaves srv w body f := by
  rw [handle_fails_iff, handlePayload]
  cases hdecode : decode body with
  | error e =>
    simp only [bind_run, record_run, andThen_ok, Unwritable, responseFor, Leaves, hdecode]
    cases e.id with
    | none => simp
    | some id => simp [send_fails_iff]
  | ok e =>
    simp only [Unwritable, responseFor, Leaves, hdecode]
    cases hid : e.id with
    | none => simp [hid, handleNotification_fails_iff]
    | some id => simp [hid, handleRequest_fails_iff, answer_exited_iff, and_assoc]

/-! ## 2. What a body leaves behind -/

/-- Writing a message, or failing to, leaves the log as it is. -/
theorem send_log (m : Json) : ((send m : Act σ τ Unit) w).2.log = w.log := by
  cases hencode : encode m with
  | ok body => rw [send_run w hencode]
  | error u => rw [send_run_error w hencode]

/-- The response that a body calls for is written, if it holds no surrogate, and nothing after it. -/
theorem handle_responds {body : Bytes} {m : Json} (hm : responseFor srv w body = some m)
    (hclean : m.Clean) : ∃ ns, (handle srv w body).2.sent = w.sent ++ ns ++ [m] := by
  rw [handle_snd, handlePayload]
  rw [responseFor] at hm
  cases hdecode : decode body with
  | error e =>
    simp only [hdecode] at hm
    obtain ⟨id, hid, rfl⟩ := Option.map_eq_some_iff.mp hm
    refine ⟨[], ?_⟩
    simp only [bind_run, record_run, andThen_ok, hid]
    rw [send_run_of_clean hclean, List.append_nil]
  | ok e =>
    simp only [hdecode] at hm
    obtain ⟨id, hid, hm⟩ := Option.bind_eq_some_iff.mp hm
    simp only [hid]
    rcases handleRequest_ends srv e w id with ⟨status, hexited, -⟩ | ⟨m', log, hm', -, hrun⟩
    · rw [hexited] at hm
      cases hm
    · obtain rfl := Option.some.inj (hm'.symm.trans hm)
      refine ⟨(answer srv e w.bare).2.sent, ?_⟩
      rw [hrun, send_run_of_clean hclean, (answer_local srv e).run w]
      rfl

/-- A notification that fails is noted, or ends the process. -/
theorem handleNotification_notes {m : Method} {f : Failure} (hm : Method.ofText? e.method = some m)
    (hf : (call srv m e.params w).1 = .error f) :
    (∃ g, (handleNotification srv e w).1 = .error g) ∨ (handleNotification srv e w).2.log ≠ [] := by
  simp only [handleNotification, bind_run, session_run, andThen_ok, hm]
  split
  · exact .inr (List.concat_ne_nil _ _)
  · rw [bind_run, attempt_run, hf, andThen_ok]
    cases f with
    | refused e => exact .inr (List.concat_ne_nil _ _)
    | crashed c => exact .inr (List.concat_ne_nil _ _)
    | exited status => exact .inl ⟨_, rfl⟩

/-- Whatever is wrong with a body is noted, unless the process ends. -/
theorem handle_notes {body : Bytes} (hwrong : GoesWrong srv w body) :
    (∃ f, Leaves srv w body f) ∨ (handle srv w body).2.log ≠ [] := by
  cases hdecode : decode body with
  | error e =>
    refine .inr ?_
    simp only [handle_snd, handlePayload, hdecode, bind_run, record_run, andThen_ok]
    cases e.id with
    | none => exact List.concat_ne_nil _ _
    | some id =>
      rw [send_log]
      exact List.concat_ne_nil _ _
  | ok e =>
    simp only [GoesWrong, hdecode] at hwrong
    cases hid : e.id with
    | none =>
      simp only [hid] at hwrong
      obtain ⟨m, f, hm, hf⟩ := hwrong
      rcases handleNotification_notes srv e w hm hf with ⟨g, hg⟩ | hlog
      · obtain ⟨hexit, hleave, rfl⟩ := (handleNotification_fails_iff srv e w).mp hg
        exact .inl ⟨_, e, hdecode, hexit, hleave, .inl hid, rfl⟩
      · refine .inr ?_
        simpa only [handle_snd, handlePayload, hdecode, hid] using hlog
    | some id =>
      simp only [hid] at hwrong
      obtain ⟨f, hf⟩ := hwrong
      rcases handleRequest_ends srv e w id with ⟨status, hexited, -⟩ | ⟨m, log, -, hlog, hrun⟩
      · obtain ⟨hexit, hleave, hadmitted, rfl⟩ := (answer_exited_iff srv e w).mp hexited
        exact .inl ⟨_, e, hdecode, hexit, hleave, .inr hadmitted, rfl⟩
      · refine .inr ?_
        simp only [handle_snd, handlePayload, hdecode, hid, hrun, send_log]
        exact hlog f hf

/-- What goes wrong is decided by the session. -/
theorem goesWrong_bare {body : Bytes} : GoesWrong srv w body ↔ GoesWrong srv w.bare body := by
  have hanswer : ∀ e, (answer srv e w).1 = (answer srv e w.bare).1 :=
    fun e => (answer_local srv e).result w
  have hcall : ∀ m params, (call srv m params w).1 = (call srv m params w.bare).1 :=
    fun m params => (call_local srv m params).result w
  simp only [GoesWrong, hanswer, hcall]

end

/-! ## 3. Bodies without half pairs -/

section
variable (read : ReadFile) (onExit : ExitPolicy)

theorem analyzeAll_onExit : ∀ uris : List Text,
    analyzeAll (luaServer read onExit) uris = analyzeAll (luaServer read .note) uris
  | [] => rfl
  | uri :: uris => congrArg (analyze (luaServer read .note) uri >>= fun _ => ·) (analyzeAll_onExit uris)

/-- What exiting means concerns only `exit`. -/
theorem call_onExit {m : Method} (hm : m ≠ .exit) (params : Option Json) :
    call (luaServer read onExit) m params = call (luaServer read .note) m params := by
  cases m with
  | exit => exact absurd rfl hm
  | didChangeConfiguration =>
    simp only [call, didChangeConfiguration, analyzeAll_onExit read onExit]
  | _ => rfl

/-- What is found for a request without half pairs can be told, unless the process ends. -/
theorem answer_tellable {e : Envelope} (h : e.Clean) (w : World Unit LuaTree) :
    match (answer (luaServer read onExit) e w).1 with
    | .ok result => result.Clean
    | .error f => f.Tellable ∨ ∃ status, f = .exited status := by
  rcases answer_cases (luaServer read onExit) e w with ⟨code, message, hrun, hmem⟩ | ⟨m, -, -, hrun⟩
  · rw [hrun]
    refine .inl ⟨?_, Json.clean_null⟩
    simp only [List.mem_cons, List.not_mem_nil, or_false] at hmem
    rcases hmem with rfl | rfl | rfl <;> simp [h.method]
  · rw [hrun]
    by_cases hexit : m = .exit ∧ onExit = .leave
    · obtain ⟨rfl, rfl⟩ := hexit
      rw [call_exit _ w rfl]
      exact .inr ⟨_, rfl⟩
    · have hcall : call (luaServer read onExit) m e.params = call (luaServer read .note) m e.params := by
        cases onExit with
        | note => rfl
        | leave => exact call_onExit read .leave (fun hm => hexit ⟨hm, rfl⟩) e.params
      have hnotifies := call_notifies read h m
      rw [hcall]
      split
      · next result hresult => exact hnotifies.result w result hresult
      · next f hf => exact .inl (hnotifies.failure w f hf)

/-- The response that a body without half pairs calls for holds none. -/
theorem responseFor_clean {body : Bytes} (h : CleanBody body) (w : World Unit LuaTree) {m : Json}
    (hm : responseFor (luaServer read onExit) w body = some m) : m.Clean := by
  rw [responseFor] at hm
  cases hdecode : decode body with
  | error e =>
    simp only [hdecode] at hm
    obtain ⟨id, hid, rfl⟩ := Option.map_eq_some_iff.mp hm
    exact clean_errorResponse (h.recovered hdecode id hid) (clean_cause e.cause) Json.clean_null
  | ok e =>
    simp only [hdecode] at hm
    obtain ⟨id, hid, hm⟩ := Option.bind_eq_some_iff.mp hm
    have henvelope := h.envelope hdecode
    have hid := henvelope.id id hid
    have htell := answer_tellable read onExit henvelope w
    rcases hrun : (answer (luaServer read onExit) e w).1 with (err | c | status) | result
    all_goals
      rw [hrun] at htell hm
      cases hm
    · obtain ⟨hmessage, hdata⟩ := htell.resolve_right (by simp)
      exact clean_errorResponse hid hmessage hdata
    · have hmessage : Clean c.message := htell.resolve_right (by simp)
      exact clean_errorResponse hid (by simpa [Crash.toRpc] using hmessage) Json.clean_null
    · have hresult : result.Clean := htell
      simp [resultResponse, hid, hresult]

/-- A body without half pairs calls for a response that can be written. -/
theorem not_unwritable {body : Bytes} (h : CleanBody body) (w : World Unit LuaTree) (f : Failure) :
    ¬Unwritable (luaServer read onExit) w body f := by
  rintro ⟨m, u, hm, hu, -⟩
  exact encode_fails_iff.mp ⟨u, hu⟩ (responseFor_clean read onExit h w hm)

/-- **Bodies without half pairs are all handled,** where an exit is only noted. -/
theorem handleAll_survives : ∀ {bodies : List Bytes}, (∀ body ∈ bodies, CleanBody body) →
    ∀ w : World Unit LuaTree, (handleAll (luaServer read .note) w bodies).1 = none
  | [], _, _ => rfl
  | body :: bodies, h, w => by
    rw [handleAll]
    rcases hrun : handle (luaServer read .note) w body with ⟨_ | f, v⟩
    · exact handleAll_survives (fun b hb => h b (List.mem_cons_of_mem body hb)) v
    · rcases (handle_error_iff _ w).mp (congrArg Prod.fst hrun) with hno | ⟨e, -, -, hleave, -⟩
      · exact absurd hno (not_unwritable read .note (h body List.mem_cons_self) w f)
      · cases hleave

/-- **How a body ends.**  Whatever the session is and whatever the body, two things come through: a
response that holds half of a pair, and the end of the process, if the body is an `exit` and exiting ends
it.  Short of that:

* the response that the body calls for is written, after what its method wrote;
* what goes wrong is noted in the log;
* after bodies without half pairs the session goes on, however many there are. -/
theorem handle_outcome (w : World Unit LuaTree) (body : Bytes) :
    (∀ f, (handle (luaServer read onExit) w body).1 = some f ↔
      Unwritable (luaServer read onExit) w body f ∨ Leaves (luaServer read onExit) w body f) ∧
    (∀ m, responseFor (luaServer read onExit) w body = some m →
      (m.Clean ∧ ∃ ns, (handle (luaServer read onExit) w body).2.sent = w.sent ++ ns ++ [m]) ∨
      (¬m.Clean ∧ ¬CleanBody body ∧ ∃ f, Unwritable (luaServer read onExit) w body f)) ∧
    (GoesWrong (luaServer read onExit) w body →
      (∃ f, Leaves (luaServer read onExit) w body f) ∨
      ∃ records, records ≠ [] ∧ (handle (luaServer read onExit) w body).2.log = w.log ++ records) ∧
    ∀ bodies, (∀ b ∈ bodies, CleanBody b) → (handleAll (luaServer read .note) w bodies).1 = none := by
  refine ⟨fun f => handle_error_iff _ w, fun m hm => ?_, fun hwrong => ?_,
    fun bodies hclean => handleAll_survives read hclean w⟩
  · by_cases hclean : m.Clean
    · exact .inl ⟨hclean, handle_responds _ w hm hclean⟩
    · obtain ⟨u, hu⟩ := encode_fails_iff.mpr hclean
      exact .inr ⟨hclean, fun hbody => hclean (responseFor_clean read onExit hbody w hm),
        _, m, u, hm, hu, rfl⟩
  · rcases handle_notes _ w.bare ((goesWrong_bare _ w).mp hwrong) with hleaves | hlog
    · exact .inl hleaves
    · refine .inr ⟨_, hlog, ?_⟩
      rw [handle_local]
      rfl

end

/-- A request whose id is half of a pair. -/
def halfPairBody : Bytes :=
  asciiBytes (text "\x7b\"jsonrpc\":\"2.0\",\"id\":\"\\ud800\",\"method\":\"m\"\x7d")

/-- The request is refused, as the session has not started, but the refusal cannot be written: the failure
comes through, and the request after it, which would be answered alone, is not handled. -/
theorem handle_halfPairBody :
    let srv := luaServer (fun _ => none) .note
    let w : World Unit LuaTree := (Connection.fresh ()).world
    (handle srv w halfPairBody).1 ≠ none ∧
      (handleAll srv w [halfPairBody, requestBody 1 .start []]).2.sent.length = 0 ∧
      (handleAll srv w [requestBody 1 .start []]).2.sent.length = 1 := by
  intro srv w
  have hcomes : (handle srv w halfPairBody).1.isSome = true ∧
      (handle srv w halfPairBody).2.sent.length = 0 := by decide +kernel
  rw [handleAll]
  rcases hfirst : handle srv w halfPairBody with ⟨_ | f, v⟩
  · rw [hfirst] at hcomes
    cases hcomes.1
  · rw [hfirst] at hcomes
    exact ⟨nofun, hcomes.2, by decide +kernel⟩

end LuaServer
