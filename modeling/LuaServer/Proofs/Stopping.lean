/-
# Requests after a shutdown

A shutdown is final (`handled_shutdownRequested`), and a session that was shut down has been started
before (`Orderly.stopping`).  So what decides about a request from then on is its method alone: one that
the server knows is an invalid request, and one that it does not know is told so, as the table of methods
is looked at first.  Neither reaches a method, and neither changes the session, whatever notifications are
handled in between.

Main result: `handled_stopped`.
-/
import LuaServer.Proofs.Lifecycle

namespace LuaServer

variable {σ τ : Type}

/-- The error that a session that shuts down answers a request for a method with. -/
def stoppedError (method : Text) : RpcError :=
  match Method.ofText? method with
  | some _ => ⟨.invalidRequest, text "server is shutting down", .null⟩
  | none => ⟨.methodNotFound, text "unknown method: " ++ method, .null⟩

/-- The record that is made of a request that is refused. -/
def refusalRecord (method : Text) (err : RpcError) : LogRecord :=
  ⟨.info, text "request " ++ method ++ text " failed: " ++ err.message, none⟩

/-- A request is refused with an error, and that is all that happens. -/
structure Declined (srv : Server σ τ) (w : World σ τ) (body : Bytes) (method : Text) (id : Json)
    (err : RpcError) : Prop where
  /-- No method is carried out. -/
  barred : admitted? body w.session.initialized w.session.shutdownRequested = none
  /-- The front end, the files and the way out are not asked: any other server does the same. -/
  alike : ∀ other : Server σ τ, handle other w body = handle srv w body
  session : (handle srv w body).2.session = w.session
  exits : (handle srv w body).2.exits = w.exits
  log : (handle srv w body).2.log = w.log ++ [refusalRecord method err]
  /-- The error is the answer, if it can be written. -/
  answered : (errorResponse id err).Clean →
    (handle srv w body).1 = none ∧ (handle srv w body).2.sent = w.sent ++ [errorResponse id err]

/-! ## 1. One request -/

theorem stoppedError_code (method : Text) : (stoppedError method).code.number =
    if (Method.ofText? method).isSome then -32600 else -32601 := by
  unfold stoppedError
  cases Method.ofText? method <;> rfl

theorem clean_stoppedError {e : Envelope} {id : Json} (he : e.Clean) (hid : e.id = some id) :
    (errorResponse id (stoppedError e.method)).Clean := by
  have hmessage : Clean (stoppedError e.method).message := by
    unfold stoppedError
    cases Method.ofText? e.method with
    | some m => exact clean_text "server is shutting down"
    | none => exact clean_append.mpr ⟨by decide, he.method⟩
  have hdata : (stoppedError e.method).data.Clean := by
    unfold stoppedError
    cases Method.ofText? e.method <;> exact Json.clean_null
  exact clean_errorResponse (he.id id hid) hmessage hdata

section
variable (srv : Server σ τ) {w : World σ τ}

/-- A started session that shuts down carries no request out. -/
theorem answer_stopped (e : Envelope) (hstarted : w.session.initialized = true)
    (hdown : w.session.shutdownRequested = true) :
    answer srv e w = (.error (.refused (stoppedError e.method)), w) := by
  unfold stoppedError
  cases hm : Method.ofText? e.method with
  | some m => rw [answer_started srv e w hm hstarted, if_pos hdown]
  | none => simp [answer, hm, hstarted]

/-- To handle a request is then to note the refusal and to send it. -/
theorem handlePayload_stopped {body : Bytes} {e : Envelope} {id : Json} (he : IsRequest body e id)
    (hstarted : w.session.initialized = true) (hdown : w.session.shutdownRequested = true) :
    handlePayload srv body w = send (errorResponse id (stoppedError e.method))
      { w with log := w.log ++ [refusalRecord e.method (stoppedError e.method)] } := by
  rw [handlePayload, he.1]
  dsimp only
  rw [he.2]
  dsimp only
  rw [handleRequest, bind_run, attempt_run, answer_stopped srv e hstarted hdown, andThen_ok]
  rfl

/-- A request to a session that shuts down is let in to no method. -/
theorem IsRequest.not_admitted {body : Bytes} {e : Envelope} {id : Json} (he : IsRequest body e id)
    (started : Bool) : admitted? body started true = none := by
  cases h : admitted? body started true with
  | none => rfl
  | some found =>
    obtain ⟨hdecode, hadmitted⟩ := admitted?_eq_some.mp h
    cases he.1.symm.trans hdecode
    rcases (Envelope.admitted?_eq_some.mp hadmitted).2 with ⟨_, -, -, hup⟩ | ⟨hid, -⟩
    · cases hup
    · cases he.2.symm.trans hid

/-- **A session that shuts down declines a request.** -/
theorem handle_stopped {body : Bytes} {e : Envelope} {id : Json} (he : IsRequest body e id)
    (hstarted : w.session.initialized = true) (hdown : w.session.shutdownRequested = true) :
    Declined srv w body e.method id (stoppedError e.method) := by
  have hbarred : admitted? body w.session.initialized w.session.shutdownRequested = none :=
    hdown ▸ he.not_admitted _
  have hpayload := fun srv : Server σ τ => handlePayload_stopped srv he hstarted hdown
  constructor
  case barred => exact hbarred
  case alike =>
    intro other
    rw [handle, handle, hpayload other, hpayload srv]
  case session => exact (handle_barred srv hbarred).1
  case exits => exact (handle_barred srv hbarred).2
  case log => rw [handle_snd, hpayload srv, send_log]
  case answered =>
    intro hclean
    rw [handle, hpayload srv, send_run_of_clean hclean]
    exact ⟨rfl, rfl⟩

end

/-! ## 2. Runs -/

theorem handled_declines (srv : Server σ τ) (memory : σ) {bodies : List Bytes}
    (hstopped : HasCarriedOut srv (Connection.fresh memory).world .shutdown bodies) {body : Bytes}
    {e : Envelope} {id : Json} (he : IsRequest body e id) :
    Declined srv (handled srv (Connection.fresh memory).world bodies) body e.method id
      (stoppedError e.method) := by
  have hdown : (handled srv (Connection.fresh memory).world bodies).session.shutdownRequested = true :=
    (handled_shutdownRequested srv bodies _).mpr (.inr hstopped)
  have hfresh : Orderly memory (Connection.fresh (τ := τ) memory).world.session :=
    ⟨fun _ => rfl, fun h => absurd h Bool.false_ne_true⟩
  exact handle_stopped srv he ((handled_orderly srv hfresh bodies).stopping hdown).1 hdown

/-- **After a shutdown every request is refused.**  Whatever bodies a fresh session has handled, if one of
them had the shutdown carried out, every later request, whatever its method, parameters and id, reaches no
method and changes nothing in the session.  It is answered with the code of an invalid request if its
method is one of the server's, and with that of an unknown method if not. -/
theorem handled_stopped (srv : Server σ τ) (memory : σ) {bodies : List Bytes}
    (hstopped : HasCarriedOut srv (Connection.fresh memory).world .shutdown bodies) {body : Bytes}
    {e : Envelope} {id : Json} (he : IsRequest body e id) :
    let w := handled srv (Connection.fresh memory).world bodies
    let err := stoppedError e.method
    err.code.number = (if (Method.ofText? e.method).isSome then -32600 else -32601) ∧
      Declined srv w body e.method id err ∧
      (CleanBody body → (handle srv w body).1 = none ∧
        (handle srv w body).2.sent = w.sent ++ [errorResponse id err]) := by
  intro w err
  have hdeclined : Declined srv w body e.method id err := handled_declines srv memory hstopped he
  refine ⟨stoppedError_code e.method, hdeclined, fun hclean => ?_⟩
  exact hdeclined.answered (clean_stoppedError (hclean.envelope he.1) he.2)

/-- A question after a shutdown, with a document opened in between. -/
theorem handled_stopped_question :
    let srv := luaServer (fun _ => none) .note
    let fresh : World Unit LuaTree := (Connection.fresh ()).world
    let w := handled srv fresh [requestBody 1 .start [], requestBody 2 .shutdown [],
      notificationBody .didOpen []]
    HasCarriedOut srv fresh .shutdown [requestBody 1 .start [], requestBody 2 .shutdown [],
        notificationBody .didOpen []] ∧
      ∃ id, ∃ err : RpcError, err.code.number = -32600 ∧
        (handle srv w (requestBody 3 .hover [])).2.sent = w.sent ++ [errorResponse id err] := by
  intro srv fresh w
  have hrun : w = handled srv fresh [requestBody 1 .start [], requestBody 2 .shutdown [],
    notificationBody .didOpen []] := rfl
  have hstopped := hasCarriedOut_shutdown srv () [notificationBody .didOpen []] (by decide +kernel)
  have hplain : (Json.object []).Plain := by decide
  have hquestion : IsRequest (requestBody 3 .hover []) ⟨_, _, _⟩ (.nat 3) :=
    ⟨decode_requestBody .hover (by decide) hplain, rfl⟩
  obtain ⟨hcode, -, hanswered⟩ := handled_stopped srv () hstopped hquestion
  rw [Method.ofText?_name] at hcode
  rw [hrun]
  exact ⟨hstopped, .nat 3, _, hcode, (hanswered (cleanBody_requestBody .hover (by decide) hplain)).2⟩

/-- A request for a method that the server does not know. -/
def unknownBody : Bytes :=
  asciiBytes (text "\x7b\"jsonrpc\":\"2.0\",\"id\":3,\"method\":\"m\"\x7d")

/-- The code in the error of a response. -/
def errorCode? (m : Json) : Option Int :=
  match (m.get? (text "error")).bind (·.get? (text "code")) with
  | some (.int n) => some n
  | _ => none

theorem errorCode?_errorResponse (id : Json) (err : RpcError) :
    errorCode? (errorResponse id err) = some err.code.number := rfl

/-- After a shutdown a method that the server does not know is not answered as an invalid request. -/
theorem handled_stopped_unknown :
    let srv := luaServer (fun _ => none) .note
    let fresh : World Unit LuaTree := (Connection.fresh ()).world
    let bodies := [requestBody 1 .start [], requestBody 2 .shutdown []]
    let w := handled srv fresh bodies
    HasCarriedOut srv fresh .shutdown bodies ∧ (∃ e id, IsRequest unknownBody e id) ∧
      CleanBody unknownBody ∧
      (handle srv w unknownBody).2.sent.map errorCode? = w.sent.map errorCode? ++ [some (-32601)] := by
  intro srv fresh bodies w
  have hrun : w = handled srv fresh bodies := rfl
  have hstopped : HasCarriedOut srv fresh .shutdown bodies :=
    hasCarriedOut_shutdown srv () [] (by decide +kernel)
  have hrequest : (decode unknownBody).toOption.any (fun e =>
      e.id.isSome && decide (e.method = text "m")) = true := by decide +kernel
  have hunknown : Method.ofText? (text "m") = none := by
    simp [Method.ofText?, Method.all, Method.name, text_inj]
  have hclean : CleanBody unknownBody := by decide +kernel
  obtain ⟨e, he, hrequest⟩ := (Option.any_eq_true _ _).mp hrequest
  obtain ⟨hid, hmethod⟩ := Bool.and_eq_true_iff.mp hrequest
  obtain ⟨id, hid⟩ := Option.isSome_iff_exists.mp hid
  have hbody : IsRequest unknownBody e id := ⟨ok_of_toOption he, hid⟩
  have hsent := ((handled_declines srv () hstopped hbody).answered
    (clean_stoppedError (hclean.envelope hbody.1) hid)).2
  refine ⟨hstopped, ⟨e, id, hbody⟩, hclean, ?_⟩
  rw [hrun, hsent, List.map_append, List.map_singleton, errorCode?_errorResponse, stoppedError_code,
    of_decide_eq_true hmethod, hunknown]
  rfl

end LuaServer
