/-
# Steps of a session

A step is a function from a world to a result and a world.  These are the equations by which a step is
run: one for each elementary effect, and one for two steps after each other.  A property of worlds that
is kept by each of several steps is kept by all of them together (`Keeps`), and what holds after the
method of a message holds after the message (`handle_after`).
-/
import LuaServer.Session.Dispatch

namespace LuaServer

/-- A result that is there. -/
theorem ok_of_toOption {ε α : Type} {x : Except ε α} {a : α} (h : x.toOption = some a) : x = .ok a := by
  cases x with
  | error => cases h
  | ok b => exact congrArg _ (Option.some.inj h)

variable {σ τ α β : Type}

/-! ## 1. Runs -/

section
variable (w : World σ τ)

/-- How a step goes on after another one. -/
def andThen (f : α → Act σ τ β) : Except Failure α × World σ τ → Except Failure β × World σ τ
  | (.ok a, w) => f a w
  | (.error e, w) => (.error e, w)

@[simp] theorem andThen_ok (f : α → Act σ τ β) (a : α) : andThen f (.ok a, w) = f a w := rfl

@[simp] theorem andThen_error (f : α → Act σ τ β) (e : Failure) :
    andThen f (.error e, w) = (.error e, w) := rfl

@[simp] theorem bind_run (x : Act σ τ α) (f : α → Act σ τ β) : (x >>= f) w = andThen f (x w) := by
  simp only [bind, ExceptT.bind, ExceptT.mk, StateT.bind]
  rcases x w with ⟨r, w'⟩
  cases r <;> rfl

@[simp] theorem pure_run (a : α) : (pure a : Act σ τ α) w = (.ok a, w) := rfl

@[simp] theorem throw_run (e : Failure) : (throw e : Act σ τ α) w = (.error e, w) := rfl

@[simp] theorem refuse_run (code : ErrorCode) (message : Text) (data : Json) :
    (refuse code message data : Act σ τ α) w = (.error (.refused ⟨code, message, data⟩), w) := rfl

@[simp] theorem session_run : (session : Act σ τ _) w = (.ok w.session, w) := rfl

@[simp] theorem modify_run (f : World σ τ → World σ τ) :
    (modify f : Act σ τ Unit) w = (.ok (), f w) := rfl

@[simp] theorem modifySession_run (f : Session σ τ → Session σ τ) :
    modifySession f w = (.ok (), { w with session := f w.session }) := rfl

@[simp] theorem record_run (level : Level) (message : Text) (crash : Option Crash) :
    record level message crash w = (.ok (), { w with log := w.log ++ [⟨level, message, crash⟩] }) :=
  rfl

@[simp] theorem orCrash_ok_run (a : α) : (orCrash (.ok a) : Act σ τ α) w = (.ok a, w) := rfl

@[simp] theorem orCrash_error_run (c : Crash) :
    (orCrash (.error c) : Act σ τ α) w = (.error (.crashed c), w) := rfl

/-- A message that can be encoded is written. -/
theorem send_run {message : Json} {body : Bytes} (h : encode message = .ok body) :
    (send message : Act σ τ Unit) w = (.ok (), { w with sent := w.sent ++ [message] }) := by
  rw [send, h]
  rfl

/-- A message that cannot be encoded is not. -/
theorem send_run_error {message : Json} {u : Utf8.Unencodable} (h : encode message = .error u) :
    (send message : Act σ τ Unit) w = (.error (.crashed (.unencodable u)), w) := by
  rw [send, h]
  rfl

/-- A document is stored under a URI that is well formed. -/
theorem putDocument_run {uri : Text} {path : Option Text} (h : fsPath? uri = .ok path) (t : Text)
    (version : Option Int) (languageId : Json) :
    putDocument uri t version languageId w = (.ok (),
      { w with session := { w.session with
          documents := Table.insert uri
            (.next (Table.get? uri w.session.documents) t version languageId) w.session.documents } }) := by
  rw [putDocument, h]
  rfl

/-- Under any other nothing is stored. -/
theorem putDocument_run_error {uri : Text} {e : UriFault} (h : fsPath? uri = .error e) (t : Text)
    (version : Option Int) (languageId : Json) :
    putDocument uri t version languageId w = (.error (.crashed (.invalidUri e)), w) := by
  rw [putDocument, h]
  rfl

end

/-! ## 2. What steps keep -/

/-- A step keeps a property of worlds, also when it fails. -/
def Keeps (I : World σ τ → Prop) (x : Act σ τ α) : Prop := ∀ w, I w → I (x w).2

namespace Keeps

section
variable {I : World σ τ → Prop} {x : Act σ τ α}

theorem pure (a : α) : Keeps I (Pure.pure a : Act σ τ α) := fun _ h => h

theorem throw (e : Failure) : Keeps I (throw e : Act σ τ α) := fun _ h => h

theorem refuse (code : ErrorCode) (message : Text) (data : Json) :
    Keeps I (LuaServer.refuse code message data : Act σ τ α) := fun _ h => h

theorem session : Keeps I (LuaServer.session : Act σ τ _) := fun _ h => h

theorem orCrash : ∀ r : Except Crash α, Keeps I (LuaServer.orCrash r : Act σ τ α)
  | .ok a => pure a
  | .error c => throw (.crashed c)

/-- One step after another. -/
theorem bind {f : α → Act σ τ β} (hx : Keeps I x) (hf : ∀ a, Keeps I (f a)) : Keeps I (x >>= f) := by
  intro w h
  have hfirst := hx w h
  rw [bind_run]
  rcases hrun : x w with ⟨r, w'⟩
  rw [hrun] at hfirst
  cases r with
  | error e => exact hfirst
  | ok a => exact hf a w' hfirst

/-- A step keeps the same whether its failure is caught or not. -/
theorem attempt (hx : Keeps I x) : Keeps I (LuaServer.attempt x) := hx

/-- A change of the session, if it keeps the property. -/
theorem modifySession {f : Session σ τ → Session σ τ}
    (h : ∀ w, I w → I { w with session := f w.session }) : Keeps I (LuaServer.modifySession f) := h

/-- A property that does not look at the log is kept by a record. -/
theorem record (h : ∀ w log, I w → I { w with log := log }) (level : Level) (message : Text)
    (crash : Option Crash) : Keeps I (LuaServer.record level message crash) := fun w hw => h w _ hw

/-- A message, if writing it keeps the property. -/
theorem send {message : Json} (h : ∀ w, I w → I { w with sent := w.sent ++ [message] }) :
    Keeps I (LuaServer.send message) := by
  intro w hw
  cases hencode : encode message with
  | ok body =>
    rw [send_run w hencode]
    exact h w hw
  | error u =>
    rw [send_run_error w hencode]
    exact hw

end

end Keeps

/-! ## 3. Messages -/

section
variable (srv : Server σ τ) (e : Envelope) (w : World σ τ)

/-- What is done about a request: it is refused at the door, or its method is carried out. -/
theorem answer_cases :
    (∃ code message, answer srv e w = (.error (.refused ⟨code, message, .null⟩), w) ∧
      message ∈ [text "server not initialized", text "unknown method: " ++ e.method,
        text "server is shutting down"]) ∨
    ∃ m, Method.ofText? e.method = some m ∧ (w.session.initialized = false → m = .start) ∧
      answer srv e w = call srv m e.params w := by
  rw [answer, bind_run, session_run, andThen_ok]
  by_cases hearly : (!w.session.initialized && Method.ofText? e.method ≠ some .start) = true
  · rw [if_pos hearly]
    exact .inl ⟨_, _, rfl, by simp⟩
  · rw [if_neg hearly]
    cases hm : Method.ofText? e.method with
    | none => exact .inl ⟨_, _, rfl, by simp⟩
    | some m =>
      dsimp only
      by_cases hdown : w.session.shutdownRequested = true
      · rw [if_pos hdown]
        exact .inl ⟨_, _, rfl, by simp⟩
      · rw [if_neg hdown]
        exact .inr ⟨m, rfl, fun hno => by simpa [hno, hm] using hearly, rfl⟩

/-- What is done about a notification: it is noted and dropped, or its method is carried out.  How that
ends is noted at most, unless the process ends. -/
theorem handleNotification_cases :
    (∃ log, handleNotification srv e w = (.ok (), { w with log := log })) ∨
    ∃ m, Method.ofText? e.method = some m ∧ (w.session.initialized = false → m = .exit) ∧
      ((∃ status w', call srv m e.params w = (.error (.exited status), w') ∧
          handleNotification srv e w = (.error (.exited status), w')) ∨
        ∃ log, handleNotification srv e w = (.ok (), { (call srv m e.params w).2 with log := log })) := by
  rw [handleNotification, bind_run, session_run, andThen_ok]
  cases hm : Method.ofText? e.method with
  | none =>
    dsimp only
    split <;> exact .inl ⟨_, rfl⟩
  | some m =>
    by_cases hearly : (!w.session.initialized && m ≠ .exit) = true
    · simp only [hearly, if_true]
      exact .inl ⟨_, rfl⟩
    · refine .inr ⟨m, rfl, fun hno => by simpa [hno] using hearly, ?_⟩
      rw [Bool.not_eq_true] at hearly
      simp only [hearly, Bool.false_eq_true, if_false, bind_run, attempt]
      rcases hrun : call srv m e.params w with ⟨(err | c | status) | result, w'⟩
      · exact .inr ⟨_, rfl⟩
      · exact .inr ⟨_, rfl⟩
      · exact .inl ⟨status, w', rfl, rfl⟩
      · exact .inr ⟨w'.log, rfl⟩

/-- The world after a body, however its handling ended. -/
theorem handle_snd {body : Bytes} : (handle srv w body).2 = (handlePayload srv body w).2 := by
  rw [handle]
  rcases handlePayload srv body w with ⟨_ | _, v⟩ <;> rfl

end

/-! ## 4. What handling a body keeps -/

/-- A message is the response to a request. -/
inductive IsReply : Json → Prop
  | result (id result : Json) : IsReply (resultResponse id result)
  | error (id : Json) (e : RpcError) : IsReply (errorResponse id e)

section
variable {P : World σ τ → Prop} (hlogged : ∀ w log, P w → P { w with log := log })
  (hreplied : ∀ w m, IsReply m → P w → P { w with sent := w.sent ++ [m] })
include hlogged hreplied

/-- What holds after the method of a request holds after its reply. -/
theorem handleRequest_after {srv : Server σ τ} {e : Envelope} {w : World σ τ} (id : Json)
    (hanswer : P (answer srv e w).2) : P (handleRequest srv id e w).2 := by
  rw [handleRequest, bind_run, attempt]
  rcases hrun : answer srv e w with ⟨(err | c | status) | result, v⟩
  all_goals rw [hrun] at hanswer
  · exact Keeps.send (fun w => hreplied w _ (.error id err)) _ (hlogged v _ hanswer)
  · exact Keeps.send (fun w => hreplied w _ (.error id c.toRpc)) _ (hlogged v _ hanswer)
  · exact hanswer
  · exact Keeps.send (fun w => hreplied w _ (.result id result)) v hanswer

/-- **What holds before a body and after its method holds after the body,** if records and replies keep
it. -/
theorem handle_after {srv : Server σ τ} {w : World σ τ} {body : Bytes} (hw : P w)
    (hcall : ∀ e m, decode body = .ok e → Method.ofText? e.method = some m →
      (w.session.initialized = false → m = .start ∨ m = .exit) → P (call srv m e.params w).2) :
    P (handle srv w body).2 := by
  rw [handle_snd, handlePayload]
  cases hdecode : decode body with
  | error e =>
    dsimp only
    rw [bind_run, record_run, andThen_ok]
    cases e.id with
    | none => exact hlogged w _ hw
    | some id => exact Keeps.send (fun w => hreplied w _ (.error id e.toRpc)) _ (hlogged w _ hw)
  | ok e =>
    dsimp only
    cases e.id with
    | some id =>
      refine handleRequest_after hlogged hreplied id ?_
      rcases answer_cases srv e w with ⟨_, _, hrun, -⟩ | ⟨m, hm, hallowed, hrun⟩
      · rw [hrun]
        exact hw
      · rw [hrun]
        exact hcall e m hdecode hm fun hno => .inl (hallowed hno)
    | none =>
      dsimp only
      rcases handleNotification_cases srv e w with ⟨log, hrun⟩ | ⟨m, hm, hallowed, hends⟩
      · rw [hrun]
        exact hlogged w log hw
      · have hafter := hcall e m hdecode hm fun hno => .inr (hallowed hno)
        rcases hends with ⟨status, v, hends, hrun⟩ | ⟨log, hrun⟩
        · rw [hends] at hafter
          rw [hrun]
          exact hafter
        · rw [hrun]
          exact hlogged _ log hafter

end

end LuaServer
