/-
# What a message changes, analyses aside

A message reaches its method only if the session lets it in (`Envelope.admitted?`).  Of what the method
does then, the analyses write diagnostics, trees and the memory of the front end, and nothing else.  The
rest of the world, its outline, goes on without them: `Outline.call` gives the outline after a method, and
it asks the front end for nothing.

Main results: `call_outline`, `handle_outline`.
-/
import LuaServer.Connection
import LuaServer.Proofs.Clients

namespace LuaServer

variable {σ τ α : Type}

/-! ## 1. Admission -/

/-- The method that a message has carried out, if a session lets it in.  Before the session is
initialized that is the start, as a request, or the exit, as a notification.  After a shutdown requests
are let in no more, but notifications still are. -/
def Envelope.admitted? (e : Envelope) (started stopping : Bool) : Option Method :=
  (Method.ofText? e.method).filter fun m =>
    match e.id with
    | some _ => (started || m = .start) && !stopping
    | none => started || m = .exit

/-- The message in a body, with the method that it has carried out. -/
def admitted? (body : Bytes) (started stopping : Bool) : Option (Envelope × Method) :=
  match decode body with
  | .error _ => none
  | .ok e => (e.admitted? started stopping).map fun m => (e, m)

/-- The world after the method of a message, without the reply and what is noted about it. -/
def Envelope.carried (srv : Server σ τ) (e : Envelope) (w : World σ τ) : World σ τ :=
  (e.admitted? w.session.initialized w.session.shutdownRequested).elim w fun m =>
    (call srv m e.params w).2

/-- The world after the method of the message in a body. -/
def carried (srv : Server σ τ) (w : World σ τ) (body : Bytes) : World σ τ :=
  match decode body with
  | .error _ => w
  | .ok e => e.carried srv w

/-- A message is let in if it can be decoded and the session takes its method. -/
theorem admitted?_eq_some {body : Bytes} {started stopping : Bool} {e : Envelope} {m : Method} :
    admitted? body started stopping = some (e, m)
      ↔ decode body = .ok e ∧ e.admitted? started stopping = some m := by
  unfold admitted?
  cases hdecode : decode body with
  | error _ => simp
  | ok e' =>
    constructor
    · intro h
      obtain ⟨m', hm', heq⟩ := Option.map_eq_some_iff.mp h
      cases heq
      exact ⟨rfl, hm'⟩
    · rintro ⟨heq, hm⟩
      cases heq
      exact Option.map_eq_some_iff.mpr ⟨m, hm, rfl⟩

/-- A message is let in with its own method. -/
theorem Envelope.admitted?_eq_some {e : Envelope} {started stopping : Bool} {m : Method} :
    e.admitted? started stopping = some m ↔ Method.ofText? e.method = some m ∧
      ((∃ id, e.id = some id ∧ (started = true ∨ m = .start) ∧ stopping = false) ∨
        e.id = none ∧ (started = true ∨ m = .exit)) := by
  rw [Envelope.admitted?, Option.filter_eq_some_iff]
  refine and_congr_right fun _ => ?_
  cases e.id with
  | none => simp
  | some id => simp

/-- Before a session is initialized it lets in its start and its exit only. -/
theorem Envelope.admitted?_early {e : Envelope} {stopping : Bool} {m : Method}
    (h : e.admitted? false stopping = some m) : m = .start ∨ m = .exit := by
  rcases (Envelope.admitted?_eq_some.mp h).2 with ⟨_, -, h | rfl, -⟩ | ⟨-, h | rfl⟩
  · cases h
  · exact .inl rfl
  · cases h
  · exact .inr rfl

section
variable {id : Nat} {params : List (String × Json)} (m : Method) (started stopping : Bool)

/-- A request is let in once the session has started, or if it starts it, and not after a shutdown. -/
theorem admitted?_requestBody (hid : (Json.nat id).Plain) (h : (Json.object params).Plain) :
    admitted? (requestBody id m params) started stopping =
      if (started || m = .start) && !stopping then
        some (⟨text m.name, some (.nat id), some (Json.object params)⟩, m)
      else none := by
  rw [admitted?, decode_requestBody m hid h]
  simp only [Envelope.admitted?, m.ofText?_name, Option.filter_some]
  split <;> rfl

/-- A notification is let in once the session has started, also after a shutdown. -/
theorem admitted?_notificationBody (h : (Json.object params).Plain) :
    admitted? (notificationBody m params) started stopping =
      if started || m = .exit then some (⟨text m.name, none, some (Json.object params)⟩, m)
      else none := by
  rw [admitted?, decode_notificationBody m h]
  simp only [Envelope.admitted?, m.ofText?_name, Option.filter_some]
  split <;> rfl

end

section
variable (srv : Server σ τ) (w : World σ τ) {e : Envelope}

/-- The world after a message is that after the method which is let in, or the one before. -/
theorem carried_eq (body : Bytes) : carried srv w body =
    (admitted? body w.session.initialized w.session.shutdownRequested).elim w fun (e, m) =>
      (call srv m e.params w).2 := by
  unfold carried admitted? Envelope.carried
  cases decode body with
  | error _ => rfl
  | ok e =>
    dsimp only
    cases e.admitted? w.session.initialized w.session.shutdownRequested <;> rfl

/-- A request has its method carried out if it is let in, and nothing otherwise. -/
theorem answer_snd {id : Json} (hid : e.id = some id) : (answer srv e w).2 = e.carried srv w := by
  rw [answer, bind_run, session_run, andThen_ok, Envelope.carried, Envelope.admitted?, hid]
  cases hm : Method.ofText? e.method with
  | none =>
    dsimp only
    split <;> rfl
  | some m =>
    cases hstarted : w.session.initialized <;> cases hdown : w.session.shutdownRequested <;>
      by_cases hstart : m = .start <;>
      simp [hstart, Option.filter_some]

/-- A notification has its method carried out if it is let in, and nothing otherwise. -/
theorem handleNotification_snd (hid : e.id = none) :
    (handleNotification srv e w).2.session = (e.carried srv w).session ∧
      (handleNotification srv e w).2.exits = (e.carried srv w).exits := by
  rw [handleNotification, bind_run, session_run, andThen_ok, Envelope.carried, Envelope.admitted?, hid]
  cases hm : Method.ofText? e.method with
  | none =>
    dsimp only
    split <;> exact ⟨rfl, rfl⟩
  | some m =>
    by_cases hearly : (!w.session.initialized && m ≠ .exit) = true
    · have hout : (w.session.initialized || decide (m = .exit)) = false := by simpa using hearly
      simp only [hearly, if_true, Option.filter_some, hout, Bool.false_eq_true, if_false]
      exact ⟨rfl, rfl⟩
    · have hin : (w.session.initialized || decide (m = .exit)) = true := by
        revert hearly
        cases w.session.initialized <;> simp
      rw [Bool.not_eq_true] at hearly
      simp only [hearly, Bool.false_eq_true, if_false, Option.filter_some, hin, if_true, bind_run,
        attempt, Option.elim_some]
      rcases call srv m e.params w with ⟨(err | c | status) | result, v⟩ <;> exact ⟨rfl, rfl⟩

/-- **A body changes the session as its method does,** and notes the exits of its method. -/
theorem handle_carried (body : Bytes) :
    (handle srv w body).2.session = (carried srv w body).session ∧
      (handle srv w body).2.exits = (carried srv w body).exits := by
  rw [handle_snd, handlePayload, carried]
  cases hdecode : decode body with
  | error e =>
    dsimp only
    rw [bind_run, record_run, andThen_ok]
    cases e.id with
    | none => exact ⟨rfl, rfl⟩
    | some id =>
      exact Keeps.send (I := fun v => v.session = w.session ∧ v.exits = w.exits) (fun v h => h) _
        ⟨rfl, rfl⟩
  | ok e =>
    dsimp only
    cases hid : e.id with
    | some id =>
      refine handleRequest_after (P := fun v => v.session = (e.carried srv w).session ∧
        v.exits = (e.carried srv w).exits) (fun v log h => h) (fun v m _ h => h) id ?_
      rw [answer_snd srv w hid]
      exact ⟨rfl, rfl⟩
    | none => exact handleNotification_snd srv w hid

end

/-! ## 2. Outlines -/

/-- What no analysis changes. -/
structure Outline where
  documents : Table Document
  settings : Members
  root : Option Text
  initialized : Bool
  shutdownRequested : Bool
  running : Bool
  exits : List Nat

/-- The outline of a world. -/
def World.outline (w : World σ τ) : Outline :=
  { documents := w.session.documents, settings := w.session.settings, root := w.session.root,
    initialized := w.session.initialized, shutdownRequested := w.session.shutdownRequested,
    running := w.session.running, exits := w.exits }

/-- The outline is made of the session and the exits. -/
theorem World.outline_congr {w v : World σ τ} (hsession : v.session = w.session)
    (hexits : v.exits = w.exits) : v.outline = w.outline := by
  rw [World.outline, World.outline, hsession, hexits]

/-- A step keeps the outline, also when it fails. -/
def Unseen (x : Act σ τ α) : Prop := ∀ o : Outline, Keeps (fun w => w.outline = o) x

namespace Unseen

section
variable {β : Type} {x : Act σ τ α}

/-- A step that is unseen keeps the outline of the world where it is run. -/
theorem run (hx : Unseen x) (w : World σ τ) : (x w).2.outline = w.outline := hx _ w rfl

theorem pure (a : α) : Unseen (Pure.pure a : Act σ τ α) := fun _ => .pure a

theorem throw (e : Failure) : Unseen (throw e : Act σ τ α) := fun _ => .throw e

theorem refuse (code : ErrorCode) (message : Text) (data : Json) :
    Unseen (LuaServer.refuse code message data : Act σ τ α) := fun _ => .refuse _ _ _

theorem session : Unseen (LuaServer.session : Act σ τ _) := fun _ => .session

theorem orCrash (r : Except Crash α) : Unseen (LuaServer.orCrash r : Act σ τ α) := fun _ => .orCrash r

/-- One step after another. -/
theorem bind {f : α → Act σ τ β} (hx : Unseen x) (hf : ∀ a, Unseen (f a)) : Unseen (x >>= f) :=
  fun o => (hx o).bind fun a => hf a o

theorem record (level : Level) (message : Text) (crash : Option Crash) :
    Unseen (LuaServer.record level message crash : Act σ τ Unit) :=
  fun _ => .record (fun _ _ h => h) _ _ _

theorem send (m : Json) : Unseen (LuaServer.send m : Act σ τ Unit) := fun _ => .send fun _ h => h

/-- A change of the session is unseen if the outline tells nothing of it. -/
theorem modifySession {f : Session σ τ → Session σ τ}
    (h : ∀ w : World σ τ, World.outline { w with session := f w.session } = w.outline) :
    Unseen (LuaServer.modifySession f) :=
  fun _ => .modifySession fun w hw => (h w).trans hw

end

end Unseen

section
variable (srv : Server σ τ)

/-- The diagnostics of a document are no part of the outline. -/
theorem publish_unseen (uri : Text) (ds : List Diagnostic) :
    Unseen (publish uri ds : Act σ τ Unit) :=
  (Unseen.modifySession fun _ => rfl).bind fun _ => Unseen.session.bind fun _ => .send _

/-- Neither is the notice about a text that was refused. -/
theorem reportRefusal_unseen (uri message : Text) :
    Unseen (reportRefusal uri message : Act σ τ Unit) := by
  refine Unseen.bind (.modifySession fun _ => rfl) fun _ => (Unseen.orCrash _).bind fun d => ?_
  split
  · exact (Unseen.record _ _ _).bind fun _ => publish_unseen uri []
  · exact publish_unseen uri _

/-- **An analysis keeps the outline.** -/
theorem analyze_unseen (uri : Text) : Unseen (analyze srv uri) := by
  refine Unseen.session.bind fun s => ?_
  split
  · exact .pure _
  · split
    · exact .throw _
    · exact (reportRefusal_unseen uri _).bind fun _ => .pure _
    · refine (Unseen.orCrash _).bind fun ds => (publish_unseen uri ds).bind fun _ => ?_
      split
      · exact (Unseen.record _ _ _).bind fun _ => Unseen.bind (.modifySession fun _ => rfl)
          fun _ => .pure _
      · exact Unseen.bind (.modifySession fun _ => rfl) fun _ => .pure _

theorem analyzed_unseen (uri : Text) :
    Unseen (do
      let _ ← analyze srv uri
      return Json.null) :=
  (analyze_unseen srv uri).bind fun _ => .pure _

/-- A round of analyses is unseen, also if one of them brings it to a stop. -/
theorem analyzeAll_unseen : ∀ uris : List Text, Unseen (analyzeAll srv uris)
  | [] => .pure _
  | uri :: uris => (analyze_unseen srv uri).bind fun _ => analyzeAll_unseen uris

theorem visit_unseen (tree : τ) : Unseen (visit srv tree) :=
  Unseen.session.bind fun _ => Unseen.bind (.modifySession fun _ => rfl) fun _ => .pure _

/-- A place is resolved by an analysis of its document. -/
theorem resolve_unseen (place : PlaceParams) : Unseen (resolve srv place) := by
  refine (analyze_unseen srv place.uri).bind fun tree => ?_
  split
  · exact .refuse _ _ _
  · refine (visit_unseen srv _).bind fun os => ?_
    split
    · exact .pure _
    · exact .refuse _ _ _

theorem matching_unseen (tree : τ) (o : Occurrence) : Unseen (matching srv tree o) :=
  (visit_unseen srv tree).bind fun _ => .pure _

theorem hover_unseen (place : PlaceParams) : Unseen (hover srv place) :=
  (resolve_unseen srv place).bind fun _ => (Unseen.orCrash _).bind fun _ => .pure _

/-- The new name is checked before, and a refusal is unseen, too. -/
theorem rename_unseen (p : RenameParams) : Unseen (rename srv p) := by
  unfold rename
  split
  · exact (resolve_unseen srv p.place).bind fun _ => (matching_unseen srv _ _).bind fun _ =>
      (Unseen.orCrash _).bind fun _ => .pure _
  · exact .refuse _ _ _

theorem references_unseen (place : PlaceParams) : Unseen (references srv place) :=
  (resolve_unseen srv place).bind fun _ => (matching_unseen srv _ _).bind fun _ =>
    (Unseen.orCrash _).bind fun _ => .pure _

theorem definition_unseen (place : PlaceParams) : Unseen (definition srv place) := by
  refine (resolve_unseen srv place).bind fun _ => (matching_unseen srv _ _).bind fun os => ?_
  split
  · exact .throw _
  · exact (Unseen.orCrash _).bind fun _ => .pure _

end

/-! ## 3. Methods -/

/-- A start with these parameters comes to its end: the root is found, and its project file is read. -/
def startCompletes (read : ReadFile) (params : Option Json) : Bool :=
  match rootOf ((params.bind Json.members?).getD []) with
  | .error _ => false
  | .ok root => (projectLayer read root).isOk

namespace Outline

/-- A document is stored, if its URI is well formed. -/
def store (uri t : Text) (version : Option Int) (languageId : Json) (o : Outline) : Outline :=
  match fsPath? uri with
  | .error _ => o
  | .ok _ => { o with
      documents := Table.insert uri (.next (Table.get? uri o.documents) t version languageId) o.documents }

/-- The start.  It may fail when the root is looked for, which changes nothing, or when the project file is
read, and then the root is set already. -/
def start (read : ReadFile) (params : Option Json) (o : Outline) : Outline :=
  if o.initialized then o
  else
    let ms := (params.bind Json.members?).getD []
    match rootOf ms with
    | .error _ => o
    | .ok root =>
      match projectLayer read root with
      | .error _ => { o with root := root }
      | .ok layer =>
        let options := pickSection ((Table.get? (text "initializationOptions") ms).getD .null)
        { o with
          root := root, settings := mergeLayer options (mergeLayer layer o.settings),
          initialized := true }

/-- The status with which an exit ends the process. -/
def status (o : Outline) : Nat := if o.shutdownRequested then 0 else 1

/-- The exit, which is noted unless the process ends. -/
def exit (onExit : ExitPolicy) (o : Outline) : Outline :=
  { o with
    running := false
    exits := match onExit with
      | .note => o.exits ++ [o.status]
      | .leave => o.exits }

/-- A change.  One with a range is refused as a whole, and of several texts the last one counts. -/
def change (p : ChangeParams) (o : Outline) : Outline :=
  if p.changes.any (·.ranged) then o
  else p.changes.getLast?.elim o fun c => o.store p.uri c.text (some p.version) .null

/-- **The outline after a method.** -/
def call (read : ReadFile) (onExit : ExitPolicy) (m : Method) (e : Envelope) (o : Outline) : Outline :=
  match m with
  | .start => o.start read e.params
  | .shutdown => { o with shutdownRequested := true, running := false }
  | .exit => o.exit onExit
  | .didOpen =>
    (e.members?.bind openParams?).elim o fun p => o.store p.uri p.text (some p.version) p.languageId
  | .didChange => (e.members?.bind changeParams?).elim o fun p => o.change p
  | .didClose =>
    (e.members?.bind closeParams?).elim o fun uri =>
      { o with documents := Table.erase uri o.documents }
  | .didSave =>
    (e.members?.bind saveParams?).elim o fun p =>
      p.text.elim o fun t => o.store p.uri t none .null
  | .didChangeConfiguration =>
    (e.members?.bind configurationParams?).elim o fun settings =>
      { o with settings := mergeLayer (pickSection settings) o.settings }
  | _ => o

/-- The second outline has other documents and settings at most. -/
def Refilled (o o' : Outline) : Prop := ∃ ds settings, o' = { o with documents := ds, settings := settings }

section
variable (read : ReadFile) (onExit : ExitPolicy) (o : Outline)

/-- Nothing has been refilled. -/
theorem refilled_self : o.Refilled o := ⟨o.documents, o.settings, rfl⟩

/-- Where nothing is given, nothing is refilled. -/
theorem refilled_elim {α : Type} (a? : Option α) {f : α → Outline} (h : ∀ a, o.Refilled (f a)) :
    o.Refilled (a?.elim o f) := by
  cases a? with
  | none => exact o.refilled_self
  | some a => exact h a

/-- A text that is stored refills the documents. -/
theorem refilled_store (uri t : Text) (version : Option Int) (languageId : Json) :
    o.Refilled (o.store uri t version languageId) := by
  unfold store
  split
  · exact o.refilled_self
  · exact ⟨_, o.settings, rfl⟩

/-- Changes refill the document which is open, and no other. -/
theorem refilled_change (p : ChangeParams) : o.Refilled (o.change p) := by
  unfold change
  split
  · exact o.refilled_self
  · exact o.refilled_elim _ fun c => o.refilled_store _ _ _ _

/-- All methods but three change the documents and the settings at most. -/
theorem refilled_call {m : Method} (e : Envelope) (hm : m ∉ [.start, .shutdown, .exit]) :
    o.Refilled (o.call read onExit m e) := by
  cases m with
  | start | shutdown | exit => simp at hm
  | didOpen => exact o.refilled_elim _ fun p => o.refilled_store _ _ _ _
  | didChange => exact o.refilled_elim _ fun p => o.refilled_change p
  | didClose => exact o.refilled_elim _ fun uri => ⟨_, o.settings, rfl⟩
  | didSave => exact o.refilled_elim _ fun p => o.refilled_elim _ fun t => o.refilled_store _ _ _ _
  | didChangeConfiguration => exact o.refilled_elim _ fun settings => ⟨o.documents, _, rfl⟩
  | _ => exact o.refilled_self

/-- The start of a session sets its settings, its root and the flag that it has started. -/
theorem start_flags (params : Option Json) : ∃ settings root, o.start read params =
    { o with
      settings := settings, root := root
      initialized := o.initialized || startCompletes read params } := by
  unfold start startCompletes
  cases hstarted : o.initialized with
  | true => exact ⟨o.settings, o.root, by rw [if_pos rfl, Bool.true_or, ← hstarted]⟩
  | false =>
    rw [if_neg Bool.false_ne_true]
    dsimp only
    cases rootOf ((params.bind Json.members?).getD []) with
    | error c => exact ⟨o.settings, o.root, by rw [Bool.or_false, ← hstarted]⟩
    | ok root =>
      dsimp only
      cases projectLayer read root with
      | error c => exact ⟨o.settings, root, rfl⟩
      | ok layer => exact ⟨_, root, rfl⟩

/-- **What the methods do to the flags.**  The start, the shutdown and the exit change them, and no other
method does. -/
theorem call_flags (m : Method) (e : Envelope) : ∃ ds settings root, o.call read onExit m e =
    { documents := ds, settings := settings, root := root
      initialized := o.initialized || (m = .start && startCompletes read e.params)
      shutdownRequested := o.shutdownRequested || m = .shutdown
      running := o.running && m ≠ .shutdown && m ≠ .exit
      exits := if m = .exit then (o.exit onExit).exits else o.exits } := by
  by_cases hm : m ∈ [.start, .shutdown, .exit]
  · simp only [List.mem_cons, List.not_mem_nil, or_false] at hm
    rcases hm with rfl | rfl | rfl
    · obtain ⟨settings, root, h⟩ := o.start_flags read e.params
      exact ⟨o.documents, settings, root, by simp [call, h]⟩
    · exact ⟨o.documents, o.settings, o.root, by simp [call]⟩
    · exact ⟨o.documents, o.settings, o.root, by simp [call, exit]⟩
  · obtain ⟨ds, settings, h⟩ := o.refilled_call read onExit e hm
    simp only [List.mem_cons, List.not_mem_nil, or_false, not_or] at hm
    exact ⟨ds, settings, o.root, by simp [h, hm]⟩

end

/-- The outline after a body. -/
def handle (read : ReadFile) (onExit : ExitPolicy) (body : Bytes) (o : Outline) : Outline :=
  (admitted? body o.initialized o.shutdownRequested).elim o fun (e, m) => o.call read onExit m e

end Outline

section
variable (srv : Server σ τ) (w : World σ τ)

/-- A step that reads the parameters first. -/
theorem withParams_outline {e : Envelope} {name : String} {read : Members → Option α}
    {f : α → Act σ τ Json} {g : α → Outline} (h : ∀ a, (f a w).2.outline = g a) :
    ((withParams name read e.params >>= f) w).2.outline = (e.members?.bind read).elim w.outline g := by
  rw [e.withParams_eq, bind_run]
  cases e.members?.bind read with
  | none => rfl
  | some a => exact h a

/-- A question keeps the outline, whatever its parameters are. -/
theorem asked_outline {e : Envelope} {name : String} {read : Members → Option α} {f : α → Act σ τ Json}
    (h : ∀ a, Unseen (f a)) : ((withParams name read e.params >>= f) w).2.outline = w.outline := by
  rw [withParams_outline w fun a => (h a).run w]
  cases e.members?.bind read <;> rfl

/-- A text is stored before it is analysed, and stays if the analysis crashes. -/
theorem store_outline (uri t : Text) (version : Option Int) (languageId : Json) :
    ((do
      putDocument uri t version languageId
      let _ ← analyze srv uri
      return Json.null) w).2.outline = w.outline.store uri t version languageId := by
  rw [bind_run, Outline.store]
  cases hpath : fsPath? uri with
  | error e =>
    rw [putDocument_run_error w hpath]
    rfl
  | ok path =>
    rw [putDocument_run w hpath]
    exact (analyzed_unseen srv uri).run _

/-- The start is the only method that reads a file. -/
theorem startSession_outline (params : Option Json) :
    (startSession srv params w).2.outline = w.outline.start srv.read params := by
  rw [startSession, bind_run, session_run, andThen_ok, Outline.start]
  by_cases hstarted : w.session.initialized = true
  · rw [if_pos hstarted, if_pos (show w.outline.initialized = true from hstarted)]
    rfl
  · rw [if_neg hstarted, if_neg (show ¬w.outline.initialized = true from hstarted)]
    dsimp only
    rw [bind_run]
    cases rootOf ((params.bind Json.members?).getD []) with
    | error c => rfl
    | ok root =>
      rw [orCrash_ok_run, andThen_ok, bind_run, modifySession_run, andThen_ok, bind_run]
      dsimp only
      cases projectLayer srv.read root <;> rfl

/-- The exit tells its code by the flag of the shutdown. -/
theorem exit_outline : (exit srv w).2.outline = w.outline.exit srv.onExit := by
  rw [exit, bind_run, modifySession_run, andThen_ok, bind_run, session_run, andThen_ok]
  cases srv.onExit <;> rfl

/-- Changes of a document that is not open do nothing. -/
theorem didChange_outline (p : ChangeParams) : (didChange srv p w).2.outline = w.outline.change p := by
  unfold didChange Outline.change
  split
  · rfl
  · cases p.changes.getLast? with
    | none => rfl
    | some c => exact store_outline srv w _ _ _ _

/-- A document that is closed is open no more. -/
theorem didClose_outline (uri : Text) : (didClose uri w).2.outline =
    { w.outline with documents := Table.erase uri w.outline.documents } := by
  rw [didClose, bind_run, removeDocument, modifySession_run, andThen_ok]
  exact ((Unseen.send _).bind fun _ => .pure _).run _

/-- A text that comes with the notice of saving is stored like any other. -/
theorem didSave_outline (p : SaveParams) : (didSave srv p w).2.outline =
    p.text.elim w.outline fun t => w.outline.store p.uri t none .null := by
  unfold didSave
  cases p.text with
  | none => exact (analyzed_unseen srv p.uri).run w
  | some t => exact store_outline srv w _ _ _ _

/-- The settings are merged before the documents are analysed, and stay merged if an analysis crashes. -/
theorem didChangeConfiguration_outline (settings : Json) :
    (didChangeConfiguration srv settings w).2.outline =
      { w.outline with settings := mergeLayer (pickSection settings) w.outline.settings } := by
  rw [didChangeConfiguration, bind_run, addLayer, modifySession_run, andThen_ok]
  exact (Unseen.session.bind fun _ => (analyzeAll_unseen srv _).bind fun _ => .pure _).run _

/-- **A method changes the outline as it says,** whatever the front end is. -/
theorem call_outline (m : Method) (e : Envelope) :
    (call srv m e.params w).2.outline = w.outline.call srv.read srv.onExit m e := by
  cases m with
  | start => exact startSession_outline srv w e.params
  | initialized => rfl
  | shutdown => rfl
  | exit => exact exit_outline srv w
  | didOpen => exact withParams_outline w fun p => store_outline srv w _ _ _ _
  | didChange => exact withParams_outline w fun p => didChange_outline srv w p
  | didClose => exact withParams_outline w fun uri => didClose_outline w uri
  | didSave => exact withParams_outline w fun p => didSave_outline srv w p
  | didChangeConfiguration =>
    exact withParams_outline w fun settings => didChangeConfiguration_outline srv w settings
  | hover => exact asked_outline w fun place => hover_unseen srv place
  | rename => exact asked_outline w fun p => rename_unseen srv p
  | references => exact asked_outline w fun place => references_unseen srv place
  | definition => exact asked_outline w fun place => definition_unseen srv place
  | completion => exact asked_outline w fun _ => .pure _
  | signatureHelp => exact asked_outline w fun _ => .pure _

/-- **A body changes the outline as its method says.** -/
theorem handle_outline (body : Bytes) :
    (handle srv w body).2.outline = w.outline.handle srv.read srv.onExit body := by
  obtain ⟨hsession, hexits⟩ := handle_carried srv w body
  rw [World.outline_congr hsession hexits, carried_eq, Outline.handle]
  change _ = (admitted? body w.session.initialized w.session.shutdownRequested).elim _ _
  cases admitted? body w.session.initialized w.session.shutdownRequested with
  | none => rfl
  | some found => exact call_outline srv w found.2 found.1

end

/-! ## 4. Runs -/

/-- The world after bodies were handled one after the other, whatever failures came through. -/
def handled (srv : Server σ τ) (w : World σ τ) (bodies : List Bytes) : World σ τ :=
  bodies.foldl (fun w body => (handle srv w body).2) w

/-- **What every body keeps, a run keeps.** -/
theorem handled_keeps {srv : Server σ τ} {I : World σ τ → Prop}
    (hstep : ∀ w body, I w → I (handle srv w body).2) :
    ∀ (bodies : List Bytes) {w : World σ τ}, I w → I (handled srv w bodies)
  | [], _, h => h
  | body :: bodies, _, h => handled_keeps hstep bodies (hstep _ body h)

end LuaServer
