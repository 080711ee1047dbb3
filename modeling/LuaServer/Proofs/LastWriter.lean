/-
# The last writer of a document

What a session keeps of its documents is a fold over the updates that it has accepted, oldest first.  An
update sets a document or closes it, and it reads nothing but the document that it replaces
(`Update.apply`).  Which updates are accepted depends on the messages, and on whether the session was
started and is stopping when they come (`accepted`).

Everything else leaves the whole session as it is (`Rejected`): there is no update that is carried out in
part.

Main result: `handled_documents`.
-/
import LuaServer.Proofs.Lifecycle

namespace LuaServer

variable {σ τ : Type}

/-! ## 1. Updates -/

/-- An update of the documents: one gets a text, with a version and a language if they are given, or one
is closed. -/
inductive Update where
  | set (uri t : Text) (version? : Option Int) (languageId? : Option Json)
  | close (uri : Text)

namespace Update

/-- The documents after an update.  A document that is set keeps its place, and what is not given is kept
too; a new one goes to the end, without a version and with the language `lua` unless they are given. -/
def apply (documents : List (Text × Document)) : Update → List (Text × Document)
  | .set uri t version? languageId? =>
    if documents.any (fun d => d.1 = uri) then
      documents.map fun d =>
        if d.1 = uri then (uri, ⟨t, version?.or d.2.version, languageId?.getD d.2.languageId⟩) else d
    else documents ++ [(uri, ⟨t, version?, languageId?.getD (.string "lua")⟩)]
  | .close uri => documents.filter fun d => d.1 ≠ uri

/-- A document is set under a URI that is well formed, and closed under any. -/
def isValid : Update → Bool
  | .set uri _ _ _ => (fsPath? uri).isOk
  | .close _ => true

end Update

/-- A value that is given: null counts as absent. -/
def Json.given? : Json → Option Json
  | .null => none
  | v => some v

/-- The update that a message asks for.  A change with a range asks for none, and nor does one without a
text, or a saving without one. -/
def Envelope.update? (e : Envelope) : Method → Option Update
  | .didOpen => (e.members?.bind openParams?).map fun p =>
    .set p.uri p.text (some p.version) p.languageId.given?
  | .didChange => (e.members?.bind changeParams?).bind fun p =>
    if p.changes.any (·.ranged) then none
    else p.changes.getLast?.map fun c => .set p.uri c.text (some p.version) none
  | .didSave => (e.members?.bind saveParams?).bind fun p => p.text.map fun t => .set p.uri t none none
  | .didClose => (e.members?.bind closeParams?).map .close
  | _ => none

/-! ## 2. Acceptance -/

/-- How far a session has come. -/
structure Stage where
  started : Bool := false
  stopping : Bool := false

/-- How far a session has come after one more body. -/
def Stage.next (read : ReadFile) (stage : Stage) (body : Bytes) : Stage :=
  match admitted? body stage.started stage.stopping with
  | none => stage
  | some (e, m) =>
    { started := stage.started || (m = .start && startCompletes read e.params)
      stopping := stage.stopping || m = .shutdown }

/-- The update that is accepted of a body. -/
def Stage.accepted? (stage : Stage) (body : Bytes) : Option Update :=
  (admitted? body stage.started stage.stopping).bind fun (e, m) => (e.update? m).filter Update.isValid

/-- The updates that are accepted of bodies, in order. -/
def accepted (read : ReadFile) (stage : Stage) : List Bytes → List Update
  | [] => []
  | body :: bodies => (stage.accepted? body).toList ++ accepted read (stage.next read body) bodies

/-- How far a session has come. -/
def Session.stage (s : Session σ τ) : Stage := ⟨s.initialized, s.shutdownRequested⟩

/-- The parameters of a method can be read.  The methods of the life of a session take any. -/
def Envelope.isReadable (e : Envelope) : Method → Bool
  | .start | .initialized | .shutdown | .exit => true
  | .didOpen => (e.members?.bind openParams?).isSome
  | .didChange => (e.members?.bind changeParams?).isSome
  | .didClose => (e.members?.bind closeParams?).isSome
  | .didSave => (e.members?.bind saveParams?).isSome
  | .didChangeConfiguration => (e.members?.bind configurationParams?).isSome
  | .hover | .definition => (e.members?.bind placeParams?).isSome
  | .rename => (e.members?.bind renameParams?).isSome
  | .references => (e.members?.bind referenceParams?).isSome
  | .completion => (e.members?.bind completionParams?).isSome
  | .signatureHelp => (e.members?.bind signatureParams?).isSome

/-- A body is rejected by a session. -/
inductive Rejected (s : Session σ τ) (body : Bytes) : Prop
  /-- It is not a message. -/
  | undecodable {err : DecodeError} (h : decode body = .error err)
  | unknown {e : Envelope} (h : decode body = .ok e) (hm : Method.ofText? e.method = none)
  /-- It comes before the start, and is neither the start nor an exit. -/
  | early {e : Envelope} (h : decode body = .ok e) (hno : s.initialized = false)
      (hm : if e.id.isSome then Method.ofText? e.method ≠ some .start
        else Method.ofText? e.method ≠ some .exit)
  /-- It is a request after a shutdown. -/
  | late {e : Envelope} (h : decode body = .ok e) (hid : e.id.isSome) (hdown : s.shutdownRequested = true)
  /-- It is a second start. -/
  | again {e : Envelope} (h : decode body = .ok e) (hm : Method.ofText? e.method = some .start)
      (hstarted : s.initialized = true)
  | unreadable {e : Envelope} {m : Method} (h : decode body = .ok e)
      (hm : Method.ofText? e.method = some m) (hread : e.isReadable m = false)
  /-- A text is for a URI that is not well formed. -/
  | misplaced {e : Envelope} {m : Method} {u : Update} (h : decode body = .ok e)
      (hm : Method.ofText? e.method = some m) (hu : e.update? m = some u) (hno : u.isValid = false)
  /-- One of its changes is confined to a range. -/
  | ranged {e : Envelope} {p : ChangeParams} {c : Change} (h : decode body = .ok e)
      (hm : Method.ofText? e.method = some .didChange) (hp : e.members?.bind changeParams? = some p)
      (hc : c ∈ p.changes) (hranged : c.ranged = true)

/-! ## 3. One update -/

section
variable {documents : List (Text × Document)}

/-- A table in which each name stands once: setting a name changes its entry, or adds one. -/
theorem Table.insert_next {α : Type} (name : Text) (f : Option α → α) :
    ∀ {t : Table α}, t.keys.Nodup → Table.insert name (f (t.get? name)) t =
      if t.any (fun d => d.1 = name) then t.map fun d => if d.1 = name then (name, f (some d.2)) else d
      else t ++ [(name, f none)]
  | [], _ => rfl
  | (n, v) :: t, h => by
    obtain ⟨hn, ht⟩ := List.nodup_cons.mp h
    have ih := Table.insert_next name f ht
    by_cases hname : n = name
    · subst hname
      -- no other entry has the name, so the rest of the table stays
      have hrest : (t.map fun d => if d.1 = n then (n, f (some d.2)) else d) = t := by
        refine (List.map_congr_left fun d hd => if_neg ?_).trans (List.map_id t)
        intro hd'
        exact hn (hd' ▸ List.mem_map_of_mem (f := (·.1)) hd)
      simp [Table.insert, Table.get?, hrest]
    · rw [Table.insert, if_neg hname, Table.get?, if_neg hname, ih]
      simp only [List.any_cons, hname, decide_false, Bool.false_or, List.map_cons, if_false]
      split <;> rfl

/-- Storing a document is an update. -/
theorem insert_apply (h : (Table.keys documents).Nodup) (uri t : Text) (version? : Option Int)
    (languageId : Json) :
    Table.insert uri (.next (Table.get? uri documents) t version? languageId) documents =
      Update.apply documents (.set uri t version? languageId.given?) := by
  rw [Table.insert_next uri (fun previous => Document.next previous t version? languageId) h,
    Update.apply]
  have hsome : ∀ d : Document, Document.next (some d) t version? languageId =
      ⟨t, version?.or d.version, languageId.given?.getD d.languageId⟩ := by
    intro d
    cases languageId <;> cases version? <;> rfl
  have hnone : Document.next none t version? languageId =
      ⟨t, version?, languageId.given?.getD (.string "lua")⟩ := by
    cases languageId <;> cases version? <;> rfl
  simp only [hsome, hnone]

/-- An update keeps the names of the documents apart. -/
theorem Update.apply_nodup (h : (Table.keys documents).Nodup) (u : Update) :
    (Table.keys (u.apply documents)).Nodup := by
  cases u with
  | close uri => exact h.sublist (List.filter_sublist.map _)
  | set uri t version? languageId? =>
    rw [Update.apply]
    split
    · have hkeys : Table.keys (documents.map fun d =>
          if d.1 = uri then (uri, ⟨t, version?.or d.2.version, languageId?.getD d.2.languageId⟩) else d)
          = Table.keys documents := by
        rw [Table.keys, List.map_map]
        refine List.map_congr_left fun d _ => ?_
        by_cases hd : d.1 = uri <;> simp [hd]
      rwa [hkeys]
    · next hnew =>
      rw [Table.keys, List.map_append]
      refine List.Nodup.append h (List.nodup_singleton uri) ?_
      simp only [List.map_cons, List.map_nil, List.disjoint_singleton]
      intro hmem
      obtain ⟨d, hd, rfl⟩ := List.mem_map.mp hmem
      exact hnew (List.any_eq_true.mpr ⟨d, hd, decide_eq_true rfl⟩)

end

namespace Outline

section
variable (read : ReadFile) (onExit : ExitPolicy) {o : Outline}

theorem store_documents (h : (Table.keys o.documents).Nodup) (uri t : Text) (version : Option Int)
    (languageId : Json) : (o.store uri t version languageId).documents =
      ((some (Update.set uri t version languageId.given?)).filter Update.isValid).elim o.documents
        (Update.apply o.documents) := by
  rw [store, Option.filter_some, Update.isValid]
  cases fsPath? uri with
  | error _ => rfl
  | ok _ => exact insert_apply h uri t version languageId

/-- **A method updates the documents as its message asks,** if the update is valid. -/
theorem call_documents (h : (Table.keys o.documents).Nodup) (m : Method) (e : Envelope) :
    (o.call read onExit m e).documents =
      ((e.update? m).filter Update.isValid).elim o.documents (Update.apply o.documents) := by
  cases m with
  | start =>
    obtain ⟨settings, root, hstart⟩ := o.start_flags read e.params
    rw [call, hstart]
    rfl
  | didOpen =>
    rw [call, Envelope.update?]
    cases e.members?.bind openParams? with
    | none => rfl
    | some p => exact store_documents h _ _ _ _
  | didChange =>
    rw [call, Envelope.update?]
    cases e.members?.bind changeParams? with
    | none => rfl
    | some p =>
      dsimp only [Option.elim_some, Option.bind_some]
      rw [change]
      split
      · rfl
      · cases p.changes.getLast? with
        | none => rfl
        | some c => exact store_documents h _ _ _ _
  | didSave =>
    rw [call, Envelope.update?]
    cases e.members?.bind saveParams? with
    | none => rfl
    | some p =>
      dsimp only [Option.elim_some, Option.bind_some]
      cases p.text with
      | none => rfl
      | some t => exact store_documents h _ _ _ _
  | didClose =>
    rw [call, Envelope.update?]
    cases e.members?.bind closeParams? with
    | none => rfl
    | some uri => rfl
  | didChangeConfiguration =>
    rw [call]
    cases e.members?.bind configurationParams? <;> rfl
  | _ => rfl

end

end Outline

section
variable (srv : Server σ τ) {w : World σ τ} {body : Bytes}

/-- A body updates the documents as it is accepted. -/
theorem handle_documents (h : (Table.keys w.session.documents).Nodup) (body : Bytes) :
    (handle srv w body).2.session.documents =
      (w.session.stage.accepted? body).elim w.session.documents (Update.apply w.session.documents) := by
  have houtline := congrArg Outline.documents (handle_outline srv w body)
  refine houtline.trans ?_
  rw [Outline.handle, Stage.accepted?]
  change Outline.documents ((admitted? body w.session.initialized w.session.shutdownRequested).elim _ _) =
    ((admitted? body w.session.initialized w.session.shutdownRequested).bind _).elim _ _
  cases admitted? body w.session.initialized w.session.shutdownRequested with
  | none => rfl
  | some found => exact Outline.call_documents srv.read srv.onExit h found.2 found.1

/-- A session comes as far as the stages say. -/
theorem handle_stage (w : World σ τ) (body : Bytes) :
    (handle srv w body).2.session.stage = w.session.stage.next srv.read body := by
  rw [Stage.next]
  change _ = match admitted? body w.session.initialized w.session.shutdownRequested with
    | none => _
    | some (e, m) => _
  cases h : admitted? body w.session.initialized w.session.shutdownRequested with
  | none => rw [(handle_barred srv h).1]
  | some found =>
    obtain ⟨hstarted, hstopping, -⟩ := handle_flags srv h
    rw [Session.stage, hstarted, hstopping]
    rfl

/-! ## 4. Rejection -/

/-- A method whose parameters cannot be read does nothing. -/
theorem call_unreadable {e : Envelope} {m : Method} (h : e.isReadable m = false) :
    (call srv m e.params w).2 = w := by
  have hrefused : ∀ {α : Type} {name : String} {read : Members → Option α} {f : α → Act σ τ Json},
      (e.members?.bind read).isSome = false → ((withParams name read e.params >>= f) w).2 = w := by
    intro α name read f hread
    have hnone : e.members?.bind read = none := by simpa using hread
    rw [e.withParams_eq, bind_run, hnone]
    rfl
  cases m with
  | start | initialized | shutdown | exit => cases h
  | _ => exact hrefused h

/-- A text for a URI that is not well formed is not stored. -/
theorem store_misplaced {uri : Text} (h : (fsPath? uri).isOk = false) (t : Text) (version : Option Int)
    (languageId : Json) : ((do
      putDocument uri t version languageId
      let _ ← analyze srv uri
      return Json.null) w).2 = w := by
  rw [bind_run]
  cases hpath : fsPath? uri with
  | ok path => rw [hpath] at h; cases h
  | error err => rw [putDocument_run_error w hpath, andThen_error]

/-- A method that asks for an update that is not valid does nothing. -/
theorem call_misplaced {e : Envelope} {m : Method} {u : Update} (hu : e.update? m = some u)
    (hno : u.isValid = false) : (call srv m e.params w).2 = w := by
  cases m with
  | didOpen =>
    obtain ⟨p, hp, rfl⟩ := Option.map_eq_some_iff.mp hu
    simp only [call, e.withParams_eq, bind_run, hp, pure_run, andThen_ok]
    exact store_misplaced srv hno _ _ _
  | didChange =>
    obtain ⟨p, hp, hlast⟩ := Option.bind_eq_some_iff.mp hu
    simp only [call, e.withParams_eq, bind_run, hp, pure_run, andThen_ok]
    unfold didChange
    split at hlast
    · cases hlast
    · next hwhole =>
      obtain ⟨c, hc, rfl⟩ := Option.map_eq_some_iff.mp hlast
      simp only [if_neg hwhole, hc]
      exact store_misplaced srv hno _ _ _
  | didSave =>
    obtain ⟨p, hp, htext⟩ := Option.bind_eq_some_iff.mp hu
    obtain ⟨t, ht, rfl⟩ := Option.map_eq_some_iff.mp htext
    simp only [call, e.withParams_eq, bind_run, hp, pure_run, andThen_ok]
    unfold didSave
    simp only [ht]
    exact store_misplaced srv hno _ _ _
  | didClose =>
    obtain ⟨uri, -, rfl⟩ := Option.map_eq_some_iff.mp hu
    cases hno
  | _ => cases hu

/-- A change with a range does nothing. -/
theorem call_ranged {e : Envelope} {p : ChangeParams} {c : Change}
    (hp : e.members?.bind changeParams? = some p) (hc : c ∈ p.changes) (hranged : c.ranged = true) :
    (call srv .didChange e.params w).2 = w := by
  simp only [call, e.withParams_eq, bind_run, hp, pure_run, andThen_ok]
  unfold didChange
  rw [if_pos (List.any_eq_true.mpr ⟨c, hc, hranged⟩)]
  rfl

/-- A body changes nothing if its method does nothing. -/
theorem handle_idle {e : Envelope} (h : decode body = .ok e)
    (hidle : ∀ m, Method.ofText? e.method = some m →
      e.admitted? w.session.initialized w.session.shutdownRequested = some m →
        (call srv m e.params w).2.session = w.session) :
    (handle srv w body).2.session = w.session := by
  rw [(handle_carried srv w body).1, carried, h]
  dsimp only [Envelope.carried]
  cases hadmitted : e.admitted? w.session.initialized w.session.shutdownRequested with
  | none => rfl
  | some m => exact hidle m (Envelope.admitted?_eq_some.mp hadmitted).1 hadmitted

/-- **A body that is rejected leaves the session as it is.** -/
theorem handle_rejected (h : Rejected w.session body) : (handle srv w body).2.session = w.session := by
  have hsame : ∀ {e : Envelope} {m : Method}, decode body = .ok e → Method.ofText? e.method = some m →
      (call srv m e.params w).2 = w → (handle srv w body).2.session = w.session := by
    intro e m hdecode hm hcall
    refine handle_idle srv hdecode fun m' hm' _ => ?_
    obtain rfl := Option.some.inj (hm.symm.trans hm')
    rw [hcall]
  cases h with
  | undecodable hdecode => rw [(handle_carried srv w body).1, carried, hdecode]
  | unknown hdecode hm =>
    refine handle_idle srv hdecode fun m hm' _ => ?_
    rw [hm] at hm'
    cases hm'
  | early hdecode hno hm =>
    refine handle_idle srv hdecode fun m hm' hadmitted => ?_
    rw [hno] at hadmitted
    rcases (Envelope.admitted?_eq_some.mp hadmitted).2 with ⟨id, hid, hstart, -⟩ | ⟨hid, hexit⟩
    · simp [hid, hm', hstart.resolve_left Bool.false_ne_true] at hm
    · simp [hid, hm', hexit.resolve_left Bool.false_ne_true] at hm
  | late hdecode hid hdown =>
    refine handle_idle srv hdecode fun m hm' hadmitted => ?_
    rcases (Envelope.admitted?_eq_some.mp hadmitted).2 with ⟨id, -, -, hno⟩ | ⟨hnone, -⟩
    · rw [hdown] at hno
      cases hno
    · rw [hnone] at hid
      cases hid
  | again hdecode hm hstarted =>
    refine hsame hdecode hm ?_
    change (startSession srv _ w).2 = w
    rw [startSession, bind_run, session_run, andThen_ok, if_pos hstarted]
    rfl
  | unreadable hdecode hm hread => exact hsame hdecode hm (call_unreadable srv hread)
  | misplaced hdecode hm hu hno => exact hsame hdecode hm (call_misplaced srv hu hno)
  | ranged hdecode hm hp hc hranged => exact hsame hdecode hm (call_ranged srv hp hc hranged)

/-! ## 5. Runs -/

theorem handled_apply : ∀ (bodies : List Bytes) {w : World σ τ},
    (Table.keys w.session.documents).Nodup → (handled srv w bodies).session.documents =
      (accepted srv.read w.session.stage bodies).foldl Update.apply w.session.documents
  | [], _, _ => rfl
  | body :: bodies, w, h => by
    have hfirst := handle_documents srv h body
    have hnodup : (Table.keys (handle srv w body).2.session.documents).Nodup := by
      rw [hfirst]
      cases w.session.stage.accepted? body with
      | none => exact h
      | some u => exact Update.apply_nodup h u
    have hrest := handled_apply bodies hnodup
    rw [handle_stage srv w body, hfirst] at hrest
    rw [accepted, List.foldl_append]
    refine hrest.trans ?_
    cases w.session.stage.accepted? body <;> rfl

section
variable {read : ReadFile} {started stopping : Bool} {bodies : List Bytes}

/-- Nothing is accepted of a body that is not let in. -/
theorem accepted_barred (h : admitted? body started stopping = none) :
    accepted read ⟨started, stopping⟩ (body :: bodies) = accepted read ⟨started, stopping⟩ bodies := by
  rw [accepted, Stage.accepted?, Stage.next, h]
  rfl

/-- After a start that comes to its end the session is started. -/
theorem accepted_start {e : Envelope} (h : admitted? body started stopping = some (e, .start))
    (hcompletes : startCompletes read e.params = true) :
    accepted read ⟨started, stopping⟩ (body :: bodies) = accepted read ⟨true, stopping⟩ bodies := by
  rw [accepted, Stage.accepted?, Stage.next, h]
  simp [hcompletes, Envelope.update?]

/-- A session that is started accepts of a notification the update that it asks for. -/
theorem accepted_notificationBody {m : Method} {params : List (String × Json)}
    (h : (Json.object params).Plain) :
    accepted read ⟨true, stopping⟩ (notificationBody m params :: bodies) =
      ((Envelope.update? ⟨text m.name, none, some (Json.object params)⟩ m).filter Update.isValid).toList ++
        accepted read ⟨true, stopping || m = .shutdown⟩ bodies := by
  rw [accepted, Stage.accepted?, Stage.next, admitted?_notificationBody m true stopping h]
  rfl

end

/-- **The last writer wins.**  Whatever bodies a fresh session has handled, its documents are what the
accepted updates make of none, one after the other; until the session is started there are none; and a
body that is rejected leaves the whole session as it is. -/
theorem handled_documents (memory : σ) (bodies : List Bytes) :
    let w := handled srv (Connection.fresh memory : Connection σ τ).world bodies
    w.session.documents = (accepted srv.read {} bodies).foldl Update.apply [] ∧
      (w.session.initialized = false → w.session.documents = []) ∧
      ∀ body, Rejected w.session body → (handle srv w body).2.session = w.session := by
  intro w
  refine ⟨handled_apply srv bodies List.nodup_nil, fun hno => ?_, fun body h => handle_rejected srv h⟩
  have horderly : Orderly memory w.session :=
    handled_orderly srv ⟨fun _ => rfl, fun h => absurd h Bool.false_ne_true⟩ bodies
  rw [horderly.early hno]

end

/-- Two documents are opened, one of them again before the start as well, which does not count.  The first
gets two texts at once, of which the last one stays, and the second is saved with its text; both keep their
places.  A change whose second text has a range leaves everything as it is. -/
theorem handled_documents_edited :
    let srv := luaServer (fun _ => none) .note
    let doc (uri : String) (version : Nat) (t : String) := ("textDocument", Json.object
      [("uri", .string uri), ("languageId", .string "lua"), ("version", .nat version), ("text", .string t)])
    let changes (items : List Json) := ("contentChanges", Json.arr items)
    let whole (t : String) := Json.object [("text", .string t)]
    let place := Json.object [("line", .nat 0), ("character", .nat 0)]
    let bodies := [
      notificationBody .didOpen [doc "a.lua" 1 "early"],
      requestBody 1 .start [],
      notificationBody .didOpen [doc "a.lua" 1 "local a"],
      notificationBody .didOpen [doc "b.lua" 7 "local b"],
      notificationBody .didChange [doc "a.lua" 2 "", changes [whole "local c", whole "local d"]],
      notificationBody .didSave [doc "b.lua" 9 "", ("text", .string "local e")]]
    let mixed := notificationBody .didChange [doc "a.lua" 3 "", changes [whole "local f",
      Json.object [("text", .string "g"), ("range", Json.object [("start", place), ("end", place)])]]]
    let w := handled srv (Connection.fresh ()).world bodies
    w.session.documents.map (fun d => (d.1, d.2.text, d.2.version)) =
        [(text "a.lua", text "local d", some 2), (text "b.lua", text "local e", some 7)] ∧
      (handled srv (Connection.fresh ()).world (bodies.take 1)).session.documents = [] ∧
      (handle srv w mixed).2.session = w.session := by
  intro srv doc changes whole place bodies mixed w
  -- the run is written out in the goal, as it would be carried out where it is compared with its name
  have hrun : w = handled srv (Connection.fresh ()).world bodies := rfl
  have hdropped : admitted? (notificationBody .didOpen [doc "a.lua" 1 "early"]) false false = none :=
    admitted?_notificationBody .didOpen false false (by decide +kernel)
  have hstart : admitted? (requestBody 1 .start []) false false = some (⟨_, _, _⟩, .start) :=
    admitted?_requestBody .start false false (by decide) (by decide)
  rw [hrun]
  refine ⟨?_, (handled_documents srv () (bodies.take 1)).2.1 ?_,
    (handled_documents srv () bodies).2.2 mixed ?_⟩
  · rw [(handled_documents srv () bodies).1, accepted_barred hdropped,
      accepted_start hstart (by decide +kernel), accepted_notificationBody (by decide +kernel),
      accepted_notificationBody (by decide +kernel), accepted_notificationBody (by decide +kernel),
      accepted_notificationBody (by decide +kernel)]
    decide +kernel
  · exact congrArg Session.initialized (handle_barred srv hdropped).1
  · have hmixed : ∃ params, mixed = notificationBody .didChange params ∧ (Json.object params).Plain ∧
        ((Json.object params).members?.bind changeParams?).any (·.changes.any (·.ranged)) = true :=
      ⟨_, rfl, by decide +kernel, by decide +kernel⟩
    obtain ⟨params, hbody, hplain, hranged⟩ := hmixed
    obtain ⟨p, hp, hany⟩ := (Option.any_eq_true _ _).mp hranged
    obtain ⟨c, hc, hrange⟩ := List.any_eq_true.mp hany
    rw [hbody]
    exact .ranged (decode_notificationBody .didChange hplain) (Method.ofText?_name _) hp hc hrange

end LuaServer
