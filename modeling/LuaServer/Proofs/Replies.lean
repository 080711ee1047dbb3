/-
# One reply to each request

A request is answered exactly once, with its own id, after any notices that its handling writes.  A
notification is never answered.  A body that is no message is answered with an error if an id can be
recovered from it, and it leaves the session as it is.

A reply could be missing only if it could not be written.  So everything that goes into one is free of
surrogates: results, the wording of refusals, and the wording of crashes.  `Notifies` says of a step that
what it writes are notices, and that its result or its failure can be told; it holds of a step if it
holds of the steps in it.

Main result: `handle_replies`.
-/
import LuaServer.Proofs.Inspection
import LuaServer.Proofs.Messages
import LuaServer.Proofs.Payloads
import LuaServer.Proofs.Reports
import LuaServer.Proofs.Wordings

namespace LuaServer

variable {σ τ α β : Type}

/-! ## 1. Steps that write notices -/

/-- A failure can be told to the client, and the process does not end. -/
def Failure.Tellable : Failure → Prop
  | .refused e => Clean e.message ∧ e.data.Clean
  | .crashed c => Clean c.message
  | .exited _ => False

/-- All that a step writes are notices; its result is as `Q` says, or its failure can be told. -/
structure Notifies (Q : α → Prop) (x : Act σ τ α) : Prop where
  sent : ∀ w, ∃ ns, (∀ n ∈ ns, IsNotice n) ∧ (x w).2.sent = w.sent ++ ns
  result : ∀ w a, (x w).1 = .ok a → Q a
  failure : ∀ w f, (x w).1 = .error f → f.Tellable

namespace Notifies

section
variable {P Q : α → Prop} {x : Act σ τ α}

/-- A step that writes nothing and succeeds. -/
theorem quiet {g : World σ τ → α} {h : World σ τ → World σ τ} (hrun : ∀ w, x w = (.ok (g w), h w))
    (hsent : ∀ w, (h w).sent = w.sent) (hQ : ∀ w, Q (g w)) : Notifies Q x := by
  refine ⟨fun w => ⟨[], nofun, ?_⟩, fun w a ha => ?_, fun w f hf => ?_⟩
  · rw [hrun, List.append_nil]
    exact hsent w
  · rw [hrun] at ha
    cases ha
    exact hQ w
  · rw [hrun] at hf
    cases hf

/-- A step that writes nothing and fails. -/
theorem fails {f : Failure} (hrun : ∀ w, x w = (.error f, w)) (hf : f.Tellable) : Notifies Q x := by
  refine ⟨fun w => ⟨[], nofun, ?_⟩, fun w a ha => ?_, fun w g hg => ?_⟩
  · rw [hrun, List.append_nil]
  · rw [hrun] at ha
    cases ha
  · rw [hrun] at hg
    cases hg
    exact hf

theorem pure {a : α} (h : Q a) : Notifies Q (Pure.pure a : Act σ τ α) :=
  quiet (h := id) (fun _ => rfl) (fun _ => rfl) fun _ => h

/-- A refusal writes nothing, and its message can be sent. -/
theorem refuse {code : ErrorCode} {message : Text} {data : Json} (hmessage : Clean message)
    (hdata : data.Clean) : Notifies Q (LuaServer.refuse code message data : Act σ τ α) :=
  fails (fun _ => rfl) ⟨hmessage, hdata⟩

theorem session : Notifies (fun _ => True) (LuaServer.session : Act σ τ _) :=
  quiet (h := id) (fun _ => rfl) (fun _ => rfl) fun _ => trivial

/-- A change of the session writes nothing. -/
theorem modifySession (f : Session σ τ → Session σ τ) :
    Notifies (fun _ => True) (LuaServer.modifySession f) :=
  quiet (fun _ => rfl) (fun _ => rfl) fun _ => trivial

theorem record (level : Level) (message : Text) (crash : Option Crash) :
    Notifies (fun _ => True) (LuaServer.record level message crash : Act σ τ Unit) :=
  quiet (fun _ => rfl) (fun _ => rfl) fun _ => trivial

/-- A crash writes nothing, and its message can be sent. -/
theorem orCrash {r : Except Crash α} (hok : ∀ a, r = .ok a → Q a)
    (herror : ∀ c, r = .error c → Clean c.message) : Notifies Q (LuaServer.orCrash r : Act σ τ α) := by
  cases r with
  | ok a => exact pure (hok a rfl)
  | error c => exact fails (fun _ => rfl) (herror c rfl)

/-- A notice is written. -/
theorem send {m : Json} (h : IsNotice m) :
    Notifies (fun _ => True) (LuaServer.send m : Act σ τ Unit) := by
  cases hencode : encode m with
  | ok body =>
    refine ⟨fun w => ⟨[m], by simpa using h, ?_⟩, fun _ _ _ => trivial, fun w f hf => ?_⟩
    · rw [send_run w hencode]
    · rw [send_run w hencode] at hf
      cases hf
  | error u =>
    exact fails (fun w => send_run_error w hencode) (Crash.Inner.clean (c := .unencodable u) trivial)

/-- One step after another, with what the first one gives. -/
theorem bind {Q : β → Prop} {f : α → Act σ τ β} (hx : Notifies P x)
    (hf : ∀ a, P a → Notifies Q (f a)) : Notifies Q (x >>= f) := by
  have hcases : ∀ w, (∃ e, (x >>= f) w = (.error e, (x w).2) ∧ e.Tellable) ∨
      ∃ a, P a ∧ (x >>= f) w = f a (x w).2 := by
    intro w
    rw [bind_run]
    rcases hrun : x w with ⟨e | a, w'⟩
    · exact .inl ⟨e, rfl, hx.failure w e (congrArg Prod.fst hrun)⟩
    · exact .inr ⟨a, hx.result w a (congrArg Prod.fst hrun), rfl⟩
  refine ⟨fun w => ?_, fun w b hb => ?_, fun w e he => ?_⟩
  · obtain ⟨ns, hns, hsent⟩ := hx.sent w
    rcases hcases w with ⟨e, hrun, -⟩ | ⟨a, ha, hrun⟩
    · rw [hrun]
      exact ⟨ns, hns, hsent⟩
    · obtain ⟨ms, hms, hsent'⟩ := (hf a ha).sent (x w).2
      rw [hrun]
      refine ⟨ns ++ ms, fun n hn => (List.mem_append.mp hn).elim (hns n) (hms n), ?_⟩
      rw [hsent', hsent, List.append_assoc]
  · rcases hcases w with ⟨e, hrun, -⟩ | ⟨a, ha, hrun⟩
    · rw [hrun] at hb
      cases hb
    · rw [hrun] at hb
      exact (hf a ha).result _ b hb
  · rcases hcases w with ⟨e', hrun, htell⟩ | ⟨a, ha, hrun⟩
    · rw [hrun] at he
      cases he
      exact htell
    · rw [hrun] at he
      exact (hf a ha).failure _ e he

/-- Params that do not fit are refused, with a message of fixed words. -/
theorem withParams {Q : β → Prop} {e : Envelope} {name : String} {read : Members → Option α}
    {f : α → Act σ τ β} (hf : ∀ a, e.members?.bind read = some a → Notifies Q (f a)) :
    Notifies Q (LuaServer.withParams name read e.params >>= f) := by
  rw [e.withParams_eq]
  cases ha : e.members?.bind read with
  | none =>
    exact (refuse (Q := fun _ => False) (by simp) Json.clean_null).bind nofun
  | some a =>
    exact (pure (Q := (· = a)) rfl).bind fun b hb => hb ▸ hf a ha

end

end Notifies

/-! ## 2. Analyses -/

section
variable (read : ReadFile) (onExit : ExitPolicy)

/-- The diagnostics of a document are published by one notice. -/
theorem publish_notifies (uri : Text) (ds : List Diagnostic) :
    Notifies (fun _ => True) (publish uri ds : Act σ τ Unit) :=
  (Notifies.modifySession _).bind fun _ _ => Notifies.session.bind fun _ _ =>
    .send (isNotice_publishJson ..)

/-- A text that is refused is published with its one diagnostic, or with none. -/
theorem reportRefusal_notifies (uri message : Text) :
    Notifies (fun _ => True) (reportRefusal uri message : Act σ τ Unit) := by
  refine (Notifies.modifySession _).bind fun _ _ => ?_
  refine (Notifies.orCrash (Q := fun _ => True) (fun _ _ => trivial)
    fun c hc => (ofRefusal_misplaced hc).inner.clean).bind fun d _ => ?_
  split
  · exact (Notifies.record _ _ _).bind fun _ _ => publish_notifies uri []
  · exact publish_notifies uri _

/-- A tree that an analysis gives. -/
def LuaTree.Genuine (t : LuaTree) : Prop :=
  ∃ source uri settings, Lua.parse source uri = .ok t.chunk ∧
    t.types = (Lua.check settings t.chunk).types

/-- An analysis writes one notice, and its tree is that of a text that was read. -/
theorem analyze_notifies (uri : Text) :
    Notifies (fun tree => ∀ t ∈ tree, LuaTree.Genuine t) (analyze (luaServer read onExit) uri) := by
  refine Notifies.session.bind fun s _ => ?_
  split
  · exact .pure nofun
  · next doc hdoc =>
    cases hparse : Lua.parse doc.text uri with
    | error e =>
      simp only [luaServer, luaFrontEnd, hparse]
      exact (reportRefusal_notifies uri _).bind fun _ _ => .pure nofun
    | ok c =>
      simp only [luaServer, luaFrontEnd, hparse]
      refine (Notifies.orCrash (Q := fun _ => True) (fun _ _ => trivial)
        fun c hc => (diagnosticsOf_misplaced hc).inner.clean).bind fun ds _ => ?_
      refine (publish_notifies uri ds).bind fun _ _ => ?_
      split
      · exact (Notifies.record _ _ _).bind fun _ _ => (Notifies.modifySession _).bind fun _ _ =>
          .pure nofun
      · refine (Notifies.modifySession _).bind fun _ _ => .pure fun t ht => ?_
        cases ht
        exact ⟨doc.text, uri, s.analysis, hparse, rfl⟩

/-- What is shown of a place can be sent if the name and the type can. -/
theorem clean_hoverText {o : Occurrence} (hname : Clean o.name) (htype : ∀ t ∈ o.type, Clean t) :
    Clean (hoverText o) := by
  unfold hoverText
  rcases htext : o.type with _ | (_ | ⟨c, cs⟩)
  · simp [hname]
  · simp [hname]
  · have htype : Clean (c :: cs) := htype _ htext
    simpa [hname] using htype

/-- What a hover says about an identifier of a document can be told. -/
theorem LuaTree.Genuine.clean {t : LuaTree} (h : t.Genuine) :
    ∀ o ∈ (luaFrontEnd.visit () t).1, Clean (hoverText o) := by
  obtain ⟨source, uri, settings, hparse, htypes⟩ := h
  intro o ho
  obtain ⟨i, hi, rfl⟩ := List.mem_map.mp ho
  obtain ⟨n, hn, hi⟩ := List.mem_filterMap.mp hi
  obtain ⟨b, -, rfl⟩ := Option.map_eq_some_iff.mp hi
  have hname := Lua.names_clean hparse n hn
  have htype : Clean (t.types.of n.binding).text := by
    rw [htypes]
    exact (Lua.check_types hparse settings n.binding).text
  exact clean_hoverText hname (by simpa [Occurrence.ofIdentifier] using htype)

/-- The occurrences in the tree of a text can be shown. -/
theorem visit_notifies {t : LuaTree} (h : t.Genuine) :
    Notifies (fun os => ∀ o ∈ os, Clean (hoverText o)) (visit (luaServer read onExit) t) :=
  .quiet (h := id) (fun _ => visit_run read onExit t) (fun _ => rfl) fun _ => h.clean

/-- The occurrence at a place is one of those in the tree. -/
theorem bestAt_mem {line column : Int} {os : List Occurrence} {o : Occurrence}
    (h : bestAt line column os = some o) : o ∈ os := by
  have hfold : ∀ f : Option Occurrence → Occurrence → Option Occurrence,
      (∀ best x, f best x = some o → best = some o ∨ x = o) →
        ∀ (xs : List Occurrence) (best : Option Occurrence), xs.foldl f best = some o →
          best = some o ∨ o ∈ xs := by
    intro f hf xs
    induction xs with
    | nil => exact fun best h => .inl h
    | cons x xs ih =>
      intro best h
      rcases ih _ h with heq | hmem
      · rcases hf best x heq with hbest | rfl
        · exact .inl hbest
        · exact .inr List.mem_cons_self
      · exact .inr (List.mem_cons_of_mem x hmem)
  have hmem := hfold _ (fun best x hx => ?_) _ none h
  · exact (List.mem_filter.mp (hmem.resolve_left nofun)).1
  · split at hx
    · exact .inr (Option.some.inj hx)
    · split at hx
      · exact .inr (Option.some.inj hx)
      · exact .inl hx

/-! ## 3. Methods -/

/-- A place that names nothing is refused. -/
theorem resolve_notifies {place : PlaceParams} (huri : Clean place.uri) :
    Notifies (fun r => LuaTree.Genuine r.1 ∧ Clean (hoverText r.2))
      (resolve (luaServer read onExit) place) := by
  refine (analyze_notifies read onExit place.uri).bind fun tree htree => ?_
  cases tree with
  | none => exact .refuse (by simp [huri]) (by simp [huri])
  | some tree =>
    have hgenuine := htree tree rfl
    refine (visit_notifies read onExit hgenuine).bind fun os hos => ?_
    split
    · next o ho => exact .pure ⟨hgenuine, hos o (bestAt_mem ho)⟩
    · exact .refuse (clean_text _) (by simp [huri])

/-- The occurrences that are the same are looked up without a notice. -/
theorem matching_notifies {t : LuaTree} (h : t.Genuine) (o : Occurrence) :
    Notifies (fun _ => True) (matching (luaServer read onExit) t o) :=
  (visit_notifies read onExit h).bind fun _ _ => .pure trivial

theorem span_notifies (o : Occurrence) : Notifies (fun _ => True) (orCrash o.span : Act σ τ Span) :=
  .orCrash (fun _ _ => trivial) fun _ hc => (span_make_misplaced hc).inner.clean

theorem spans_notifies (os : List Occurrence) :
    Notifies (fun _ => True) (orCrash (spansOf os) : Act σ τ (List Span)) :=
  .orCrash (fun _ _ => trivial) fun _ hc => (spansOf_misplaced hc).inner.clean

@[simp] theorem clean_span (s : Span) : s.toJson.Clean := by simp [Span.toJson, Position.toJson]

/-- A location can be sent if its URI can. -/
theorem clean_locationJson {uri : Text} (h : Clean uri) (s : Span) : (locationJson uri s).Clean := by
  simp [locationJson, h]

/-- What is shown of an occurrence is a text that can be sent. -/
theorem hover_notifies {place : PlaceParams} (huri : Clean place.uri) :
    Notifies Json.Clean (hover (luaServer read onExit) place) := by
  refine (resolve_notifies read onExit huri).bind fun r hr => ?_
  refine (span_notifies r.2).bind fun s _ => .pure ?_
  simp [hoverJson, hr.2]

/-- The edits show the new name and the URI. -/
theorem rename_notifies {p : RenameParams} (huri : Clean p.place.uri) (hname : Clean p.newName) :
    Notifies Json.Clean (rename (luaServer read onExit) p) := by
  unfold rename
  split
  · refine (resolve_notifies read onExit huri).bind fun r hr => ?_
    refine (matching_notifies read onExit hr.1 r.2).bind fun os _ => ?_
    refine (spans_notifies os).bind fun spans _ => .pure ?_
    simp [editsJson, huri, hname]
  · exact .refuse (by simp [hname]) Json.clean_null

/-- Locations show the URI and places. -/
theorem references_notifies {place : PlaceParams} (huri : Clean place.uri) :
    Notifies Json.Clean (references (luaServer read onExit) place) := by
  refine (resolve_notifies read onExit huri).bind fun r hr => ?_
  refine (matching_notifies read onExit hr.1 r.2).bind fun os _ => ?_
  refine (spans_notifies os).bind fun spans _ => .pure ?_
  simpa using fun s _ => clean_locationJson huri s

theorem definition_notifies {place : PlaceParams} (huri : Clean place.uri) :
    Notifies Json.Clean (definition (luaServer read onExit) place) := by
  refine (resolve_notifies read onExit huri).bind fun r hr => ?_
  refine (matching_notifies read onExit hr.1 r.2).bind fun os _ => ?_
  split
  · exact .fails (fun _ => rfl) (Crash.Inner.clean (c := .lostSymbol) trivial)
  · exact (span_notifies _).bind fun s _ => .pure (clean_locationJson huri s)

/-- A document is stored without a notice. -/
theorem putDocument_notifies {uri : Text} (huri : Clean uri) (t : Text) (version : Option Int)
    (languageId : Json) :
    Notifies (fun _ => True) (putDocument uri t version languageId : Act σ τ Unit) := by
  cases hpath : fsPath? uri with
  | error e =>
    exact .fails (fun w => putDocument_run_error w hpath t version languageId)
      (fsPath?_clean huri hpath)
  | ok path =>
    exact .quiet (fun w => putDocument_run w hpath t version languageId) (fun _ => rfl)
      fun _ => trivial

theorem analyzed_notifies (uri : Text) :
    Notifies Json.Clean (do
      let _ ← analyze (luaServer read onExit) uri
      return Json.null) :=
  (analyze_notifies read onExit uri).bind fun _ _ => .pure Json.clean_null

/-- Each of the analyses writes its own notice. -/
theorem analyzeAll_notifies : ∀ uris : List Text,
    Notifies (fun _ => True) (analyzeAll (luaServer read onExit) uris)
  | [] => .pure trivial
  | uri :: uris => (analyze_notifies read onExit uri).bind fun _ _ => analyzeAll_notifies uris

/-- The start answers with a fixed value.  The message of a crash over the root shows members of the
params. -/
theorem startSession_notifies {params : Option Json} (h : ∀ v ∈ params, v.Clean) :
    Notifies Json.Clean (startSession (luaServer read onExit) params) := by
  have hmembers : CleanMembers ((params.bind Json.members?).getD []) := by
    cases hms : params.bind Json.members? with
    | none => nofun
    | some ms =>
      obtain ⟨v, hv, hms⟩ := Option.bind_eq_some_iff.mp hms
      exact members?_clean (h v hv) hms
  refine Notifies.session.bind fun s _ => ?_
  split
  · exact .refuse (clean_text _) Json.clean_null
  · refine (Notifies.orCrash (Q := fun _ => True) (fun _ _ => trivial)
      fun c hc => rootOf_clean hmembers hc).bind fun root _ => ?_
    refine (Notifies.modifySession _).bind fun _ _ => ?_
    refine (Notifies.orCrash (Q := fun _ => True) (fun _ _ => trivial)
      fun c hc => (projectLayer_inner hc).clean).bind fun layer _ => ?_
    refine (Notifies.modifySession _).bind fun _ _ => (Notifies.modifySession _).bind fun _ _ => ?_
    refine (Notifies.modifySession _).bind fun _ _ => Notifies.session.bind fun s _ => ?_
    exact (Notifies.record _ _ _).bind fun _ _ => .pure (by decide)

/-- Where the exit is noted and not carried out, it is answered with nothing. -/
theorem exit_notifies : Notifies Json.Clean (exit (luaServer read .note)) :=
  .quiet (fun _ => rfl) (fun _ => rfl) fun _ => Json.clean_null

/-- **Every method writes nothing but notices, and its result or failure can be told.** -/
theorem call_notifies {e : Envelope} (h : e.Clean) (m : Method) :
    Notifies Json.Clean (call (luaServer read .note) m e.params) := by
  cases m with
  | start => exact startSession_notifies read .note h.params
  | initialized => exact .pure Json.clean_null
  | shutdown => exact (Notifies.modifySession _).bind fun _ _ => .pure Json.clean_null
  | exit => exact exit_notifies read
  | didOpen =>
    refine .withParams fun p hp => ?_
    obtain ⟨ms, hclean, hread⟩ := h.read hp
    exact (putDocument_notifies (openParams?_clean hclean hread).1 _ _ _).bind fun _ _ =>
      analyzed_notifies read .note p.uri
  | didChange =>
    refine .withParams fun p hp => ?_
    obtain ⟨ms, hclean, hread⟩ := h.read hp
    have huri := (changeParams?_clean hclean hread).1
    unfold didChange
    split
    · exact .refuse (by simp [huri]) (by simp [huri])
    · split
      · exact .pure Json.clean_null
      · exact (putDocument_notifies huri _ _ _).bind fun _ _ => analyzed_notifies read .note p.uri
  | didClose =>
    exact .withParams fun uri _ => (Notifies.modifySession _).bind fun _ _ =>
      (Notifies.send (isNotice_publishJson ..)).bind fun _ _ => .pure Json.clean_null
  | didSave =>
    refine .withParams fun p hp => ?_
    obtain ⟨ms, hclean, hread⟩ := h.read hp
    unfold didSave
    split
    · exact (putDocument_notifies (saveParams?_clean hclean hread).1 _ _ _).bind fun _ _ =>
        analyzed_notifies read .note p.uri
    · exact analyzed_notifies read .note p.uri
  | didChangeConfiguration =>
    exact .withParams fun settings _ => (Notifies.modifySession _).bind fun _ _ =>
      Notifies.session.bind fun _ _ => (analyzeAll_notifies read .note _).bind fun _ _ =>
        .pure Json.clean_null
  | hover =>
    refine .withParams fun place hp => ?_
    obtain ⟨ms, hclean, hread⟩ := h.read hp
    exact hover_notifies read .note (placeParams?_clean hclean hread)
  | rename =>
    refine .withParams fun p hp => ?_
    obtain ⟨ms, hclean, hread⟩ := h.read hp
    obtain ⟨huri, hname⟩ := renameParams?_clean hclean hread
    exact rename_notifies read .note huri hname
  | references =>
    refine .withParams fun place hp => ?_
    obtain ⟨ms, hclean, hread⟩ := h.read hp
    exact references_notifies read .note (referenceParams?_clean hclean hread)
  | definition =>
    refine .withParams fun place hp => ?_
    obtain ⟨ms, hclean, hread⟩ := h.read hp
    exact definition_notifies read .note (placeParams?_clean hclean hread)
  | completion => exact .withParams fun _ _ => .pure (by decide)
  | signatureHelp => exact .withParams fun _ _ => .pure Json.clean_null

/-- Every method writes notices only, and what it answers can be sent. -/
theorem answer_notifies {e : Envelope} (h : e.Clean) :
    Notifies Json.Clean (answer (luaServer read .note) e) := by
  refine Notifies.session.bind fun s _ => ?_
  dsimp only
  split
  · exact .refuse (clean_text _) Json.clean_null
  · split
    · exact .refuse (by simp [h.method]) Json.clean_null
    · split
      · exact .refuse (clean_text _) Json.clean_null
      · exact call_notifies read h _

end

/-! ## 4. Messages -/

/-- An error can be sent if its message, its data and its id can. -/
theorem clean_errorResponse {id : Json} (hid : id.Clean) {e : RpcError} (hmessage : Clean e.message)
    (hdata : e.data.Clean) : (errorResponse id e).Clean := by
  have herror : e.toJson.Clean := by
    unfold RpcError.toJson
    split <;> simp_all
  simp [errorResponse, hid, herror]

/-- A message without surrogates is written. -/
theorem send_run_of_clean {m : Json} (h : m.Clean) (w : World σ τ) :
    (send m : Act σ τ Unit) w = (.ok (), { w with sent := w.sent ++ [m] }) := by
  obtain ⟨body, hencode⟩ := encode_of_clean h
  exact send_run w hencode

section
variable (read : ReadFile)

/-- What follows the notices is one response with the id of the request. -/
def Answered (id : Json) (w w' : World σ τ) : Prop :=
  ∃ notices reply, (∀ n ∈ notices, IsNotice n) ∧ IsResponse id reply ∧
    w'.sent = w.sent ++ notices ++ [reply]

/-- **A request is answered once.** -/
theorem handleRequest_answers {e : Envelope} (h : e.Clean) {id : Json} (hid : id.Clean)
    (w : World Unit LuaTree) :
    ∃ w', handleRequest (luaServer read .note) id e w = (.ok (), w') ∧ Answered id w w' := by
  have hanswer := answer_notifies read h
  obtain ⟨notices, hnotices, hsent⟩ := hanswer.sent w
  rw [handleRequest, bind_run, attempt]
  rcases hrun : answer (luaServer read .note) e w with ⟨(err | c | status) | result, w'⟩
  all_goals rw [hrun] at hsent; dsimp only at hsent
  · obtain ⟨hmessage, hdata⟩ := hanswer.failure w (.refused err) (congrArg Prod.fst hrun)
    refine ⟨_, send_run_of_clean (clean_errorResponse hid hmessage hdata) _, notices, _, hnotices,
      isResponse_error id err, ?_⟩
    rw [← hsent]
  · have hmessage : Clean c.message := hanswer.failure w (.crashed c) (congrArg Prod.fst hrun)
    have hclean : Clean c.toRpc.message := by simpa [Crash.toRpc] using hmessage
    refine ⟨_, send_run_of_clean (clean_errorResponse hid hclean Json.clean_null) _, notices, _,
      hnotices, isResponse_error id c.toRpc, ?_⟩
    rw [← hsent]
  · exact (hanswer.failure w (.exited status) (congrArg Prod.fst hrun)).elim
  · have hresult := hanswer.result w result (congrArg Prod.fst hrun)
    have hclean : (resultResponse id result).Clean := by simp [resultResponse, hid, hresult]
    refine ⟨_, send_run_of_clean hclean _, notices, _, hnotices, isResponse_result id result, ?_⟩
    rw [← hsent]

/-- **A notification is not answered.** -/
theorem handleNotification_notifies {e : Envelope} (h : e.Clean) (w : World Unit LuaTree) :
    ∃ w' notices, handleNotification (luaServer read .note) e w = (.ok (), w') ∧
      (∀ n ∈ notices, IsNotice n) ∧ w'.sent = w.sent ++ notices := by
  rcases handleNotification_cases (luaServer read .note) e w with ⟨log, hrun⟩ | ⟨m, -, -, hcall⟩
  · exact ⟨_, [], hrun, nofun, (List.append_nil _).symm⟩
  · have hnotifies := call_notifies read h m
    rcases hcall with ⟨status, w', hcall, -⟩ | ⟨log, hrun⟩
    · exact (hnotifies.failure w (.exited status) (congrArg Prod.fst hcall)).elim
    · obtain ⟨notices, hnotices, hsent⟩ := hnotifies.sent w
      exact ⟨_, notices, hrun, hnotices, hsent⟩

/-- The id of a message is null, a boolean, a number or a string. -/
theorem decode_id_scalar {body : Bytes} {e : Envelope} (h : decode body = .ok e) :
    ∀ id ∈ e.id, id.isScalar = true := by
  intro id hid
  unfold decode at h
  split at h
  · cases h
  · split at h
    · cases h
    · next ms _ =>
      unfold Envelope.ofMembers at h
      split at h
      · next hproblems _ =>
        cases h
        have hnone : idProblems ms = [] := by
          simp only [problems, List.append_eq_nil_iff] at hproblems
          exact hproblems.1.2
        have hget : Table.get? (text "id") ms = some id := hid
        rw [idProblems, hget] at hnone
        by_contra hscalar
        simp [hscalar] at hnone
      · cases h
    · cases h

/-- **One reply to each request.**  Whatever the session is, and whatever body without half pairs comes,
its handling goes through, and what it writes is this.

* A request gets any number of notices and then one response, with its own id and either a result or an
  error.
* A notification gets notices only, and these are no responses.
* A body that is no message gets one error with the recovered id, or nothing if there is none, and the
  session stays as it is. -/
theorem handle_replies {body : Bytes} (hclean : CleanBody body) (w : World Unit LuaTree) :
    ∃ w', handle (luaServer read .note) w body = (none, w') ∧
      match decode body with
      | .ok e =>
        match e.id with
        | some id => id.isScalar = true ∧ Answered id w w'
        | none => ∃ notices, (∀ n ∈ notices, IsNotice n ∧ ∀ id, ¬IsResponse id n) ∧
            w'.sent = w.sent ++ notices
      | .error e =>
        w'.session = w.session ∧
          match e.id with
          | some id => ∃ reply, IsResponse id reply ∧ reply.member? "error" ≠ none ∧
              w'.sent = w.sent ++ [reply]
          | none => w'.sent = w.sent := by
  rw [handle, handlePayload]
  cases hdecode : decode body with
  | error e =>
    dsimp only
    rw [bind_run, record_run, andThen_ok]
    cases hid : e.id with
    | none => exact ⟨_, rfl, rfl, rfl⟩
    | some id =>
      have hreply := clean_errorResponse (e := e.toRpc) (hclean.recovered hdecode id hid)
        (clean_cause e.cause) Json.clean_null
      dsimp only
      rw [send_run_of_clean hreply]
      have hreply := isResponse_error id e.toRpc
      exact ⟨_, rfl, rfl, _, hreply, hreply.outcome.mp rfl, rfl⟩
  | ok e =>
    have henvelope := hclean.envelope hdecode
    dsimp only
    cases hid : e.id with
    | some id =>
      obtain ⟨w', hrun, hanswered⟩ :=
        handleRequest_answers read henvelope (henvelope.id id hid) w
      dsimp only
      rw [hrun]
      exact ⟨w', rfl, decode_id_scalar hdecode id hid, hanswered⟩
    | none =>
      obtain ⟨w', notices, hrun, hnotices, hsent⟩ := handleNotification_notifies read henvelope w
      dsimp only
      rw [hrun]
      exact ⟨w', rfl, notices, fun n hn => ⟨hnotices n hn, fun _ => (hnotices n hn).not_response⟩,
        hsent⟩

end

/-- A request to open a document whose text is refused. -/
theorem handle_replies_opened :
    let body := requestBody 7 .didOpen [("textDocument", Json.object [("uri", .string "a.lua"),
      ("languageId", .string "lua"), ("version", .nat 1), ("text", .string "local a =")])]
    let w : World Unit LuaTree := { session := { initialized := true, memory := () } }
    CleanBody body ∧ ∃ w' id, handle (luaServer (fun _ => none) .note) w body = (none, w') ∧
      id.render = text "7" ∧ Answered id w w' := by
  intro body w
  have hclean : CleanBody body := by decide +kernel
  have hid : ((decode body).toOption.map fun e => e.id.map Json.render) = some (some (text "7")) := by
    decide +kernel
  obtain ⟨e, he, hid⟩ := Option.map_eq_some_iff.mp hid
  obtain ⟨id, hid, hrender⟩ := Option.map_eq_some_iff.mp hid
  obtain ⟨w', hrun, hreplies⟩ := handle_replies (fun _ => none) hclean w
  simp only [ok_of_toOption he, hid] at hreplies
  exact ⟨hclean, w', id, hrun, hrender, hreplies.2⟩

end LuaServer
