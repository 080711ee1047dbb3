/-
# What a message brings

An escape in a string of JSON may write half of a pair.  A body is clean if no string in it has such a
surrogate; then neither has any text that the parameters of the message in it bring.
-/
import LuaServer.Proofs.Acts
import LuaServer.Proofs.Encoding

namespace LuaServer

/-! ## 1. Bodies -/

/-- No string in a body has a surrogate, nor has the id that is recovered from one that is not JSON. -/
def CleanBody (body : Bytes) : Prop :=
  ∀ t ∈ (Utf8.decode body).toOption,
    (∀ v ∈ (Json.parse t).toOption, v.Clean) ∧ ∀ v ∈ salvageId? t, v.Clean

instance (body : Bytes) : Decidable (CleanBody body) :=
  inferInstanceAs (Decidable (∀ t ∈ (Utf8.decode body).toOption, _))

theorem CleanBody.value {body : Bytes} (h : CleanBody body) {t : Text} {v : Json}
    (ht : Utf8.decode body = .ok t) (hv : Json.parse t = .ok v) : v.Clean :=
  (h t (by rw [ht]; rfl)).1 v (by rw [hv]; rfl)

theorem CleanBody.id {body : Bytes} (h : CleanBody body) {t : Text} {v : Json}
    (ht : Utf8.decode body = .ok t) (hv : salvageId? t = some v) : v.Clean :=
  (h t (by rw [ht]; rfl)).2 v hv

/-- The texts of a message are clean. -/
structure Envelope.Clean (e : Envelope) : Prop where
  method : LuaServer.Clean e.method
  id : ∀ v ∈ e.id, v.Clean
  params : ∀ v ∈ e.params, v.Clean

/-- The texts of a message in a clean body are clean. -/
theorem CleanBody.envelope {body : Bytes} (h : CleanBody body) {e : Envelope}
    (he : decode body = .ok e) : e.Clean := by
  unfold decode at he
  split at he
  · cases he
  · next t ht =>
    split at he
    · cases he
    · next ms hms =>
      have hclean := Json.clean_obj.mp (h.value ht hms)
      unfold Envelope.ofMembers at he
      split at he
      · next m hproblems hmethod =>
        cases he
        exact ⟨clean_get? hclean hmethod, fun v hv => clean_get? hclean hv,
          fun v hv => clean_get? hclean hv⟩
      · cases he
    · cases he

/-- The id that is recovered from a clean body is clean. -/
theorem CleanBody.recovered {body : Bytes} (h : CleanBody body) {e : DecodeError}
    (he : decode body = .error e) : ∀ v ∈ e.id, v.Clean := by
  intro v hv
  unfold decode at he
  split at he
  · cases he
    cases hv
  · next t ht =>
    split at he
    · cases he
      exact h.id ht hv
    · next ms hms =>
      have hclean := Json.clean_obj.mp (h.value ht hms)
      unfold Envelope.ofMembers at he
      split at he
      · cases he
      · cases he
        exact clean_get? hclean (Option.mem_filter_iff.mp hv).1
    · cases he
      cases hv

/-! ## 2. Parameters -/

section
variable {ms : Members}

/-- The names and values of an object are clean. -/
def CleanMembers (ms : Members) : Prop := ∀ m ∈ ms, Clean m.1 ∧ m.2.Clean

theorem members?_clean {j : Json} (h : j.Clean) {ms : Members} (hms : j.members? = some ms) :
    CleanMembers ms := by
  cases j <;> cases hms
  exact Json.clean_obj.mp h

theorem uriOf?_clean {j : Json} (h : j.Clean) {uri : Text} (huri : uriOf? j = some uri) : Clean uri := by
  simp only [uriOf?, Option.bind_eq_bind, Option.pure_def, Option.bind_eq_some_iff] at huri
  obtain ⟨ms, hms, v, hv, heq⟩ := huri
  cases heq
  exact Json.clean_asText (clean_get? (members?_clean h hms) hv)

theorem openParams?_clean (h : CleanMembers ms) {p : OpenParams} (hp : openParams? ms = some p) :
    Clean p.uri ∧ Clean p.text := by
  simp only [openParams?, Option.bind_eq_bind, Option.pure_def, Option.bind_eq_some_iff] at hp
  obtain ⟨d, hd, doc, hdoc, u, hu, l, hl, v, hv, n, hn, t, ht, hp⟩ := hp
  split at hp
  · cases hp
    have hclean := members?_clean (clean_get? h hd) hdoc
    exact ⟨Json.clean_asText (clean_get? hclean hu), Json.clean_asText (clean_get? hclean ht)⟩
  · cases hp

theorem changeOf?_clean {j : Json} (h : j.Clean) {c : Change} (hc : changeOf? j = some c) :
    Clean c.text := by
  simp only [changeOf?, Option.bind_eq_bind, Option.pure_def, Option.bind_eq_some_iff] at hc
  obtain ⟨ms, hms, t, ht, hc⟩ := hc
  have htext := Json.clean_asText (clean_get? (members?_clean h hms) ht)
  split at hc
  · simp only [Option.bind_eq_some_iff] at hc
    obtain ⟨span, -, hc⟩ := hc
    split at hc
    · simp only [Option.bind_eq_some_iff] at hc
      obtain ⟨n, -, hc⟩ := hc
      cases hc
      exact htext
    · cases hc
      exact htext
  · cases hc
    exact htext

/-- What is read from a list is read from one of its items. -/
theorem exists_of_mem_mapM {α β : Type} {f : α → Option β} : ∀ {xs : List α} {ys : List β},
    xs.mapM f = some ys → ∀ y ∈ ys, ∃ x ∈ xs, f x = some y
  | [], _, h, y, hy => by
    cases h
    cases hy
  | x :: xs, ys, h, y, hy => by
    simp only [List.mapM_cons, Option.bind_eq_bind, Option.pure_def, Option.bind_eq_some_iff] at h
    obtain ⟨z, hz, zs, hzs, h⟩ := h
    cases h
    rcases List.mem_cons.mp hy with rfl | hy
    · exact ⟨x, List.mem_cons_self, hz⟩
    · obtain ⟨w, hw, hread⟩ := exists_of_mem_mapM hzs y hy
      exact ⟨w, List.mem_cons_of_mem x hw, hread⟩

theorem changeParams?_clean (h : CleanMembers ms) {p : ChangeParams}
    (hp : changeParams? ms = some p) : Clean p.uri ∧ ∀ c ∈ p.changes, Clean c.text := by
  simp only [changeParams?, Option.bind_eq_bind, Option.pure_def, Option.bind_eq_some_iff] at hp
  obtain ⟨d, hd, doc, hdoc, u, hu, v, hv, n, hn, cs, hcs, items, hitems, changes, hchanges, hp⟩ := hp
  cases hp
  refine ⟨Json.clean_asText (clean_get? (members?_clean (clean_get? h hd) hdoc) hu), ?_⟩
  have hclean : ∀ j ∈ items, j.Clean := by
    have hvalue := clean_get? h hcs
    unfold Json.items? at hitems
    split at hitems <;> cases hitems
    · exact Json.clean_arr.mp hvalue
    all_goals simp
  intro c hc
  obtain ⟨j, hj, hread⟩ := exists_of_mem_mapM hchanges c hc
  exact changeOf?_clean (hclean j hj) hread

theorem closeParams?_clean (h : CleanMembers ms) {uri : Text} (hp : closeParams? ms = some uri) :
    Clean uri := by
  simp only [closeParams?, Option.bind_eq_bind, Option.bind_eq_some_iff] at hp
  obtain ⟨d, hd, hp⟩ := hp
  exact uriOf?_clean (clean_get? h hd) hp

theorem optional?_clean (h : CleanMembers ms) {name : String} {v : Json}
    (hv : optional? name ms = some v) : v.Clean := by
  unfold optional? at hv
  split at hv
  · cases hv
  · cases hv
  · next heq =>
    cases hv
    exact clean_get? h heq

theorem saveParams?_clean (h : CleanMembers ms) {p : SaveParams} (hp : saveParams? ms = some p) :
    Clean p.uri ∧ ∀ t ∈ p.text, Clean t := by
  simp only [saveParams?, Option.bind_eq_bind, Option.pure_def, Option.bind_eq_some_iff] at hp
  obtain ⟨d, hd, uri, huri, hp⟩ := hp
  have huri := uriOf?_clean (clean_get? h hd) huri
  split at hp
  · next t ht =>
    cases hp
    refine ⟨huri, fun u hu => ?_⟩
    cases hu
    exact Json.clean_asText (optional?_clean h ht)
  · cases hp
    exact ⟨huri, nofun⟩

theorem placeParams?_clean (h : CleanMembers ms) {p : PlaceParams} (hp : placeParams? ms = some p) :
    Clean p.uri := by
  simp only [placeParams?, Option.bind_eq_bind, Option.pure_def, Option.bind_eq_some_iff] at hp
  obtain ⟨d, hd, uri, huri, v, hv, q, hq, hp⟩ := hp
  cases hp
  exact uriOf?_clean (clean_get? h hd) huri

theorem renameParams?_clean (h : CleanMembers ms) {p : RenameParams}
    (hp : renameParams? ms = some p) : Clean p.place.uri ∧ Clean p.newName := by
  simp only [renameParams?, Option.bind_eq_bind, Option.pure_def, Option.bind_eq_some_iff] at hp
  obtain ⟨place, hplace, v, hv, hp⟩ := hp
  cases hp
  exact ⟨placeParams?_clean h hplace, Json.clean_asText (clean_get? h hv)⟩

theorem referenceParams?_clean (h : CleanMembers ms) {p : PlaceParams}
    (hp : referenceParams? ms = some p) : Clean p.uri := by
  simp only [referenceParams?, Option.bind_eq_bind, Option.pure_def, Option.bind_eq_some_iff] at hp
  obtain ⟨place, hplace, c, hc, context, hcontext, d, hd, hp⟩ := hp
  cases hp
  exact placeParams?_clean h hplace

end

/-! ## 3. Texts of documents -/

/-- The object of parameters that a message has; absent ones count as an object without members. -/
def Envelope.members? (e : Envelope) : Option Members :=
  match e.params with
  | none => some []
  | some (.obj ms) => some ms
  | some _ => none

/-- The texts of documents that a message brings. -/
def Envelope.texts (e : Envelope) : List Text :=
  match Method.ofText? e.method with
  | some .didOpen => ((e.members?.bind openParams?).map (·.text)).toList
  | some .didChange => ((e.members?.bind changeParams?).map (·.changes.map (·.text))).getD []
  | some .didSave => ((e.members?.bind saveParams?).bind (·.text)).toList
  | _ => []

/-- The parameters of a method are read from the object that a message has. -/
theorem Envelope.withParams_eq {σ τ α : Type} (e : Envelope) (name : String)
    (read : Members → Option α) :
    (withParams name read e.params : Act σ τ α) =
      match e.members?.bind read with
      | some a => pure a
      | none => refuse .invalidParams (text "invalid params for " ++ text name) := by
  obtain ⟨method, id, params⟩ := e
  rcases params with _ | (_ | _ | _ | _ | _ | _ | ms) <;> rfl

/-- What is kept however the parameters are read. -/
theorem Keeps.withParams {σ τ α β : Type} {I : World σ τ → Prop} {e : Envelope} {name : String}
    {read : Members → Option α} {f : α → Act σ τ β}
    (hf : ∀ a, e.members?.bind read = some a → Keeps I (f a)) :
    Keeps I (LuaServer.withParams name read e.params >>= f) := by
  intro w h
  rw [e.withParams_eq, bind_run]
  cases ha : e.members?.bind read with
  | none => exact h
  | some a => exact hf a ha w h

theorem Envelope.Clean.members? {e : Envelope} (h : e.Clean) {ms : Members} (hms : e.members? = some ms) :
    CleanMembers ms := by
  unfold Envelope.members? at hms
  split at hms
  · cases hms
    nofun
  · next hparams =>
    cases hms
    exact Json.clean_obj.mp (h.params _ hparams)
  · cases hms

/-- What is read from the parameters of a clean message is read from clean members. -/
theorem Envelope.Clean.read {α : Type} {e : Envelope} (h : e.Clean) {read : Members → Option α} {a : α}
    (ha : e.members?.bind read = some a) : ∃ ms, CleanMembers ms ∧ read ms = some a := by
  obtain ⟨ms, hms, hread⟩ := Option.bind_eq_some_iff.mp ha
  exact ⟨ms, h.members? hms, hread⟩

/-- The body of a request. -/
def requestBody (id : Nat) (method : Method) (params : List (String × Json)) : Bytes :=
  (Json.object [("jsonrpc", .string "2.0"), ("id", .nat id), ("method", .string method.name),
    ("params", Json.object params)]).render.flatMap Utf8.encodeCode

/-- The body of a notification. -/
def notificationBody (method : Method) (params : List (String × Json)) : Bytes :=
  (Json.object [("jsonrpc", .string "2.0"), ("method", .string method.name),
    ("params", Json.object params)]).render.flatMap Utf8.encodeCode

end LuaServer
