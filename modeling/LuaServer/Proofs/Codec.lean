/-
# Messages survive the codec

What is written for an object is read back as that object.  So whether it is taken as a message is decided
by four of its members, the version, the method, the id and the parameters, and by nothing on the way.  An
object that is not taken is refused as an invalid request, and its id is recovered if it is a scalar,
whatever else is wrong.

Main result: `decode_encode`.
-/
import LuaServer.Proofs.Rendering

namespace LuaServer

/-! ## 1. Members of a message -/

/-- The members that make an object a message. -/
structure IsMessage (ms : Members) : Prop where
  version : Table.get? (text "jsonrpc") ms = some (.string "2.0")
  method : ∃ m, Table.get? (text "method") ms = some (.str m)
  id : ∀ v, Table.get? (text "id") ms = some v → v.isScalar = true
  params : ∀ v, Table.get? (text "params") ms = some v → (∃ ps, v = .obj ps) ∨ (∃ vs, v = .arr vs)

section
variable {ms : Members}

theorem versionProblems_eq_nil :
    versionProblems ms = [] ↔ Table.get? (text "jsonrpc") ms = some (.string "2.0") := by
  unfold versionProblems
  constructor
  · intro h
    split at h
    · cases h
    · next hget =>
      split at h
      · next hversion => rw [hget, hversion]; rfl
      · split at h <;> cases h
    · cases h
  · intro h
    rw [h]
    exact if_pos rfl

theorem methodProblems_eq_nil :
    methodProblems ms = [] ↔ ∃ m, Table.get? (text "method") ms = some (.str m) := by
  unfold methodProblems
  constructor
  · intro h
    split at h
    · cases h
    · next m hget => exact ⟨m, hget⟩
    · cases h
  · rintro ⟨m, h⟩
    rw [h]

theorem idProblems_eq_nil :
    idProblems ms = [] ↔ ∀ v, Table.get? (text "id") ms = some v → v.isScalar = true := by
  rw [idProblems]
  cases Table.get? (text "id") ms with
  | none => simp
  | some v => cases hv : v.isScalar <;> simp [hv]

theorem paramsProblems_eq_nil :
    paramsProblems ms = [] ↔ ∀ v, Table.get? (text "params") ms = some v →
      (∃ ps, v = .obj ps) ∨ (∃ vs, v = .arr vs) := by
  rw [paramsProblems]
  cases Table.get? (text "params") ms with
  | none => simp
  | some v => cases v <;> simp

/-- Nothing is wrong with the members of a message, and only with those. -/
theorem problems_eq_nil : problems ms = [] ↔ IsMessage ms := by
  simp only [problems, List.append_eq_nil_iff, versionProblems_eq_nil, methodProblems_eq_nil,
    idProblems_eq_nil, paramsProblems_eq_nil]
  constructor
  · rintro ⟨⟨⟨hversion, hmethod⟩, hid⟩, hparams⟩
    exact ⟨hversion, hmethod, hid, hparams⟩
  · rintro ⟨hversion, hmethod, hid, hparams⟩
    exact ⟨⟨⟨hversion, hmethod⟩, hid⟩, hparams⟩

/-- A message is taken with its members. -/
theorem ofMembers_message (h : IsMessage ms) : ∃ m, Table.get? (text "method") ms = some (.str m) ∧
    Envelope.ofMembers ms = .ok ⟨m, Table.get? (text "id") ms, Table.get? (text "params") ms⟩ := by
  obtain ⟨m, hm⟩ := h.method
  exact ⟨m, hm, by rw [Envelope.ofMembers, problems_eq_nil.mpr h, hm]⟩

/-- An object that is no message is refused, with its id if that is a scalar. -/
theorem ofMembers_invalid (h : ¬IsMessage ms) :
    Envelope.ofMembers ms = .error ⟨.invalid (problems ms), scalarId? ms⟩ := by
  unfold Envelope.ofMembers
  split
  · next hnone _ => exact absurd (problems_eq_nil.mp hnone) h
  · rfl

end

/-! ## 2. The round trip -/

/-- **Written objects are read back.**  The bytes of an object are UTF-8, and the text in them is JSON for
that very object, its members in their order.  As a message they are taken exactly if the object is one,
with its method, its id and its parameters, and as a request exactly if it has an id.  Otherwise they are
refused as an invalid request, with the object's id exactly if that is a scalar. -/
theorem decode_encode {ms : Members} (h : Json.Plain (.obj ms)) :
    ∃ bytes t, encode (.obj ms) = .ok bytes ∧ Utf8.decode bytes = .ok t ∧
      Json.parse t = .ok (.obj ms) ∧
      (IsMessage ms → ∃ e, decode bytes = .ok e ∧
        Table.get? (text "method") ms = some (.str e.method) ∧
        e.id = Table.get? (text "id") ms ∧ e.params = Table.get? (text "params") ms ∧
        (e.isRequest = true ↔ text "id" ∈ Table.keys ms)) ∧
      (¬IsMessage ms → ∃ e, decode bytes = .error e ∧ e.cause.code = .invalidRequest ∧
        ∀ v, e.id = some v ↔ Table.get? (text "id") ms = some v ∧ v.isScalar = true) := by
  obtain ⟨bytes, hbytes, htext⟩ := Json.encode_of_plain h
  have hparse := Json.parse_render h
  have hdecode : decode bytes = Envelope.ofMembers ms := by rw [decode, htext]; simp only [hparse]
  refine ⟨bytes, _, hbytes, htext, hparse, ?_, ?_⟩
  · intro hmessage
    obtain ⟨m, hmethod, hread⟩ := ofMembers_message hmessage
    refine ⟨_, hdecode.trans hread, hmethod, rfl, rfl, ?_⟩
    rw [Envelope.isRequest, Option.isSome_iff_exists, Table.mem_keys]
  · intro hinvalid
    refine ⟨_, hdecode.trans (ofMembers_invalid hinvalid), rfl, fun v => ?_⟩
    exact Option.filter_eq_some_iff

/-- A request whose id and parameters need every kind of escape. -/
def escapedRequest : Members :=
  [(text "id", .str [0x22, 0x5C, 0x0A, 0x01, 0x7F, 0xE9, 0x1F600]), (text "jsonrpc", .string "2.0"),
    (text "method", .string "m"),
    (text "params", .obj [([0x09, 0x2028], .arr [.arr [], .int (-120), .obj [([], .null)], .bool true])])]

/-- Every kind of escape, and an id that is no scalar beside another version. -/
theorem decode_encode_escapedRequest :
    (∃ bytes e, encode (.obj escapedRequest) = .ok bytes ∧ decode bytes = .ok e ∧
      e.id = Table.get? (text "id") escapedRequest ∧ e.isRequest = true) ∧
    (∃ bytes e, encode (.obj [(text "id", .arr [])]) = .ok bytes ∧ decode bytes = .error e ∧
      e.cause.code = .invalidRequest ∧ ∀ v, e.id ≠ some v) := by
  constructor
  · have hplain : Json.Plain (.obj escapedRequest) := by decide +kernel
    obtain ⟨bytes, t, hbytes, -, -, hmessage, -⟩ := decode_encode hplain
    obtain ⟨e, he, -, hid, -, hrequest⟩ :=
      hmessage ⟨rfl, ⟨_, rfl⟩, fun v hv => by cases hv; rfl,
        fun v hv => by cases hv; exact .inl ⟨_, rfl⟩⟩
    exact ⟨bytes, e, hbytes, he, hid, hrequest.mpr (by decide)⟩
  · have hplain : Json.Plain (.obj [(text "id", .arr [])]) := by decide +kernel
    obtain ⟨bytes, t, hbytes, -, -, -, hinvalid⟩ := decode_encode hplain
    obtain ⟨e, he, hcode, hid⟩ := hinvalid fun h => absurd h.version (by simp [Table.get?, text])
    refine ⟨bytes, e, hbytes, he, hcode, fun v hv => ?_⟩
    obtain ⟨hget, hscalar⟩ := (hid v).mp hv
    cases hget
    cases hscalar

end LuaServer
