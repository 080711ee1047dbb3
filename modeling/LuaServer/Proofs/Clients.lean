/-
# What a client sends

The body of a request or of a notification is read as the message that it writes: with the name of its
method, the id of a request, and the parameters.  The names of the methods differ, so the method is the one
that was meant.  The id that is searched for in a damaged body is the one of the request here as well, and
so no string that comes of a request has half of a pair.

Main results: `decode_requestBody`, `decode_notificationBody`, `cleanBody_requestBody`.
-/
import LuaServer.Proofs.Codec
import LuaServer.Proofs.Payloads
import LuaServer.Proofs.Salvage

namespace LuaServer

theorem text_inj {s t : String} : text s = text t ↔ s = t :=
  (List.map_inj_right fun _ _ h => Char.toNat_inj.mp h).trans String.toList_inj

/-- A method has its name to itself. -/
theorem Method.ofText?_name (m : Method) : Method.ofText? (text m.name) = some m := by
  cases m <;> simp [Method.ofText?, Method.all, text_inj, Method.name]

/-- The bytes of a plain object that is a message are read as that message. -/
theorem decode_render {ms : Members} (h : Json.Plain (.obj ms)) (hmessage : IsMessage ms) {m : Text}
    (hm : Table.get? (text "method") ms = some (.str m)) :
    decode ((Json.obj ms).render.flatMap Utf8.encodeCode)
      = .ok ⟨m, Table.get? (text "id") ms, Table.get? (text "params") ms⟩ := by
  obtain ⟨m', hm', hread⟩ := ofMembers_message hmessage
  obtain rfl : m = m' := by simpa [hm] using hm'
  rw [decode, Utf8.decode_flatMap_encodeCode (Json.characters_render h)]
  dsimp only
  rw [Json.parse_render h]
  exact hread

section
variable {id : Nat} {params : List (String × Json)}

theorem plain_requestJson (m : Method) (hid : (Json.nat id).Plain) (h : (Json.object params).Plain) :
    (requestJson (.nat id) (text m.name) (Json.object params)).Plain := by
  have hnames : [text "jsonrpc", text "id", text "method", text "params"].Nodup := by decide +kernel
  exact ⟨hnames, characters_text _, characters_text _, characters_text _, hid, characters_text _,
    characters_text _, characters_text _, h, trivial⟩

/-- **The body of a request is read as that request.** -/
theorem decode_requestBody (m : Method) (hid : (Json.nat id).Plain) (h : (Json.object params).Plain) :
    decode (requestBody id m params)
      = .ok ⟨text m.name, some (.nat id), some (Json.object params)⟩ := by
  refine decode_render (plain_requestJson m hid h) ?_ rfl
  constructor
  case version => rfl
  case method => exact ⟨_, rfl⟩
  case id => rintro v ⟨⟩; rfl
  case params => rintro v ⟨⟩; exact .inl ⟨_, rfl⟩

/-- **The body of a notification is read as that notification.** -/
theorem decode_notificationBody (m : Method) (h : (Json.object params).Plain) :
    decode (notificationBody m params) = .ok ⟨text m.name, none, some (Json.object params)⟩ := by
  have hnames : [text "jsonrpc", text "method", text "params"].Nodup := by decide +kernel
  have hplain : Json.Plain (.obj [(text "jsonrpc", .string "2.0"), (text "method", .string m.name),
      (text "params", Json.object params)]) :=
    ⟨hnames, characters_text _, characters_text _, characters_text _, characters_text _,
      characters_text _, h, trivial⟩
  refine decode_render hplain ?_ rfl
  constructor
  case version => rfl
  case method => exact ⟨_, rfl⟩
  case id => rintro v ⟨⟩
  case params => rintro v ⟨⟩; exact .inl ⟨_, rfl⟩

/-- **The body of a request is clean,** and so is the id that a search for one would find in it. -/
theorem cleanBody_requestBody (m : Method) (hid : (Json.nat id).Plain) (h : (Json.object params).Plain) :
    CleanBody (requestBody id m params) := by
  have hplain := plain_requestJson m hid h
  intro t ht
  have htext : Utf8.decode (requestBody id m params)
      = .ok (requestJson (.nat id) (text m.name) (Json.object params)).render :=
    Utf8.decode_flatMap_encodeCode (Json.characters_render hplain)
  rw [htext] at ht
  obtain rfl := Option.some.inj ht
  constructor
  · intro v hv
    rw [Json.parse_render hplain] at hv
    obtain rfl := Option.some.inj hv
    exact hplain.clean
  · intro v hv
    obtain ⟨rest, hrest⟩ := requestHead_begins (.nat id) (text m.name) (Json.object params)
    have hint : (Json.nat id).IsId := trivial
    rw [← hrest, salvageId?_requestHead hint hid] at hv
    obtain rfl := Option.some.inj hv
    exact Json.clean_nat id

end

end LuaServer
