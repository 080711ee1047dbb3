/-
# The id of a damaged request

A body that is not JSON is searched for an `"id"`, a colon and an integer or a string.  Where the body
begins as a request is written, version first and id second, the search finds the id of the request: nothing
before it looks like one, an integer ends at the comma behind it, and no quote inside a written string is
taken for its end.  What was found is then read as it was written.

Main result: `decode_salvages`.
-/
import LuaServer.Proofs.Rendering

namespace LuaServer

/-- A request with the order of members in which requests are written. -/
def requestJson (id : Json) (method : Text) (params : Json) : Json :=
  Json.object [("jsonrpc", .string "2.0"), ("id", id), ("method", .str method), ("params", params)]

/-- The beginning of a request through the comma after its id. -/
def requestHead (id : Json) : Text :=
  text "\x7b\"jsonrpc\":\"2.0\",\"id\":" ++ (id.render ++ [code ','])

/-- An integer or a string. -/
def Json.IsId : Json → Prop
  | .int _ | .str _ => True
  | _ => False

theorem requestHead_begins (id : Json) (method : Text) (params : Json) :
    requestHead id <+: (requestJson id method params).render := by
  have hfirst : text "\x7b\"jsonrpc\":\"2.0\",\"id\":"
      = code '\x7b' :: (Json.quote (text "jsonrpc") ++ code ':' :: (Json.quote (text "2.0")
        ++ code ',' :: (Json.quote (text "id") ++ [code ':']))) := by decide
  refine ⟨Json.renderMembers [(text "method", .str method), (text "params", params)]
    ++ [code '\x7d'], ?_⟩
  simp [requestHead, hfirst, requestJson, Json.object, Json.string, Json.render, Json.renderMembers]

/-! ## 1. What is searched for -/

theorem isDecimal_of_isDigit {c : Code} (h : isDigit c = true) : isDecimal c = true := by
  have hall : ∀ c < 58, 48 ≤ c → isDecimal c = true := by decide
  obtain ⟨hlow, hhigh⟩ := Lua.isDigit_iff.mp h
  exact hall c (Nat.lt_succ_of_le hhigh) hlow

/-- An integer ends at a comma. -/
theorem integerSize?_decimalInt (n : Int) (rest : Text) :
    integerSize? (decimalInt n ++ code ',' :: rest) = some (decimalInt n).length := by
  obtain ⟨sign, d, ds, hwritten, hsign, hall, -⟩ := Json.decimalInt_cases n
  have hrun : (d :: ds ++ code ',' :: rest).takeWhile isDecimal = d :: ds := by
    refine Lua.takeWhile_append_stop
      (List.all_eq_true.mpr fun c hc => isDecimal_of_isDigit (hall c hc)) ?_
    intro c hc
    cases hc
    decide
  have hminus : d ≠ code '-' := (Json.ne_of_isDigit (hall d List.mem_cons_self) (by decide)).symm
  rw [hwritten, List.append_assoc]
  rcases hsign with rfl | rfl
  · have hhead : ¬(d :: ds ++ code ',' :: rest).head? = some (code '-') := by simpa using hminus
    simp only [integerSize?, List.nil_append, if_neg hhead, List.drop_zero, hrun]
    simp
  · have hhead : ([code '-'] ++ (d :: ds ++ code ',' :: rest)).head? = some (code '-') := rfl
    have hdrop : ([code '-'] ++ (d :: ds ++ code ',' :: rest)).drop 1 = d :: ds ++ code ',' :: rest := rfl
    simp only [integerSize?, if_pos hhead, hdrop, hrun]
    simp [Nat.add_comm]

/-- Code points that neither end a string nor begin an escape. -/
theorem stringSize?_append {ds : Text} (hds : ∀ c ∈ ds, c ≠ code '"' ∧ c ≠ code '\\') (rest : Text) :
    stringSize? (ds ++ rest) = (stringSize? rest).map (· + ds.length) := by
  induction ds with
  | nil => simp
  | cons c ds ih =>
    obtain ⟨⟨hquote, hback⟩, hds⟩ := List.forall_mem_cons.mp hds
    rw [List.cons_append, stringSize?.eq_def]
    simp only [if_neg hquote, if_neg hback, ih hds, Option.map_map]
    rfl

/-- An escaped code point is passed over as a whole. -/
theorem stringSize?_escaped (c : Nat) (rest : Text) :
    stringSize? (Json.escaped c ++ rest) = (stringSize? rest).map (· + (Json.escaped c).length) := by
  have hquote : code '\\' ≠ code '"' := by decide
  rcases Json.escaped_cases c with ⟨e, hu, hvalue, heq⟩ | ⟨hcontrol, heq⟩ | ⟨hplain, hback, -, heq⟩
  · have hnewline : e ≠ code '\n' := by
      rintro rfl
      cases hvalue
    rw [heq, List.cons_append, List.singleton_append, stringSize?.eq_def]
    simp only [if_neg hquote, if_true, if_neg hnewline]
    rfl
  · have hdigits : ∀ c < 0x20, ∀ d ∈ Utf8.hexadecimal 4 c, d ≠ code '"' ∧ d ≠ code '\\' := by decide
    have hnewline : code 'u' ≠ code '\n' := by decide
    rw [heq, List.cons_append, List.cons_append, stringSize?.eq_def]
    simp only [if_neg hquote, if_true, if_neg hnewline, stringSize?_append (hdigits c hcontrol),
      Option.map_map]
    rfl
  · rw [heq]
    exact stringSize?_append (by simpa using ⟨hplain, hback⟩) rest

/-- A written string ends at its closing quote. -/
theorem stringSize?_quote (s rest : Text) :
    stringSize? (s.flatMap Json.escaped ++ code '"' :: rest)
      = some ((s.flatMap Json.escaped).length + 1) := by
  induction s with
  | nil =>
    rw [List.flatMap_nil, List.nil_append, stringSize?.eq_def]
    exact if_pos rfl
  | cons c s ih =>
    rw [List.flatMap_cons, List.append_assoc, stringSize?_escaped, ih, List.length_append,
      Option.map_some]
    congr 1
    omega

/-! ## 2. The search -/

/-- A written id begins with no white space. -/
theorem dropWhile_render {id : Json} (hid : id.IsId) (rest : Text) :
    (id.render ++ rest).dropWhile isWhite = id.render ++ rest := by
  cases id with
  | int n =>
    obtain ⟨sign, d, ds, hwritten, hsign, hall, -⟩ := Json.decimalInt_cases n
    have hdigits : ∀ c < 58, 48 ≤ c → isWhite c = false := by decide
    obtain ⟨hlow, hhigh⟩ := Lua.isDigit_iff.mp (hall d List.mem_cons_self)
    have hd := hdigits d (Nat.lt_succ_of_le hhigh) hlow
    rw [Json.render, hwritten]
    rcases hsign with rfl | rfl
    · simp [hd]
    · rfl
  | str s => rfl
  | _ => exact hid.elim

/-- The id is found where it is named. -/
theorem idText?_render {id : Json} (hid : id.IsId) (rest : Text) :
    idText? (text "\"id\":" ++ (id.render ++ code ',' :: rest)) = some id.render := by
  have hname : text "\"id\":" ++ (id.render ++ code ',' :: rest)
      = text "\"id\"" ++ (code ':' :: (id.render ++ code ',' :: rest)) := rfl
  have hfront : (text "\"id\"").isPrefixOf (text "\"id\"" ++ (code ':' :: (id.render ++ code ',' :: rest)))
      = true := List.isPrefixOf_iff_prefix.mpr (List.prefix_append _ _)
  have hcolon : (code ':' :: (id.render ++ code ',' :: rest)).dropWhile isWhite
      = code ':' :: (id.render ++ code ',' :: rest) := rfl
  rw [hname, idText?]
  simp only [hfront, if_true, List.drop_left, hcolon, dropWhile_render hid]
  cases id with
  | int n =>
    simp [Json.render, integerSize?_decimalInt]
  | str s =>
    have hwritten : (Json.str s).render = code '"' :: (s.flatMap Json.escaped ++ [code '"']) := rfl
    have hsize := stringSize?_quote s (code ',' :: rest)
    rw [hwritten]
    generalize s.flatMap Json.escaped = body at *
    have hinteger : integerSize? (code '"' :: (body ++ code '"' :: code ',' :: rest)) = none := rfl
    have htaken : (body ++ code '"' :: code ',' :: rest).take (body.length + 1) = body ++ [code '"'] := by
      rw [List.take_length_add_append]
      rfl
    simp [hinteger, hsize, htaken]
  | _ => exact hid.elim

/-- Nothing before the id looks like one. -/
theorem firstIdText?_requestHead {id : Json} (hid : id.IsId) (rest : Text) :
    firstIdText? (requestHead id ++ rest) = some id.render := by
  have hskip : ∀ t : Text, firstIdText? (text "\x7b\"jsonrpc\":\"2.0\"," ++ t) = firstIdText? t := by
    intro t
    rfl
  have hhead : requestHead id ++ rest = text "\x7b\"jsonrpc\":\"2.0\","
      ++ (text "\"id\":" ++ (id.render ++ code ',' :: rest)) := by
    simp [requestHead, text]
  have hcons : text "\"id\":" ++ (id.render ++ code ',' :: rest)
      = code '"' :: (text "id\":" ++ (id.render ++ code ',' :: rest)) := rfl
  have hfound := idText?_render hid rest
  rw [hcons] at hfound
  rw [hhead, hskip, hcons, firstIdText?, hfound]

theorem salvageId?_requestHead {id : Json} (hid : id.IsId) (hplain : id.Plain) (rest : Text) :
    salvageId? (requestHead id ++ rest) = some id := by
  rw [salvageId?, firstIdText?_requestHead hid, Option.bind_some, Json.parse_render hplain]
  rfl

/-- **Ids survive damaged messages.**  Let a text begin as a written request begins, through the comma after
the id at least, where the id is a string of characters or an integer of at most 4300 digits.  Whatever
follows, if the text is not JSON, then its bytes are refused with the code for that, and the refusal has the
id of the request. -/
theorem decode_salvages {id : Json} (hid : id.IsId) (hplain : id.Plain) (method : Text) (params : Json)
    {start t : Text} (hstart : start <+: (requestJson id method params).render)
    (hcomma : (requestHead id).length ≤ start.length) (ht : start <+: t) {f : JsonFault}
    (hparse : Json.parse t = .error f) {body : Bytes} (hbody : Utf8.decode body = .ok t) :
    ∃ e, decode body = .error e ∧ e.cause.code = .parseError ∧ e.id = some id := by
  have hhead : requestHead id <+: t :=
    (List.prefix_of_prefix_length_le (requestHead_begins id method params) hstart hcomma).trans ht
  obtain ⟨rest, rfl⟩ := hhead
  refine ⟨⟨.notJson (requestHead id ++ rest) f, salvageId? (requestHead id ++ rest)⟩, ?_, rfl,
    salvageId?_requestHead hid hplain rest⟩
  rw [decode, hbody]
  dsimp only
  rw [hparse]

/-- A request that breaks off after its id, a text that holds what looks like another id. -/
theorem decode_salvages_quoted :
    let id := Json.string "\\\"id\":7,\n"
    let start := text "\x7b\"jsonrpc\":\"2.0\",\"id\":\"\\\\\\\"id\\\":7,\\n\",\"me"
    ∃ e, decode (start.flatMap Utf8.encodeCode) = .error e ∧ e.cause.code = .parseError ∧ e.id = some id := by
  intro id start
  have hdamaged : (Json.parse start).toOption.isNone = true := by decide +kernel
  cases hparse : Json.parse start with
  | ok v =>
    rw [hparse] at hdamaged
    cases hdamaged
  | error f =>
    have hstart : start <+: (requestJson id (text "m") .null).render := by decide +kernel
    have hcharacters : Characters start := by decide
    have hid : id.IsId := trivial
    exact decode_salvages hid (by decide) (text "m") .null hstart (by decide +kernel)
      (List.prefix_refl start) hparse (Utf8.decode_flatMap_encodeCode hcharacters)

end LuaServer
