/-
# What can be encoded

A message can be written if no surrogate stands in its text.  Literals and numerals never hold one, and no
string loses one when it is quoted, so a value can be written if its own strings and the names of its
members hold none, and only then.

Main results: `encode_of_clean`, `encode_fails_iff`.
-/
import LuaServer.Failure
import LuaServer.Json.Literal

namespace LuaServer

/-! ## 1. Texts -/

/-- A text without surrogates. -/
def Clean (t : Text) : Prop := ∀ c ∈ t, isSurrogate c = false

instance (t : Text) : Decidable (Clean t) := inferInstanceAs (Decidable (∀ c ∈ t, _))

/-- The codes besides the surrogates are two intervals. -/
theorem isSurrogate_eq_false {c : Nat} : isSurrogate c = false ↔ c < 0xD800 ∨ 0xDFFF < c := by
  simp only [isSurrogate, Bool.and_eq_false_iff, decide_eq_false_iff_not, Nat.not_le]

/-- No character is a surrogate. -/
theorem isSurrogate_toNat (c : Char) : isSurrogate c.toNat = false := by
  have hvalid : c.toNat < 0xD800 ∨ 0xDFFF < c.toNat ∧ c.toNat < 0x110000 := c.valid
  exact isSurrogate_eq_false.mpr (hvalid.imp_right And.left)

section
variable {s t : Text}

@[simp] theorem clean_nil : Clean [] := by simp [Clean]

@[simp] theorem clean_cons {c : Code} : Clean (c :: t) ↔ isSurrogate c = false ∧ Clean t := by
  simp [Clean]

@[simp] theorem clean_append : Clean (s ++ t) ↔ Clean s ∧ Clean t := by
  simp [Clean, or_imp, forall_and]

/-- The codes of characters are clean. -/
theorem clean_map_toNat (cs : List Char) : Clean (cs.map Char.toNat) := by
  intro c hc
  obtain ⟨x, -, rfl⟩ := List.mem_map.mp hc
  exact isSurrogate_toNat x

@[simp] theorem clean_text (s : String) : Clean (text s) := clean_map_toNat s.toList

@[simp] theorem clean_decimal (n : Nat) : Clean (decimal n) := clean_map_toNat _

@[simp] theorem clean_decimalInt : ∀ n : Int, Clean (decimalInt n)
  | .ofNat n => clean_decimal n
  | .negSucc n => clean_cons.mpr ⟨rfl, clean_decimal (n + 1)⟩

@[simp] theorem clean_replicate {n : Nat} {c : Code} (hc : isSurrogate c = false) :
    Clean (List.replicate n c) := by
  intro d hd
  rw [(List.mem_replicate.mp hd).2, hc]

/-- Parts of a clean text are clean. -/
theorem Clean.subset (ht : Clean t) (hst : s ⊆ t) : Clean s := fun c hc => ht c (hst hc)

/-- A stretch at the beginning of a clean text is clean. -/
theorem Clean.take (ht : Clean t) (n : Nat) : Clean (t.take n) := ht.subset (List.take_subset n t)

/-- A stretch at its end is clean. -/
theorem Clean.drop (ht : Clean t) (n : Nat) : Clean (t.drop n) := ht.subset (List.drop_subset n t)

@[simp] theorem clean_quoted : Clean (quoted t) ↔ Clean t := by
  simp [quoted, isSurrogate_toNat]

/-- Clean texts are joined to one by a clean text. -/
theorem clean_join {sep : Text} (hsep : Clean sep) : ∀ {ts : List Text}, (∀ t ∈ ts, Clean t) →
    Clean (join sep ts)
  | [], _ => clean_nil
  | [t], h => h t List.mem_cons_self
  | t :: u :: ts, h => by
    have ih : Clean (join sep (u :: ts)) :=
      clean_join hsep fun x hx => h x (List.mem_cons_of_mem t hx)
    rw [join]
    · exact clean_append.mpr ⟨clean_append.mpr ⟨h t List.mem_cons_self, hsep⟩, ih⟩
    · simp

/-- A clean text is clean if each code becomes a clean text. -/
theorem clean_flatMap {f : Code → Text} (h : ∀ c ∈ t, Clean (f c)) : Clean (t.flatMap f) := by
  intro c hc
  obtain ⟨d, hd, hcd⟩ := List.mem_flatMap.mp hc
  exact h d hd c hcd

@[simp] theorem clean_hexadecimal (width n : Nat) : Clean (Utf8.hexadecimal width n) :=
  clean_append.mpr ⟨clean_replicate rfl, clean_map_toNat _⟩

end

/-! ## 2. Numerals and literals -/

/-- Digits are clean with or without their leading zeros. -/
theorem clean_dropZeros {ds : Text} (h : Clean ds) : Clean (Double.dropZeros ds) := by
  refine h.subset ?_
  intro c hc
  have hc := List.dropWhile_subset _ (List.mem_reverse.mp hc)
  exact List.mem_reverse.mp hc

/-- However the point and the exponent are laid out, only digits and signs are written. -/
theorem clean_layout (l : Double.Layout) {ds : Text} (h : Clean ds) (point : Int) :
    Clean (l.render ds point) := by
  simp only [Double.Layout.render]
  split
  · split
    · simp [h, isSurrogate_toNat]
    · split
      · simp [h, isSurrogate_toNat]
      · simp [h.take, h.drop, isSurrogate_toNat]
  · refine clean_append.mpr ⟨clean_append.mpr ⟨?_, ?_⟩, ?_⟩
    · split
      · exact clean_nil
      · exact h
      · obtain ⟨hd, hrest⟩ := clean_cons.mp h
        exact clean_cons.mpr ⟨hd, clean_cons.mpr ⟨rfl, hrest⟩⟩
    · split <;> exact clean_text _
    · exact clean_append.mpr ⟨clean_replicate rfl, clean_decimal _⟩

@[simp] theorem clean_double : ∀ d : Double, Clean d.text
  | .nan => clean_text _
  | .infinite _ => clean_text _
  | .finite neg m e => by
    have hminus : Clean (if neg then [code '-'] else []) := by
      cases neg <;> decide
    rw [Double.text]
    split
    · exact clean_append.mpr ⟨hminus, clean_text _⟩
    · exact clean_append.mpr ⟨hminus, clean_layout _ (clean_dropZeros (clean_decimal _)) _⟩

@[simp] theorem clean_number : ∀ d : Double, Clean (Json.number d)
  | .nan => clean_text _
  | .infinite _ => clean_text _
  | .finite neg m e => clean_double (.finite neg m e)

/-- A code is written as itself or as an escape, and an escape is plain. -/
theorem clean_escaped {c : Code} (hc : isSurrogate c = false) : Clean (Json.escaped c) := by
  rw [Json.escaped]
  repeat' split
  all_goals simp [hc]

@[simp] theorem clean_quote {s : Text} (hs : Clean s) : Clean (Json.quote s) := by
  have hbody : Clean (s.flatMap Json.escaped) := clean_flatMap fun c hc => clean_escaped (hs c hc)
  simp [Json.quote, hbody, isSurrogate_toNat]

/-- A text as a message shows it. -/
theorem clean_literal {s : Text} (hs : Clean s) : Clean (literal s) := by
  have hcode : ∀ quote, isSurrogate quote = false → ∀ c ∈ s, Clean (literalCode quote c) := by
    intro quote hquote c hc
    rw [literalCode]
    repeat' split
    · exact clean_cons.mpr ⟨rfl, clean_cons.mpr ⟨hs c hc, clean_nil⟩⟩
    · exact clean_text _
    · exact clean_text _
    · exact clean_text _
    · exact clean_cons.mpr ⟨hs c hc, clean_nil⟩
    · rw [numericEscape]
      repeat' split
      all_goals simp
  have hquote : ∀ quote, isSurrogate quote = false →
      Clean (quote :: s.flatMap (literalCode quote) ++ [quote]) := by
    intro quote hquote
    have hbody := clean_flatMap (hcode quote hquote)
    simp [hquote, hbody]
  simp only [literal]
  split <;> exact hquote _ rfl

/-! ## 3. Values -/

namespace Json

mutual

/-- A value whose strings and names hold no surrogates. -/
def Clean : Json → Prop
  | .null | .bool _ | .int _ | .float _ => True
  | .str s => LuaServer.Clean s
  | .arr items => CleanItems items
  | .obj ms => CleanMembers ms

/-- All items of an array are clean. -/
def CleanItems : List Json → Prop
  | [] => True
  | v :: vs => Clean v ∧ CleanItems vs

/-- All members of an object are clean, their names and their values. -/
def CleanMembers : List (Text × Json) → Prop
  | [] => True
  | (n, v) :: ms => LuaServer.Clean n ∧ Clean v ∧ CleanMembers ms

end

/-- The items of an array are clean one by one. -/
theorem cleanItems_iff : ∀ {vs : List Json}, CleanItems vs ↔ ∀ v ∈ vs, v.Clean
  | [] => by simp [CleanItems]
  | v :: vs => by simp [CleanItems, cleanItems_iff]

/-- The members of an object are clean one by one. -/
theorem cleanMembers_iff : ∀ {ms : List (Text × Json)},
    CleanMembers ms ↔ ∀ m ∈ ms, LuaServer.Clean m.1 ∧ m.2.Clean
  | [] => by simp [CleanMembers]
  | (n, v) :: ms => by simp [CleanMembers, cleanMembers_iff, and_assoc]

@[simp] theorem clean_null : Clean .null := trivial
@[simp] theorem clean_bool (b : Bool) : Clean (.bool b) := trivial
@[simp] theorem clean_int (n : Int) : Clean (.int n) := trivial
@[simp] theorem clean_float (d : Double) : Clean (.float d) := trivial
@[simp] theorem clean_str {s : Text} : Clean (.str s) ↔ LuaServer.Clean s := Iff.rfl
@[simp] theorem clean_arr {vs : List Json} : Clean (.arr vs) ↔ ∀ v ∈ vs, v.Clean := cleanItems_iff
@[simp] theorem clean_obj {ms : List (Text × Json)} :
    Clean (.obj ms) ↔ ∀ m ∈ ms, LuaServer.Clean m.1 ∧ m.2.Clean := cleanMembers_iff

@[simp] theorem clean_nat (n : Nat) : Clean (.nat n) := trivial
@[simp] theorem clean_string (s : String) : Clean (.string s) := clean_text s

@[simp] theorem clean_object {ms : List (String × Json)} :
    Clean (object ms) ↔ ∀ m ∈ ms, m.2.Clean := by
  rw [object, clean_obj, List.forall_mem_map]
  simp

mutual

/-- Whether a value is clean can be decided, along its structure. -/
def decideClean : (v : Json) → Decidable v.Clean
  | .null | .bool _ | .int _ | .float _ => isTrue trivial
  | .str s => inferInstanceAs (Decidable (LuaServer.Clean s))
  | .arr items => decideCleanItems items
  | .obj ms => decideCleanMembers ms

/-- The same for the items of an array. -/
def decideCleanItems : (vs : List Json) → Decidable (CleanItems vs)
  | [] => isTrue trivial
  | v :: vs => @instDecidableAnd _ _ (decideClean v) (decideCleanItems vs)

/-- The same for the members of an object. -/
def decideCleanMembers : (ms : List (Text × Json)) → Decidable (CleanMembers ms)
  | [] => isTrue trivial
  | (n, v) :: ms =>
    @instDecidableAnd _ _ (inferInstanceAs (Decidable (LuaServer.Clean n)))
      (@instDecidableAnd _ _ (decideClean v) (decideCleanMembers ms))

end

instance (v : Json) : Decidable v.Clean := decideClean v

mutual

/-- What is written of a clean value is clean: besides its strings and names there are only signs, words
and digits. -/
theorem clean_render : ∀ {v : Json}, v.Clean → LuaServer.Clean v.render
  | .null, _ => clean_text _
  | .bool _, _ => clean_text _
  | .int n, _ => clean_decimalInt n
  | .float d, _ => clean_number d
  | .str _, h => clean_quote h
  | .arr vs, h => by
    have hitems : LuaServer.Clean (renderItems vs) := clean_renderItems h
    simp [render, hitems, isSurrogate_toNat]
  | .obj ms, h => by
    have hmembers : LuaServer.Clean (renderMembers ms) := clean_renderMembers h
    simp [render, hmembers, isSurrogate_toNat]

/-- The items of an array as they are written. -/
theorem clean_renderItems : ∀ {vs : List Json}, CleanItems vs → LuaServer.Clean (renderItems vs)
  | [], _ => clean_nil
  | [_], h => clean_render h.1
  | v :: w :: vs, h => by
    have hv := clean_render h.1
    have hvs : LuaServer.Clean (renderItems (w :: vs)) := clean_renderItems h.2
    simp [renderItems, hv, hvs, isSurrogate_toNat]

/-- The members of an object as they are written. -/
theorem clean_renderMembers : ∀ {ms : List (Text × Json)}, CleanMembers ms →
    LuaServer.Clean (renderMembers ms)
  | [], _ => clean_nil
  | [(n, v)], h => by
    have hv := clean_render h.2.1
    simp [renderMembers, clean_quote h.1, hv, isSurrogate_toNat]
  | (n, v) :: m :: ms, h => by
    have hv := clean_render h.2.1
    have hms : LuaServer.Clean (renderMembers (m :: ms)) := clean_renderMembers h.2.2
    simp [renderMembers, clean_quote h.1, hv, hms, isSurrogate_toNat]

end

mutual

/-- The same where a value is shown in a message, in another notation. -/
theorem clean_shown : ∀ {v : Json}, v.Clean → LuaServer.Clean v.shown
  | .null, _ => clean_text _
  | .bool _, _ => clean_text _
  | .int n, _ => clean_decimalInt n
  | .float d, _ => clean_double d
  | .str _, h => clean_literal h
  | .arr vs, h => by
    have hitems : LuaServer.Clean (shownItems vs) := clean_shownItems h
    simp [shown, hitems, isSurrogate_toNat]
  | .obj ms, h => by
    have hmembers : LuaServer.Clean (shownMembers ms) := clean_shownMembers h
    simp [shown, hmembers, isSurrogate_toNat]

theorem clean_shownItems : ∀ {vs : List Json}, CleanItems vs → LuaServer.Clean (shownItems vs)
  | [], _ => clean_nil
  | [_], h => clean_shown h.1
  | v :: w :: vs, h => by
    have hv := clean_shown h.1
    have hvs : LuaServer.Clean (shownItems (w :: vs)) := clean_shownItems h.2
    simp [shownItems, hv, hvs]

theorem clean_shownMembers : ∀ {ms : List (Text × Json)}, CleanMembers ms →
    LuaServer.Clean (shownMembers ms)
  | [], _ => clean_nil
  | [(n, v)], h => by
    have hv := clean_shown h.2.1
    simp [shownMembers, clean_literal h.1, hv]
  | (n, v) :: m :: ms, h => by
    have hv := clean_shown h.2.1
    have hms : LuaServer.Clean (shownMembers (m :: ms)) := clean_shownMembers h.2.2
    simp [shownMembers, clean_literal h.1, hv, hms]

end

/-- A text that a value is taken for. -/
theorem clean_asText {v : Json} (h : v.Clean) : LuaServer.Clean v.asText := by
  cases v with
  | str s => exact h
  | _ => exact clean_shown h

end Json

/-! ## 4. Encoding -/

/-- No surrogates are found in a clean text. -/
theorem firstSurrogates?_eq_none : ∀ {t : Text} (start : Nat), Clean t →
    Utf8.firstSurrogates? start t = none
  | [], _, _ => rfl
  | c :: t, start, h => by
    obtain ⟨hc, ht⟩ := clean_cons.mp h
    rw [Utf8.firstSurrogates?, hc]
    exact firstSurrogates?_eq_none (start + 1) ht

/-- **A value without surrogates can be encoded.** -/
theorem encode_of_clean {v : Json} (h : v.Clean) : ∃ bytes, encode v = .ok bytes := by
  refine ⟨v.render.flatMap Utf8.encodeCode, ?_⟩
  rw [encode, Utf8.encode, firstSurrogates?_eq_none 0 (Json.clean_render h)]

/-- The value of a member of a clean object is clean. -/
theorem clean_get? {ms : Members} (h : ∀ m ∈ ms, Clean m.1 ∧ m.2.Clean) {name : Text} {v : Json}
    (hv : Table.get? name ms = some v) : v.Clean := by
  induction ms with
  | nil => cases hv
  | cons m ms ih =>
    obtain ⟨n, w⟩ := m
    rw [Table.get?] at hv
    split at hv
    · cases hv
      exact (h _ List.mem_cons_self).2
    · exact ih (fun m hm => h m (List.mem_cons_of_mem _ hm)) hv

/-! ## 5. What cannot be encoded -/

namespace Json

/-- Beyond the controls and the ASCII marks nothing is escaped. -/
theorem escaped_of_le {c : Nat} (h : 0x80 ≤ c) : escaped c = [c] := by
  have hne : ∀ d : Nat, d < 0x80 → c ≠ d := by omega
  have hcontrol : ¬c < 0x20 := by omega
  rw [escaped, if_neg (hne _ (by decide)), if_neg (hne _ (by decide)), if_neg (hne _ (by decide)),
    if_neg (hne _ (by decide)), if_neg (hne _ (by decide)), if_neg (hne _ (by decide)),
    if_neg (hne _ (by decide)), if_neg hcontrol]

/-- Quoting loses no surrogate. -/
theorem clean_of_quote {s : Text} (h : LuaServer.Clean (quote s)) : LuaServer.Clean s := by
  intro c hc
  by_cases hlarge : 0x80 ≤ c
  · refine h c ?_
    simp only [quote, List.mem_append, List.mem_cons, List.mem_flatMap]
    exact .inl (.inr ⟨c, hc, by rw [escaped_of_le hlarge]; exact List.mem_singleton_self c⟩)
  · exact isSurrogate_eq_false.mpr (.inl (by dsimp only [Code] at *; omega))

mutual

/-- A value of which clean text is written is clean: nothing of it is left out. -/
theorem clean_of_render : ∀ {v : Json}, LuaServer.Clean v.render → v.Clean
  | .null, _ => trivial
  | .bool _, _ => trivial
  | .int _, _ => trivial
  | .float _, _ => trivial
  | .str _, h => clean_of_quote h
  | .arr vs, h => by
    simp only [render, clean_cons, clean_append] at h
    exact clean_of_renderItems h.1.2
  | .obj ms, h => by
    simp only [render, clean_cons, clean_append] at h
    exact clean_of_renderMembers h.1.2

theorem clean_of_renderItems : ∀ {vs : List Json}, LuaServer.Clean (renderItems vs) → CleanItems vs
  | [], _ => trivial
  | [_], h => ⟨clean_of_render h, trivial⟩
  | v :: w :: vs, h => by
    simp only [renderItems, clean_cons, clean_append] at h
    exact ⟨clean_of_render h.1, clean_of_renderItems h.2.2⟩

theorem clean_of_renderMembers : ∀ {ms : List (Text × Json)}, LuaServer.Clean (renderMembers ms) →
    CleanMembers ms
  | [], _ => trivial
  | [(n, v)], h => by
    simp only [renderMembers, clean_cons, clean_append] at h
    exact ⟨clean_of_quote h.1, clean_of_render h.2.2, trivial⟩
  | (n, v) :: m :: ms, h => by
    simp only [renderMembers, clean_cons, clean_append] at h
    exact ⟨clean_of_quote h.1.1, clean_of_render h.1.2.2, clean_of_renderMembers h.2.2⟩

end

end Json

/-- A text is clean in which no surrogates are found. -/
theorem clean_of_firstSurrogates? : ∀ {t : Text} {start : Nat},
    Utf8.firstSurrogates? start t = none → Clean t
  | [], _, _ => clean_nil
  | c :: t, start, h => by
    rw [Utf8.firstSurrogates?] at h
    split at h
    · cases h
    · next hc => exact clean_cons.mpr ⟨by simpa using hc, clean_of_firstSurrogates? h⟩

/-- **What cannot be encoded are the values with surrogates.** -/
theorem encode_fails_iff {m : Json} : (∃ u, encode m = .error u) ↔ ¬m.Clean := by
  constructor
  · rintro ⟨u, hu⟩ hclean
    obtain ⟨bytes, hbytes⟩ := encode_of_clean hclean
    rw [hu] at hbytes
    cases hbytes
  · intro hclean
    rw [encode, Utf8.encode]
    split
    · next u hu => exact ⟨u, rfl⟩
    · next hnone => exact absurd (Json.clean_of_render (clean_of_firstSurrogates? hnone)) hclean

end LuaServer
