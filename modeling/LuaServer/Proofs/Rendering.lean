/-
# Written values are read back

The writer escapes what a string may not hold as it is, and the reader undoes that; between them stand the
bytes of UTF-8.  A value is plain if nothing in it is lost on the way: its strings are characters, its
numbers are integers that the reader converts, and no two members of an object have one name.

The layers are those of the writer: the bytes of a character, the escapes of a string, the digits of an
integer, and then values, items and members together.  A numeral does not say where it ends, so a value is
read correctly only in front of what may follow one (`Follows`).

Main results: `Json.parse_render`, `Json.encode_of_plain`.
-/
import LuaServer.Proofs.Encoding
import LuaServer.Proofs.Locality

namespace LuaServer

/-! ## 1. Characters -/

/-- A character: a code point that is no surrogate. -/
def isCharacter (c : Code) : Bool := c ≤ maxCode && !isSurrogate c

theorem isCharacter_iff {c : Nat} :
    isCharacter c = true ↔ c < 0xD800 ∨ 0xDFFF < c ∧ c ≤ 0x10FFFF := by
  rw [isCharacter, Bool.and_eq_true, Bool.not_eq_true', isSurrogate_eq_false, decide_eq_true_iff]
  dsimp only [maxCode, Code]
  omega

theorem isCharacter_toNat (c : Char) : isCharacter c.toNat = true := by
  have hvalid : c.toNat < 0xD800 ∨ 0xDFFF < c.toNat ∧ c.toNat < 0x110000 := c.valid
  exact isCharacter_iff.mpr (hvalid.imp_right fun h => ⟨h.1, Nat.le_of_lt_succ h.2⟩)

/-- A text of characters. -/
def Characters (t : Text) : Prop := ∀ c ∈ t, isCharacter c = true

instance (t : Text) : Decidable (Characters t) := inferInstanceAs (Decidable (∀ c ∈ t, _))

section
variable {s t : Text}

@[simp] theorem characters_nil : Characters [] := by simp [Characters]

@[simp] theorem characters_cons {c : Code} :
    Characters (c :: t) ↔ isCharacter c = true ∧ Characters t := by
  simp [Characters]

@[simp] theorem characters_append : Characters (s ++ t) ↔ Characters s ∧ Characters t := by
  simp [Characters, or_imp, forall_and]

theorem characters_map_toNat (cs : List Char) : Characters (cs.map Char.toNat) := by
  intro c hc
  obtain ⟨x, -, rfl⟩ := List.mem_map.mp hc
  exact isCharacter_toNat x

@[simp] theorem characters_text (s : String) : Characters (text s) := characters_map_toNat _

@[simp] theorem characters_decimalInt : ∀ n : Int, Characters (decimalInt n)
  | .ofNat _ => characters_map_toNat _
  | .negSucc _ => characters_cons.mpr ⟨rfl, characters_map_toNat _⟩

@[simp] theorem characters_hexadecimal (width n : Nat) : Characters (Utf8.hexadecimal width n) := by
  refine characters_append.mpr ⟨?_, characters_map_toNat _⟩
  intro c hc
  rw [(List.mem_replicate.mp hc).2]
  rfl

theorem characters_escaped {c : Code} (hc : isCharacter c = true) : Characters (Json.escaped c) := by
  rw [Json.escaped]
  repeat' split
  all_goals simp [hc]

theorem characters_quote (hs : Characters s) : Characters (Json.quote s) := by
  have hbody : Characters (s.flatMap Json.escaped) := by
    intro d hd
    obtain ⟨c, hc, hd⟩ := List.mem_flatMap.mp hd
    exact characters_escaped (hs c hc) d hd
  simp [Json.quote, hbody, isCharacter_toNat]

/-- No character is a surrogate. -/
theorem Characters.clean (ht : Characters t) : Clean t := by
  intro c hc
  have h := ht c hc
  rw [isCharacter, Bool.and_eq_true, Bool.not_eq_true'] at h
  exact h.2

end

/-! ## 2. Bytes -/

namespace Utf8

theorem toNat_toUInt8 {n : Nat} (h : n < 256) : n.toUInt8.toNat = n := UInt8.toNat_ofNat_of_lt' h

/-- A continuation byte of six bits. -/
theorem continuation_cons {value taken count lo hi bits : Nat} (more : Bytes) (hbits : bits < 64)
    (hlo : lo ≤ 0x80 + bits) (hhi : 0x80 + bits ≤ hi) :
    continuation value taken (count + 1) lo hi ((0x80 + bits).toUInt8 :: more)
      = continuation (value * 64 + bits) (taken + 1) count 0x80 0xBF more := by
  have hbyte : (0x80 + bits).toUInt8.toNat = 0x80 + bits := toNat_toUInt8 (by omega)
  have hlow : (0x80 + bits) % 64 = bits := by omega
  rw [continuation, hbyte, if_pos ⟨hlo, hhi⟩, hlow]

/-- The bytes of a character are read as that character, whatever follows. -/
theorem unit_encodeCode {c : Nat} (hc : isCharacter c = true) (more : Bytes) :
    ∃ b bs, encodeCode c = b :: bs ∧ unit b (bs ++ more) = .ok (c, bs.length + 1) := by
  rw [isCharacter_iff] at hc
  unfold encodeCode
  dsimp only [Code] at *
  split
  · next h =>
    refine ⟨_, _, rfl, ?_⟩
    rw [unit, toNat_toUInt8 (by omega), if_pos h]
    rfl
  split
  · next h =>
    refine ⟨_, _, rfl, ?_⟩
    have hvalue : (0xC0 + c / 64) % 32 * 64 + c % 64 = c := by omega
    simp only [unit, toNat_toUInt8 (show 0xC0 + c / 64 < 256 by omega)]
    rw [if_neg (by omega), if_neg (by omega), if_pos (by omega), List.singleton_append,
      continuation_cons more (by omega) (by omega) (by omega), continuation, hvalue]
    rfl
  split
  · next h =>
    refine ⟨_, _, rfl, ?_⟩
    have hvalue : ((0xE0 + c / 4096) % 16 * 64 + c / 64 % 64) * 64 + c % 64 = c := by omega
    simp only [unit, toNat_toUInt8 (show 0xE0 + c / 4096 < 256 by omega)]
    rw [if_neg (by omega), if_neg (by omega), if_neg (by omega), if_pos (by omega), List.cons_append,
      continuation_cons _ (by omega) (by split <;> omega) (by split <;> omega), List.singleton_append,
      continuation_cons more (by omega) (by omega) (by omega), continuation, hvalue]
    rfl
  · next h =>
    refine ⟨_, _, rfl, ?_⟩
    have hvalue : (((0xF0 + c / 262144) % 8 * 64 + c / 4096 % 64) * 64 + c / 64 % 64) * 64 + c % 64 = c := by
      omega
    simp only [unit, toNat_toUInt8 (show 0xF0 + c / 262144 < 256 by omega)]
    rw [if_neg (by omega), if_neg (by omega), if_neg (by omega), if_neg (by omega), if_pos (by omega),
      List.cons_append, continuation_cons _ (by omega) (by split <;> omega) (by split <;> omega),
      List.cons_append, continuation_cons _ (by omega) (by omega) (by omega), List.singleton_append,
      continuation_cons more (by omega) (by omega) (by omega), continuation, hvalue]
    rfl

theorem decodeFrom_encode {t : Text} (ht : Characters t) (start : Nat) (acc : Text) :
    decodeFrom start acc (t.flatMap encodeCode) = .ok (acc.reverse ++ t) := by
  induction t generalizing start acc with
  | nil => rw [List.flatMap_nil, decodeFrom, List.append_nil]
  | cons c t ih =>
    obtain ⟨b, bs, hbytes, hunit⟩ :=
      unit_encodeCode (ht c List.mem_cons_self) (t.flatMap encodeCode)
    rw [List.flatMap_cons, hbytes, List.cons_append, decodeFrom, hunit]
    dsimp only
    rw [Nat.add_sub_cancel, List.drop_left, ih fun d hd => ht d (List.mem_cons_of_mem c hd)]
    simp

/-- **Characters are decoded from their bytes.** -/
theorem decode_flatMap_encodeCode {t : Text} (ht : Characters t) :
    decode (t.flatMap encodeCode) = .ok t :=
  decodeFrom_encode ht 0 []

end Utf8

/-! ## 3. Strings -/

namespace Json

/-- The escape of a control is read as the control. -/
theorem codeUnit?_hexadecimal {c : Nat} (hc : c < 0x20) (x : Code) (rest : Text) :
    codeUnit? (Utf8.hexadecimal 4 c ++ x :: rest) = some c := by
  have hdigits : ∀ c < 0x20, (Utf8.hexadecimal 4 c).length = 4 ∧
      ((Utf8.hexadecimal 4 c).mapM hexDigit?).map (ofDigits 16) = some c := by decide
  obtain ⟨hlength, hread⟩ := hdigits c hc
  rw [codeUnit?, List.drop_left' hlength, if_pos (List.cons_ne_nil x rest), List.take_left' hlength,
    hread]

/-- A code point is written as an escape of one letter, as an escape of four digits, or as itself. -/
theorem escaped_cases (c : Nat) :
    (∃ e, e ≠ code 'u' ∧ escapedCode? e = some c ∧ escaped c = [code '\\', e]) ∨
    (c < 0x20 ∧ escaped c = code '\\' :: code 'u' :: Utf8.hexadecimal 4 c) ∨
    (c ≠ code '"' ∧ c ≠ code '\\' ∧ ¬c < 0x20 ∧ escaped c = [c]) := by
  have hletter : ∀ (v : Nat) (e : Char), c = v → e ≠ 'u' → escapedCode? (code e) = some v →
      escaped v = [code '\\', code e] →
      ∃ e, e ≠ code 'u' ∧ escapedCode? e = some c ∧ escaped c = [code '\\', e] := by
    rintro v e rfl hu hv hwritten
    exact ⟨code e, fun h => hu (Char.toNat_inj.mp h), hv, hwritten⟩
  by_cases hquote : c = code '"'
  · exact .inl (hletter _ '"' hquote (by decide) (by decide) (by decide))
  by_cases hback : c = code '\\'
  · exact .inl (hletter _ '\\' hback (by decide) (by decide) (by decide))
  by_cases hn : c = 10
  · exact .inl (hletter _ 'n' hn (by decide) (by decide) (by decide))
  by_cases hr : c = 13
  · exact .inl (hletter _ 'r' hr (by decide) (by decide) (by decide))
  by_cases ht : c = 9
  · exact .inl (hletter _ 't' ht (by decide) (by decide) (by decide))
  by_cases hb : c = 8
  · exact .inl (hletter _ 'b' hb (by decide) (by decide) (by decide))
  by_cases hf : c = 12
  · exact .inl (hletter _ 'f' hf (by decide) (by decide) (by decide))
  rw [escaped, if_neg hquote, if_neg hback, if_neg hn, if_neg hr, if_neg ht, if_neg hb, if_neg hf]
  by_cases hcontrol : c < 0x20
  · rw [if_pos hcontrol]
    exact .inr (.inl ⟨hcontrol, rfl⟩)
  · rw [if_neg hcontrol]
    exact .inr (.inr ⟨hquote, hback, hcontrol, rfl⟩)

/-- An escaped code point is read as that code point. -/
theorem stringFrom_escaped (start offset : Nat) (acc : Text) (c x : Nat) (rest : Text) :
    ∃ offset', stringFrom start acc offset (escaped c ++ x :: rest)
      = stringFrom start (c :: acc) offset' (x :: rest) := by
  rcases escaped_cases c with ⟨e, hu, hvalue, heq⟩ | ⟨hcontrol, heq⟩ | ⟨hquote, hback, hcontrol, heq⟩
  · refine ⟨offset + 2, ?_⟩
    rw [heq, List.cons_append, List.singleton_append, stringFrom, if_neg (by decide), if_pos rfl,
      if_neg hu, hvalue]
  · have hescape : unicodeEscape ⟨offset + 1, code 'u' :: (Utf8.hexadecimal 4 c ++ x :: rest)⟩
        = .ok (c, 4) := by
      have hlow : isHigh c = false := by
        simp only [isHigh, Bool.and_eq_false_iff, decide_eq_false_iff_not]
        left
        dsimp only [Code]
        omega
      simp [unicodeEscape, codeUnit?_hexadecimal hcontrol, hlow]
    have hlength : (Utf8.hexadecimal 4 c).length = 4 := by
      have hall : ∀ c < 0x20, (Utf8.hexadecimal 4 c).length = 4 := by decide
      exact hall c hcontrol
    refine ⟨offset + 6, ?_⟩
    rw [heq, List.cons_append, List.cons_append, stringFrom, if_neg (by decide), if_pos rfl,
      if_pos rfl, hescape]
    dsimp only
    rw [List.drop_left' hlength]
  · refine ⟨offset + 1, ?_⟩
    rw [heq, List.singleton_append, stringFrom, if_neg hquote, if_neg hback, if_neg hcontrol]

/-- The text between the quotes of a string is read as the string. -/
theorem stringFrom_quote (start offset : Nat) (acc s rest : Text) :
    ∃ offset', stringFrom start acc offset (s.flatMap escaped ++ code '"' :: rest)
      = .ok (acc.reverse ++ s, ⟨offset', rest⟩) := by
  induction s generalizing acc offset with
  | nil =>
    refine ⟨offset + 1, ?_⟩
    rw [List.flatMap_nil, List.nil_append, List.append_nil, stringFrom.eq_def]
    exact if_pos rfl
  | cons c s ih =>
    have hfirst : ∃ x more, s.flatMap escaped ++ code '"' :: rest = x :: more := by
      cases s.flatMap escaped with
      | nil => exact ⟨_, _, rfl⟩
      | cons x more => exact ⟨_, _, rfl⟩
    obtain ⟨x, more, hmore⟩ := hfirst
    obtain ⟨offset₁, hone⟩ := stringFrom_escaped start offset acc c x more
    obtain ⟨offset₂, hrest⟩ := ih offset₁ (c :: acc)
    refine ⟨offset₂, ?_⟩
    rw [List.flatMap_cons, List.append_assoc, hmore, hone, ← hmore, hrest]
    simp

/-- A string is read from its quotes. -/
theorem stringAt_quote (offset : Nat) (s rest : Text) :
    ∃ offset', stringAt ⟨offset, quote s ++ rest⟩ = .ok (s, ⟨offset', rest⟩) := by
  have h := stringFrom_quote offset (offset + 1) [] s rest
  simpa [stringAt, quote] using h

/-! ## 4. Integers -/

theorem ne_of_isDigit {c d : Nat} (hd : isDigit d = true) (hc : isDigit c = false) : c ≠ d := by
  rintro rfl
  rw [hd] at hc
  cases hc

theorem isDigit_decimal {n : Nat} : ∀ c ∈ decimal n, isDigit c = true := by
  intro c hc
  obtain ⟨d, hd, rfl⟩ := List.mem_map.mp hc
  have hdigit : d.isDigit = true := Nat.isDigit_of_mem_toDigits (by decide) (by decide) hd
  have hrange : 48 ≤ d.toNat ∧ d.toNat ≤ 57 := by
    simpa [Char.isDigit, UInt32.le_iff_toNat_le] using hdigit
  exact Bool.and_eq_true_iff.mpr ⟨decide_eq_true hrange.1, decide_eq_true hrange.2⟩

theorem decimal_ne_nil (n : Nat) : decimal n ≠ [] := by simp [decimal]

/-- Only zero begins with a zero. -/
theorem eq_zero_of_head_decimal {n : Nat} (h : (decimal n).head? = some (code '0')) : n = 0 := by
  induction n using Nat.strongRecOn with
  | _ n ih =>
    by_cases hn : n < 10
    · have hsmall : ∀ n < 10, (decimal n).head? = some (code '0') → n = 0 := by decide
      exact hsmall n hn h
    · have hsplit : decimal n = decimal (n / 10) ++ [(n % 10).digitChar.toNat] := by
        simp [decimal, Nat.toDigits_of_base_le (by decide : 1 < 10) (Nat.not_lt.mp hn)]
      obtain ⟨d, ds, hquotient⟩ := List.exists_cons_of_ne_nil (decimal_ne_nil (n / 10))
      rw [hsplit, hquotient] at h
      have hzero := ih (n / 10) (by omega) (by rw [hquotient]; exact h)
      omega

/-- The digits are read as the number that they write. -/
theorem ofDigits_decimal (n : Nat) : ofDigits 10 ((decimal n).filterMap decimalDigit?) = n := by
  have hvalues : ∀ cs : List Char, (∀ c ∈ cs, c.isDigit = true) → ∀ init : Nat,
      ((cs.map Char.toNat).filterMap decimalDigit?).foldl (fun n d => n * 10 + d) init
        = Nat.ofDigitChars 10 cs init := by
    intro cs hcs
    induction cs with
    | nil => exact fun _ => rfl
    | cons c cs ih =>
      intro init
      have hrange : 0x30 ≤ c.toNat ∧ c.toNat ≤ 0x39 := by
        simpa [Char.isDigit, UInt32.le_iff_toNat_le] using hcs c List.mem_cons_self
      have hvalue : decimalDigit? c.toNat = some (c.toNat - 0x30) := if_pos hrange
      rw [List.map_cons, List.filterMap_cons_some hvalue, List.foldl_cons,
        ih fun d hd => hcs d (List.mem_cons_of_mem c hd), Nat.mul_comm]
      rfl
  have hdigits : ∀ c ∈ Nat.toDigits 10 n, c.isDigit = true :=
    fun c hc => Nat.isDigit_of_mem_toDigits (by decide) (by decide) hc
  have hread := hvalues _ hdigits 0
  rwa [Nat.ofDigitChars_toDigits (by decide) (by decide)] at hread

/-- What may follow a value: nothing, or what ends an item or a member. -/
def Follows (rest : Text) : Prop :=
  ∀ c, rest.head? = some c → c = code ',' ∨ c = code ']' ∨ c = code '\x7d'

theorem Follows.not_mem {rest : Text} (h : Follows rest) {c : Nat}
    (hc : c ≠ code ',' ∧ c ≠ code ']' ∧ c ≠ code '\x7d') : rest.head? ≠ some c := by
  intro hhead
  rcases h c hhead with rfl | rfl | rfl
  · exact hc.1 rfl
  · exact hc.2.1 rfl
  · exact hc.2.2 rfl

/-- A run of digits in front of what may follow a value is the whole numeral. -/
theorem numeralSize?_digits {sign ds rest : Text} {d : Nat} (hsign : sign = [] ∨ sign = [code '-'])
    (hds : ∀ c ∈ d :: ds, isDigit c = true) (hzero : d = code '0' → ds = []) (hrest : Follows rest) :
    numeralSize? (sign ++ (d :: ds ++ rest)) = some ((sign ++ d :: ds).length, false) := by
  have hstop : ∀ c, rest.head? = some c → isDigit c = false := by
    intro c hc
    rcases hrest c hc with rfl | rfl | rfl <;> decide
  have hwhole : (d :: ds ++ rest).takeWhile isDigit = d :: ds :=
    Lua.takeWhile_append_stop (List.all_eq_true.mpr hds) hstop
  have hminus : d ≠ code '-' := (ne_of_isDigit (hds d List.mem_cons_self) (by decide)).symm
  have hdrop : (sign ++ (d :: ds ++ rest)).drop
      (if (sign ++ (d :: ds ++ rest)).head? = some (code '-') then 1 else 0) = d :: ds ++ rest := by
    rcases hsign with rfl | rfl
    · rw [if_neg (by simpa using hminus)]
      rfl
    · rfl
  have hlength : (if (d :: ds ++ rest).head? = some (code '0') then 1 else (d :: ds).length)
      = (d :: ds).length := by
    split
    · next h => rw [hzero (Option.some.inj h), List.length_singleton]
    · rfl
  have hpoint : rest.head? ≠ some (code '.') := hrest.not_mem (by decide)
  have hexponent : ¬(rest.head? = some (code 'e') ∨ rest.head? = some (code 'E')) :=
    not_or.mpr ⟨hrest.not_mem (by decide), hrest.not_mem (by decide)⟩
  simp only [numeralSize?, hdrop, hwhole, hlength, List.drop_left, hpoint]
  rcases hsign with rfl | rfl
  · simp [hminus, hexponent]
  · simp [hexponent, Nat.add_comm]

theorem sign_decimal (n : Nat) : Double.sign (decimal n) = (false, decimal n) := by
  obtain ⟨d, ds, hdigits⟩ := List.exists_cons_of_ne_nil (decimal_ne_nil n)
  have hne := fun c => @ne_of_isDigit c d (isDigit_decimal d (hdigits ▸ List.mem_cons_self))
  rw [hdigits, Double.sign, if_neg (hne _ (by decide)).symm, if_neg (hne _ (by decide)).symm]

/-- An integer that can be converted is read from its digits. -/
theorem integer_decimalInt {n : Int} (hn : (decimal n.natAbs).length ≤ maxDigits) :
    integer (decimalInt n) = .ok n := by
  cases n with
  | ofNat n =>
    have hfew : ¬maxDigits < (decimal n).length := Nat.not_lt.mpr hn
    simp [integer, decimalInt, sign_decimal, hfew, ofDigits_decimal]
  | negSucc n =>
    have hfew : ¬maxDigits < (decimal (n + 1)).length := Nat.not_lt.mpr hn
    simp [integer, decimalInt, Double.sign, hfew, ofDigits_decimal, Int.negSucc_eq]

/-- An integer is written as a numeral: a minus sign or none, and digits that begin with a zero only
when there is just one. -/
theorem decimalInt_cases (n : Int) :
    ∃ sign d ds, decimalInt n = sign ++ d :: ds ∧ (sign = [] ∨ sign = [code '-']) ∧
      (∀ c ∈ d :: ds, isDigit c = true) ∧ (d = code '0' → ds = []) := by
  obtain ⟨d, ds, hdigits⟩ := List.exists_cons_of_ne_nil (decimal_ne_nil n.natAbs)
  have hall : ∀ c ∈ d :: ds, isDigit c = true := hdigits ▸ isDigit_decimal
  have hzero : d = code '0' → ds = [] := by
    rintro rfl
    have hnone := eq_zero_of_head_decimal (n := n.natAbs) (by rw [hdigits]; rfl)
    rw [hnone] at hdigits
    exact (List.cons.inj hdigits).2.symm
  cases n with
  | ofNat n => exact ⟨[], d, ds, hdigits, .inl rfl, hall, hzero⟩
  | negSucc n => exact ⟨[code '-'], d, ds, congrArg (code '-' :: ·) hdigits, .inr rfl, hall, hzero⟩

/-- **An integer that can be converted is read back.** -/
theorem numberAt_decimalInt {n : Int} (hn : (decimal n.natAbs).length ≤ maxDigits) (offset : Nat)
    {rest : Text} (hrest : Follows rest) :
    ∃ offset', numberAt ⟨offset, decimalInt n ++ rest⟩ = .ok (.int n, ⟨offset', rest⟩) := by
  have hsize : numeralSize? (decimalInt n ++ rest) = some ((decimalInt n).length, false) := by
    obtain ⟨sign, d, ds, hwritten, hsign, hall, hzero⟩ := decimalInt_cases n
    rw [hwritten, List.append_assoc]
    exact numeralSize?_digits hsign hall hzero hrest
  refine ⟨offset + (decimalInt n).length, ?_⟩
  simp [numberAt, hsize, integer_decimalInt hn, Cursor.skip]

/-! ## 5. Plain values -/

mutual

/-- A value that can be written and read back: its strings and names are characters, its numbers are
integers that can be converted, and the names of an object differ. -/
def Plain : Json → Prop
  | .null | .bool _ => True
  | .int n => (decimal n.natAbs).length ≤ maxDigits
  | .float _ => False
  | .str s => Characters s
  | .arr items => PlainItems items
  | .obj ms => (Table.keys ms).Nodup ∧ PlainMembers ms

/-- All items of an array are plain. -/
def PlainItems : List Json → Prop
  | [] => True
  | v :: vs => Plain v ∧ PlainItems vs

/-- All members of an object are plain, their names and their values. -/
def PlainMembers : List (Text × Json) → Prop
  | [] => True
  | (n, v) :: ms => Characters n ∧ Plain v ∧ PlainMembers ms

end

mutual

/-- Whether a value is plain can be decided, along its structure. -/
def decidePlain : (v : Json) → Decidable v.Plain
  | .null | .bool _ => isTrue trivial
  | .int n => inferInstanceAs (Decidable ((decimal n.natAbs).length ≤ maxDigits))
  | .float _ => isFalse id
  | .str s => inferInstanceAs (Decidable (Characters s))
  | .arr items => decidePlainItems items
  | .obj ms =>
    @instDecidableAnd _ _ (inferInstanceAs (Decidable (Table.keys ms).Nodup)) (decidePlainMembers ms)

/-- The same for the items of an array. -/
def decidePlainItems : (vs : List Json) → Decidable (PlainItems vs)
  | [] => isTrue trivial
  | v :: vs => @instDecidableAnd _ _ (decidePlain v) (decidePlainItems vs)

/-- The same for the members of an object. -/
def decidePlainMembers : (ms : List (Text × Json)) → Decidable (PlainMembers ms)
  | [] => isTrue trivial
  | (n, v) :: ms =>
    @instDecidableAnd _ _ (inferInstanceAs (Decidable (Characters n)))
      (@instDecidableAnd _ _ (decidePlain v) (decidePlainMembers ms))

end

instance (v : Json) : Decidable v.Plain := decidePlain v

/-! ## 6. Steps of the reader -/

/-- No value begins with white space, the end of a list or a byte order mark. -/
theorem head_render {v : Json} (hv : v.Plain) : ∃ c t, v.render = c :: t ∧ isSpace c = false ∧
    c ≠ code ']' ∧ c ≠ 0xFEFF := by
  cases v with
  | null => exact ⟨_, _, rfl, by decide⟩
  | bool b => cases b <;> exact ⟨_, _, rfl, by decide⟩
  | int n =>
    obtain ⟨sign, d, ds, hwritten, rfl | rfl, hall, -⟩ := decimalInt_cases n
    · have hne := fun c => @ne_of_isDigit c d (hall d List.mem_cons_self)
      refine ⟨d, ds, hwritten, ?_, (hne _ (by decide)).symm, (hne _ (by decide)).symm⟩
      simp only [isSpace, Bool.or_eq_false_iff, decide_eq_false_iff_not]
      exact ⟨⟨⟨(hne _ (by decide)).symm, (hne _ (by decide)).symm⟩, (hne _ (by decide)).symm⟩,
        (hne _ (by decide)).symm⟩
    · exact ⟨_, _, hwritten, by decide⟩
  | float d => exact hv.elim
  | str s => exact ⟨_, _, rfl, by decide⟩
  | arr vs => exact ⟨_, _, rfl, by decide⟩
  | obj ms => exact ⟨_, _, rfl, by decide⟩

/-- A numeral is neither a string nor a list nor a word. -/
theorem value_decimalInt (n : Int) (depth offset : Nat) (rest : Text) :
    value (depth + 1) ⟨offset, decimalInt n ++ rest⟩ = numberAt ⟨offset, decimalInt n ++ rest⟩ := by
  obtain ⟨sign, d, ds, hwritten, hsign, hall, -⟩ := decimalInt_cases n
  have hne := fun c => @ne_of_isDigit c d (hall d List.mem_cons_self)
  have hword : word? (decimalInt n ++ rest) = none := by
    rw [hwritten, word?, List.find?_eq_none]
    rcases hsign with rfl | rfl
    all_goals simp (disch := decide) [words, text, hne]
  have hat : ∀ x : Char, x ∈ ['"', '\x7b', '['] →
      Cursor.at ⟨offset, decimalInt n ++ rest⟩ x = false := by
    intro x hx
    have hcode : isDigit (code x) = false ∧ code '-' ≠ code x := by
      simp only [List.mem_cons, List.not_mem_nil, or_false] at hx
      rcases hx with rfl | rfl | rfl <;> decide
    rw [Cursor.at, decide_eq_false_iff_not, hwritten]
    rcases hsign with rfl | rfl
    · exact fun h => hne _ hcode.1 (Option.some.inj h).symm
    · exact fun h => hcode.2 (Option.some.inj h)
  rw [value, hat _ (by decide), hat _ (by decide), hat _ (by decide)]
  simp [hword]

theorem head_renderItems {v : Json} (hv : v.Plain) (vs : List Json) (rest : Text) :
    ∃ c t, renderItems (v :: vs) ++ rest = c :: t ∧ isSpace c = false ∧ c ≠ code ']' := by
  obtain ⟨c, t, hrender, hspace, hend, -⟩ := head_render hv
  cases vs with
  | nil => exact ⟨c, t ++ rest, by rw [renderItems, hrender]; rfl, hspace, hend⟩
  | cons w vs =>
    exact ⟨c, t ++ code ',' :: renderItems (w :: vs) ++ rest, by rw [renderItems, hrender]; rfl,
      hspace, hend⟩

theorem head_renderMembers (m : Text × Json) (ms : List (Text × Json)) (rest : Text) :
    ∃ t, renderMembers (m :: ms) ++ rest = code '"' :: t := by
  obtain ⟨n, v⟩ := m
  cases ms with
  | nil => exact ⟨_, rfl⟩
  | cons m ms => exact ⟨_, rfl⟩

/-- Every text that begins with `t` gives the value `v`, and leaves what stands after `t`. -/
def Reads (depth : Nat) (v : Json) (t : Text) : Prop :=
  ∀ offset rest, Follows rest → ∃ offset', value depth ⟨offset, t ++ rest⟩ = .ok (v, ⟨offset', rest⟩)

section
variable {depth c : Nat} {v : Json} {t u rest : Text}

theorem skipSpace_cons {offset : Nat} (hc : isSpace c = false) (t : Text) :
    Cursor.skipSpace ⟨offset, c :: t⟩ = ⟨offset, c :: t⟩ := by
  simp [Cursor.skipSpace, Cursor.skip, hc]

@[simp] theorem at_code {offset : Nat} (x y : Char) : Cursor.at ⟨offset, code x :: t⟩ y = decide (x = y) := by
  simp [Cursor.at, code, Char.toNat_inj]

/-- An array that is not empty goes on with its first item. -/
theorem value_bracket (offset : Nat) (hspace : isSpace c = false) (hend : c ≠ code ']') :
    value (depth + 1) ⟨offset, code '[' :: c :: t⟩ = items depth [] ⟨offset + 1, c :: t⟩ := by
  have hskip : Cursor.skipSpace (Cursor.skip 1 ⟨offset, code '[' :: c :: t⟩) = ⟨offset + 1, c :: t⟩ :=
    skipSpace_cons hspace t
  have hitem : Cursor.at ⟨offset + 1, c :: t⟩ ']' = false := by simp [Cursor.at, hend]
  simp [value, hskip, hitem]

/-- An object that is not empty goes on with its first name. -/
theorem value_brace (offset : Nat) :
    value (depth + 1) ⟨offset, code '\x7b' :: code '"' :: t⟩
      = members depth [] ⟨offset + 1, code '"' :: t⟩ := by
  have hskip : Cursor.skipSpace (Cursor.skip 1 ⟨offset, code '\x7b' :: code '"' :: t⟩)
      = ⟨offset + 1, code '"' :: t⟩ := skipSpace_cons rfl t
  simp [value, hskip]

/-- The last item of an array. -/
theorem items_last (offset : Nat) (acc : List Json) (hv : Reads depth v t) :
    ∃ offset', items (depth + 1) acc ⟨offset, t ++ code ']' :: rest⟩
      = .ok (.arr (acc.reverse ++ [v]), ⟨offset', rest⟩) := by
  obtain ⟨offset', hread⟩ := hv offset (code ']' :: rest) (by rintro c ⟨⟩; exact .inr (.inl rfl))
  refine ⟨offset' + 1, ?_⟩
  rw [items, hread]
  dsimp only
  rw [skipSpace_cons (by decide)]
  simp [Cursor.skip]

/-- An item of an array with another one after it. -/
theorem items_next (offset : Nat) (acc : List Json) (hv : Reads depth v t) (hspace : isSpace c = false) :
    ∃ offset', items (depth + 1) acc ⟨offset, t ++ code ',' :: c :: u⟩
      = items depth (v :: acc) ⟨offset', c :: u⟩ := by
  obtain ⟨offset', hread⟩ := hv offset (code ',' :: c :: u) (by rintro c ⟨⟩; exact .inl rfl)
  refine ⟨offset' + 1, ?_⟩
  have hskip : Cursor.skipSpace (Cursor.skip 1 ⟨offset', code ',' :: c :: u⟩)
      = ⟨offset' + 1, c :: u⟩ := skipSpace_cons hspace u
  rw [items, hread]
  dsimp only
  rw [skipSpace_cons (by decide), hskip]
  simp

/-- A member is read up to what stands after its value. -/
theorem members_member (offset : Nat) (name : Text) (acc : Members) (hv : Reads depth v t)
    (ht : ∃ c s, t = c :: s ∧ isSpace c = false) (hu : Follows u) :
    ∃ offset', members (depth + 1) acc ⟨offset, quote name ++ code ':' :: t ++ u⟩
      = (let c := Cursor.skipSpace ⟨offset', u⟩
        if c.at '\x7d' then .ok (.obj (Table.insert name v acc), c.skip 1)
        else if c.at ',' then members depth (Table.insert name v acc) (c.skip 1).skipSpace
        else c.fail .comma) := by
  obtain ⟨c, s, rfl, hspace⟩ := ht
  obtain ⟨offset₁, hname⟩ := stringAt_quote offset name (code ':' :: c :: (s ++ u))
  obtain ⟨offset₂, hread⟩ := hv (offset₁ + 1) u hu
  refine ⟨offset₂, ?_⟩
  have hquote : Cursor.at ⟨offset, quote name ++ code ':' :: c :: (s ++ u)⟩ '"' = true := by
    simp [Cursor.at, quote]
  have hskip : Cursor.skipSpace (Cursor.skip 1 ⟨offset₁, code ':' :: c :: (s ++ u)⟩)
      = ⟨offset₁ + 1, c :: (s ++ u)⟩ := skipSpace_cons hspace _
  rw [members, List.append_assoc, List.cons_append, List.cons_append, hquote, if_pos rfl, hname]
  dsimp only
  rw [skipSpace_cons (by decide), hskip, ← List.cons_append, hread]
  rfl

/-- The last member of an object. -/
theorem members_last (offset : Nat) {name : Text} {acc : Members} (hname : name ∉ Table.keys acc)
    (hv : Reads depth v t) (ht : ∃ c s, t = c :: s ∧ isSpace c = false) :
    ∃ offset', members (depth + 1) acc ⟨offset, quote name ++ code ':' :: t ++ code '\x7d' :: rest⟩
      = .ok (.obj (acc ++ [(name, v)]), ⟨offset', rest⟩) := by
  obtain ⟨offset', hread⟩ := members_member offset name acc hv ht
    (u := code '\x7d' :: rest) (by rintro c ⟨⟩; exact .inr (.inr rfl))
  refine ⟨offset' + 1, ?_⟩
  rw [hread, Table.insert_of_not_mem v hname, skipSpace_cons (by decide)]
  simp [Cursor.skip]

/-- A member of an object with another one after it. -/
theorem members_next (offset : Nat) {name : Text} {acc : Members} (hname : name ∉ Table.keys acc)
    (hv : Reads depth v t) (ht : ∃ c s, t = c :: s ∧ isSpace c = false) :
    ∃ offset', members (depth + 1) acc
        ⟨offset, quote name ++ code ':' :: t ++ code ',' :: code '"' :: u⟩
      = members depth (acc ++ [(name, v)]) ⟨offset', code '"' :: u⟩ := by
  obtain ⟨offset', hread⟩ := members_member offset name acc hv ht
    (u := code ',' :: code '"' :: u) (by rintro c ⟨⟩; exact .inl rfl)
  refine ⟨offset' + 1, ?_⟩
  have hskip : Cursor.skipSpace (Cursor.skip 1 ⟨offset', code ',' :: code '"' :: u⟩)
      = ⟨offset' + 1, code '"' :: u⟩ := skipSpace_cons rfl u
  rw [hread, Table.insert_of_not_mem v hname, skipSpace_cons (by decide)]
  simp [hskip]

end

/-! ## 7. Values -/

-- Of two steps into the depth one takes a code point: a value needs at most two for each code point
-- of its text, and the items or members of a list one more for the list itself.
mutual

/-- A value is read from its text, whatever may follow it. -/
theorem value_render : ∀ {v : Json}, v.Plain → ∀ {depth : Nat}, 2 * v.render.length ≤ depth →
    Reads depth v v.render
  | .null, _, 0, hdepth => absurd hdepth (by decide)
  | .null, _, _ + 1, _ => fun offset _ _ => ⟨offset + 4, rfl⟩
  | .bool true, _, 0, hdepth => absurd hdepth (by decide)
  | .bool true, _, _ + 1, _ => fun offset _ _ => ⟨offset + 4, rfl⟩
  | .bool false, _, 0, hdepth => absurd hdepth (by decide)
  | .bool false, _, _ + 1, _ => fun offset _ _ => ⟨offset + 5, rfl⟩
  | .int n, hn, 0, hdepth => by
    obtain ⟨c, t, hrender, -⟩ := head_render hn
    simp [hrender] at hdepth
  | .int n, hn, depth + 1, _ => by
    intro offset rest hrest
    rw [render, value_decimalInt]
    exact numberAt_decimalInt hn offset hrest
  | .str s, _, 0, hdepth => absurd hdepth (by simp [render, quote])
  | .str s, _, depth + 1, _ => by
    intro offset rest _
    obtain ⟨offset', hread⟩ := stringAt_quote offset s rest
    have hat : Cursor.at ⟨offset, quote s ++ rest⟩ '"' = true := by simp [Cursor.at, quote]
    exact ⟨offset', by rw [render, value, if_pos hat, hread]⟩
  | .arr [], _, 0, hdepth => absurd hdepth (by decide)
  | .arr [], _, _ + 1, _ => fun offset _ _ => ⟨offset + 2, rfl⟩
  | .arr (v :: vs), _, 0, hdepth => absurd hdepth (by simp [render])
  | .arr (v :: vs), hvs, depth + 1, hdepth => by
    intro offset rest _
    obtain ⟨c, t, hfirst, hspace, hend⟩ := head_renderItems hvs.1 vs (code ']' :: rest)
    have hinner : 2 * (renderItems (v :: vs)).length + 1 ≤ depth := by
      simp [render] at hdepth
      omega
    obtain ⟨offset', hread⟩ := items_render hvs hinner [] (offset + 1) rest
    refine ⟨offset', ?_⟩
    rw [hfirst] at hread
    rw [render, List.append_assoc, List.cons_append, List.singleton_append, hfirst,
      value_bracket _ hspace hend, hread]
    rfl
  | .obj [], _, 0, hdepth => absurd hdepth (by decide)
  | .obj [], _, _ + 1, _ => fun offset _ _ => ⟨offset + 2, rfl⟩
  | .obj (m :: ms), _, 0, hdepth => absurd hdepth (by simp [render])
  | .obj (m :: ms), hms, depth + 1, hdepth => by
    intro offset rest _
    obtain ⟨t, hfirst⟩ := head_renderMembers m ms (code '\x7d' :: rest)
    have hinner : 2 * (renderMembers (m :: ms)).length + 1 ≤ depth := by
      simp [render] at hdepth
      omega
    obtain ⟨offset', hread⟩ := members_render hms.2 hinner [] (offset + 1) rest hms.1
    refine ⟨offset', ?_⟩
    rw [hfirst] at hread
    rw [render, List.append_assoc, List.cons_append, List.singleton_append, hfirst, value_brace, hread]
    rfl

theorem items_render : ∀ {v : Json} {vs : List Json}, PlainItems (v :: vs) → ∀ {depth : Nat},
    2 * (renderItems (v :: vs)).length + 1 ≤ depth → ∀ (acc : List Json) (offset : Nat) (rest : Text),
    ∃ offset', items depth acc ⟨offset, renderItems (v :: vs) ++ code ']' :: rest⟩
      = .ok (.arr (acc.reverse ++ v :: vs), ⟨offset', rest⟩)
  | v, [], h, depth + 1, hdepth, acc, offset, rest =>
    items_last offset acc (value_render h.1 (Nat.le_of_succ_le_succ hdepth))
  | v, w :: vs, h, depth + 1, hdepth, acc, offset, rest => by
    have hlength : (renderItems (v :: w :: vs)).length
        = v.render.length + 1 + (renderItems (w :: vs)).length := by
      simp [renderItems]
      omega
    have hv : Reads depth v v.render := value_render h.1 (by omega)
    obtain ⟨c, t, hfirst, hspace, -⟩ := head_renderItems h.2.1 vs (code ']' :: rest)
    obtain ⟨offset₁, hnext⟩ := items_next offset (u := t) acc hv hspace
    have hinner : 2 * (renderItems (w :: vs)).length + 1 ≤ depth := by omega
    obtain ⟨offset₂, hread⟩ := items_render h.2 hinner (v :: acc) offset₁ rest
    refine ⟨offset₂, ?_⟩
    rw [hfirst] at hread
    rw [renderItems, List.append_assoc, List.cons_append, hfirst, hnext, hread]
    simp

theorem members_render : ∀ {m : Text × Json} {ms : List (Text × Json)}, PlainMembers (m :: ms) →
    ∀ {depth : Nat}, 2 * (renderMembers (m :: ms)).length + 1 ≤ depth → ∀ (acc : Members)
    (offset : Nat) (rest : Text), (Table.keys (acc ++ m :: ms)).Nodup →
    ∃ offset', members depth acc ⟨offset, renderMembers (m :: ms) ++ code '\x7d' :: rest⟩
      = .ok (.obj (acc ++ m :: ms), ⟨offset', rest⟩)
  | (n, v), ms, h, depth + 1, hdepth, acc, offset, rest, hkeys => by
    have hnew : n ∉ Table.keys acc := by
      intro hmem
      simp only [Table.keys, List.map_append, List.nodup_append] at hkeys
      exact hkeys.2.2 n hmem n List.mem_cons_self rfl
    obtain ⟨c, t, hrender, hspace, -⟩ := head_render h.2.1
    cases ms with
    | nil =>
      have hlength : v.render.length ≤ (renderMembers [(n, v)]).length := by
        simp [renderMembers]
        omega
      have hv : Reads depth v v.render := value_render h.2.1 (by omega)
      exact members_last offset hnew hv ⟨c, t, hrender, hspace⟩
    | cons m ms =>
      have hlength : v.render.length + 1 + (renderMembers (m :: ms)).length
          ≤ (renderMembers ((n, v) :: m :: ms)).length := by
        simp [renderMembers]
        omega
      have hv : Reads depth v v.render := value_render h.2.1 (by omega)
      obtain ⟨u, hfirst⟩ := head_renderMembers m ms (code '\x7d' :: rest)
      obtain ⟨offset₁, hnext⟩ :=
        members_next offset (u := u) hnew hv ⟨c, t, hrender, hspace⟩
      have hinner : 2 * (renderMembers (m :: ms)).length + 1 ≤ depth := by omega
      obtain ⟨offset₂, hread⟩ :=
        members_render h.2.2 hinner (acc ++ [(n, v)]) offset₁ rest (by simpa using hkeys)
      refine ⟨offset₂, ?_⟩
      rw [hfirst] at hread
      rw [renderMembers, List.append_assoc, List.cons_append, hfirst, hnext, hread]
      simp

end

/-- **A value is parsed from its text.** -/
theorem parse_render {v : Json} (hv : v.Plain) : parse v.render = .ok v := by
  obtain ⟨c, t, hrender, hspace, -, hmark⟩ := head_render hv
  have hdepth : 2 * v.render.length ≤ 2 * v.render.length + 2 := Nat.le_add_right _ 2
  obtain ⟨offset, hread⟩ := value_render hv hdepth 0 [] (by rintro c ⟨⟩)
  rw [List.append_nil, hrender] at hread
  rw [parse, hrender, if_neg (by simpa using hmark), skipSpace_cons hspace, hread]
  rfl

mutual

theorem characters_render : ∀ {v : Json}, v.Plain → Characters v.render
  | .null, _ => characters_text _
  | .bool _, _ => characters_text _
  | .int n, _ => characters_decimalInt n
  | .str _, h => characters_quote h
  | .arr vs, h => by
    have hitems : Characters (renderItems vs) := characters_renderItems h
    simp [render, hitems, isCharacter_toNat]
  | .obj ms, h => by
    have hmembers : Characters (renderMembers ms) := characters_renderMembers h.2
    simp [render, hmembers, isCharacter_toNat]

theorem characters_renderItems : ∀ {vs : List Json}, PlainItems vs → Characters (renderItems vs)
  | [], _ => characters_nil
  | [_], h => characters_render h.1
  | v :: w :: vs, h => by
    have hv := characters_render h.1
    have hvs : Characters (renderItems (w :: vs)) := characters_renderItems h.2
    simp [renderItems, hv, hvs, isCharacter_toNat]

theorem characters_renderMembers : ∀ {ms : List (Text × Json)}, PlainMembers ms →
    Characters (renderMembers ms)
  | [], _ => characters_nil
  | [(n, v)], h => by
    have hv := characters_render h.2.1
    simp [renderMembers, characters_quote h.1, hv, isCharacter_toNat]
  | (n, v) :: m :: ms, h => by
    have hv := characters_render h.2.1
    have hms : Characters (renderMembers (m :: ms)) := characters_renderMembers h.2.2
    simp [renderMembers, characters_quote h.1, hv, hms, isCharacter_toNat]

end

theorem Plain.clean {v : Json} (hv : v.Plain) : v.Clean := clean_of_render (characters_render hv).clean

/-- **The bytes of a value are UTF-8 and decode to its text.** -/
theorem encode_of_plain {v : Json} (hv : v.Plain) :
    ∃ bytes, encode v = .ok bytes ∧ Utf8.decode bytes = .ok v.render := by
  have hcharacters := characters_render hv
  refine ⟨v.render.flatMap Utf8.encodeCode, ?_, Utf8.decode_flatMap_encodeCode hcharacters⟩
  rw [encode, Utf8.encode, firstSurrogates?_eq_none 0 hcharacters.clean]

end Json
end LuaServer
