/-
# Number tokens

Every numeral that can be converted is read as a whole: `numberExtent` takes all of it, and `numeral?` has a
value for it, for an integer the value of its digits.  Together with what `numeral?_sound` says about the texts
that are read, this tells which texts are numbers.

Main results: `NumeralForm.numeral?_complete`, `tokenize_numerals`.
-/
import LuaServer.Proofs.Lexemes
import LuaServer.Proofs.Numerals

namespace LuaServer.Lua

/-! ## 1. The extent of a numeral -/

section
variable {r : Radix} {c : Code}

/-- The extent of a number behind its lead. -/
def Radix.size (r : Radix) (t : Text) : Nat × Bool :=
  numberSize (fun c => (r.digit? c).isSome) r.isMark t

theorem Radix.size_decimal (t : Text) : Radix.decimal.size t = decimalSize t := by
  have hdigit : isDigit = fun c => (Radix.decimal.digit? c).isSome := funext isDigit_eq_isSome
  rw [decimalSize, hdigit]
  rfl

theorem digit?_of_isMark (h : r.isMark c = true) : r.digit? c = none := by
  cases r with
  | decimal =>
    have hc : c = code 'e' ∨ c = code 'E' := by simpa [Radix.isMark] using h
    rcases hc with rfl | rfl <;> rfl
  | hexadecimal =>
    have hc : c = code 'p' ∨ c = code 'P' := by simpa [Radix.isMark] using h
    rcases hc with rfl | rfl <;> rfl

theorem ne_point_of_isMark (h : r.isMark c = true) : c ≠ code '.' := by
  rintro rfl
  cases r with
  | decimal => exact absurd h (by decide)
  | hexadecimal => cases h

theorem not_isMark_of_digit (h : (r.digit? c).isSome) : r.isMark c = false := by
  rw [← Bool.not_eq_true]
  intro hmark
  rw [digit?_of_isMark hmark] at h
  cases h

theorem ne_point_of_digit (h : (r.digit? c).isSome) : c ≠ code '.' := by
  rintro rfl
  rw [digit?_point] at h
  cases h

/-- Digits belong to a number. -/
theorem numberSize_digits {digit mark : Code → Bool} {ds : Text} (hds : ∀ c ∈ ds, digit c = true)
    (rest : Text) : numberSize digit mark (ds ++ rest)
      = (ds.length + (numberSize digit mark rest).1, (numberSize digit mark rest).2) := by
  induction ds with
  | nil => simp
  | cons c ds ih =>
    obtain ⟨hc, hds⟩ := List.forall_mem_cons.mp hds
    rw [List.cons_append, numberSize.eq_def]
    simp only [hc, if_true, ih hds, List.length_cons, Nat.add_right_comm]

theorem Radix.size_digits {ds : Text} (hds : ∀ c ∈ ds, (r.digit? c).isSome) (rest : Text) :
    r.size (ds ++ rest) = (ds.length + (r.size rest).1, (r.size rest).2) :=
  numberSize_digits hds rest

theorem Radix.size_point (t : Text) : r.size (code '.' :: t) = ((r.size t).1 + 1, true) := by
  rw [Radix.size, numberSize.eq_def]
  simp only [digit?_point, Option.isSome_none, Bool.false_eq_true, if_false, if_true, Radix.size]

/-- An exponent belongs to a number. -/
theorem size_exponent (e : Exponent r) : r.size e.text = (e.text.length, true) := by
  have hdigits : numberSize isDigit r.isMark e.digits = (e.digits.length, false) := by
    have hall : ∀ c ∈ e.digits, isDigit c = true := by
      intro c hc
      rw [isDigit_eq_isSome]
      exact e.areDigits c hc
    have hsize : numberSize isDigit r.isMark (e.digits ++ []) = _ := numberSize_digits hall []
    rwa [List.append_nil] at hsize
  have hdigit := digit?_of_isMark e.isMark
  have hpoint := ne_point_of_isMark e.isMark
  rw [Exponent.text, Radix.size, numberSize.eq_def]
  simp only [hdigit, Option.isSome_none, Bool.false_eq_true, if_false, if_neg hpoint, e.isMark, if_true]
  rcases e.isSign with hsign | hsign | hsign
  · obtain ⟨d, ds, hds⟩ := List.exists_cons_of_ne_nil e.notEmpty
    have hd : ¬(d = code '+' ∨ d = code '-') := by
      have hd := e.areDigits d (by rw [hds]; exact List.mem_cons_self)
      rintro (rfl | rfl) <;> cases hd
    rw [hds] at hdigits
    simp only [hsign, List.nil_append, hds, if_neg hd, hdigits, List.length_cons]
  · simp only [hsign, List.singleton_append, true_or, if_true, hdigits, List.length_cons]
  · simp only [hsign, List.singleton_append, or_true, if_true, hdigits, List.length_cons]

theorem sign_of_ne {c : Code} {t : Text} (hminus : c ≠ code '-') (hplus : c ≠ code '+') :
    Double.sign (c :: t) = (false, c :: t) := by
  rw [Double.sign, if_neg hminus, if_neg hplus]

/-- A number has no sign. -/
theorem sign_of_startsNumber {c : Code} {t : Text}
    (h : (isDigit c || (c = code '.' && t.head?.any isDigit)) = true) :
    Double.sign (c :: t) = (false, c :: t) := by
  refine sign_of_ne ?_ ?_
  all_goals
    rintro rfl
    cases h

theorem Exponent.exponent?_eq (e : Exponent r) :
    Double.exponent? (e.sign ++ e.digits) = some e.value := by
  have hdigits : digits? decimalDigit? e.digits = some (e.digits.filterMap decimalDigit?) :=
    digits?_of_mapM rfl e.notEmpty (mapM_eq_some_iff.mpr ⟨e.areDigits, rfl⟩)
  have hsign : Double.sign (e.sign ++ e.digits) = (decide (e.sign = [code '-']), e.digits) := by
    rcases e.isSign with hsign | hsign | hsign
    · obtain ⟨d, ds, hds⟩ := List.exists_cons_of_ne_nil e.notEmpty
      have hd := e.areDigits d (by rw [hds]; exact List.mem_cons_self)
      rw [hsign, List.nil_append, hds]
      exact sign_of_ne (by rintro rfl; cases hd) (by rintro rfl; cases hd)
    · rw [hsign]
      rfl
    · rw [hsign]
      rfl
  simp only [Double.exponent?, hsign, hdigits, Option.map_some, decide_eq_true_eq, Exponent.value]

theorem Exponent.underscore_not_mem (e : Exponent r) : code '_' ∉ e.sign ++ e.digits := by
  have hsign : code '_' ∉ e.sign := by
    rcases e.isSign with hsign | hsign | hsign <;> rw [hsign] <;> decide
  have hdigits : code '_' ∉ e.digits := underscore_not_mem_digits (r := .decimal) e.areDigits
  simp only [List.mem_append, not_or]
  exact ⟨hsign, hdigits⟩

theorem digitsOrNone?_of_digits {digit? : Code → Option Nat} {t : Text}
    (hunderscore : digit? (code '_') = none) (h : ∀ c ∈ t, (digit? c).isSome) :
    Double.digitsOrNone? digit? t = some (t.filterMap digit?) := by
  rw [Double.digitsOrNone?]
  split
  · next ht =>
    subst ht
    rfl
  · next hne => exact digits?_of_mapM hunderscore hne (mapM_eq_some_iff.mpr ⟨h, rfl⟩)

/-- Digits alone do not begin with an underscore. -/
theorem hexInteger?_of_digits {t : Text} {ds : List Nat} (h : digits? hexDigit? t = some ds) :
    hexInteger? t = hexNatural? t := by
  cases t with
  | nil => cases h
  | cons c rest =>
    have hc : c ≠ code '_' := by
      rintro rfl
      cases rest <;> cases h
    rw [hexInteger?, if_neg hc]

/-- A decimal number that is read as a whole does not begin with `0x`: it would end before the `x`. -/
theorem isHexadecimal_of_decimalSize {t : Text} {float : Bool}
    (h : decimalSize t = (t.length, float)) : isHexadecimal t = false := by
  rw [← Bool.not_eq_true]
  intro hhex
  obtain ⟨capital, rest, rfl⟩ := isHexadecimal_iff.mp hhex
  have hsize : decimalSize ((Radix.hexadecimal capital).lead ++ rest) = (1, false) := by
    have hzero : ∀ c ∈ [code '0'], isDigit c = true := by decide
    cases capital
    · exact (numberSize_digits hzero (code 'x' :: rest)).trans (by rw [numberSize.eq_def]; rfl)
    · exact (numberSize_digits hzero (code 'X' :: rest)).trans (by rw [numberSize.eq_def]; rfl)
  rw [hsize] at h
  have hlength := congrArg Prod.fst h
  simp [Radix.lead] at hlength

/-! ## 2. Numerals are read -/

namespace NumeralForm

variable (w : NumeralForm)

theorem size_exponentText : w.radix.size w.exponentText = (w.exponentText.length, w.exponent.isSome) := by
  rw [exponentText]
  cases w.exponent with
  | none => rfl
  | some e => exact size_exponent e

theorem size_fractionText :
    w.radix.size (w.fractionText ++ w.exponentText)
      = ((w.fractionText ++ w.exponentText).length, w.isFloat) := by
  have hrest := w.size_exponentText
  have hdigits := (List.forall_mem_append.mp w.areDigits).2
  rw [fractionText, isFloat]
  cases hfraction : w.fraction with
  | none => exact hrest
  | some f =>
    rw [hfraction, Option.getD_some] at hdigits
    rw [Option.elim_some, List.cons_append, Radix.size_point, Radix.size_digits hdigits, hrest]
    simp

/-- **A numeral is a number as a whole.** -/
theorem size_body : w.radix.size w.body = (w.body.length, w.isFloat) := by
  have hdigits := (List.forall_mem_append.mp w.areDigits).1
  rw [body, Radix.size_digits hdigits, w.size_fractionText, ← List.length_append]

theorem isHexadecimal_text : isHexadecimal w.text = decide (w.radix ≠ .decimal) := by
  have hbody := w.size_body
  rw [text]
  cases hradix : w.radix with
  | decimal =>
    rw [hradix, Radix.size_decimal] at hbody
    exact isHexadecimal_of_decimalSize hbody
  | hexadecimal capital => exact isHexadecimal_iff.mpr ⟨capital, w.body, rfl⟩

theorem numberExtent_text : numberExtent w.text = (w.text.length, w.isFloat) := by
  have hbody := w.size_body
  have hhex := w.isHexadecimal_text
  have hproper : numberProper w.text = (w.text.length, w.isFloat) := by
    rw [numberProper, hhex, text]
    cases hradix : w.radix with
    | decimal =>
      rw [hradix, Radix.size_decimal] at hbody
      exact hbody
    | hexadecimal capital =>
      rw [hradix] at hbody
      have hsize : hexadecimalSize w.body = (w.body.length, w.isFloat) := hbody
      have hdrop : ((Radix.hexadecimal capital).lead ++ w.body).drop 2 = w.body := rfl
      rw [hdrop, hsize]
      rfl
  rw [numberExtent_eq, hproper, List.drop_length]
  rfl

/-- The exponent is read with its value. -/
theorem exponent?_value :
    (w.exponent.map fun e => e.sign ++ e.digits).elim (some 0) Double.exponent?
      = some (w.exponent.elim 0 Exponent.value) := by
  cases w.exponent with
  | none => rfl
  | some e => exact e.exponent?_eq

theorem cut_body :
    Double.cut w.radix.isMark w.body
      = (w.whole ++ w.fractionText, w.exponent.map fun e => e.sign ++ e.digits) := by
  have hmantissa : ∀ c ∈ w.whole ++ w.fractionText, w.radix.isMark c = false := by
    have hpoint : w.radix.isMark (code '.') = false := by
      rw [← Bool.not_eq_true]
      exact fun h => ne_point_of_isMark h rfl
    obtain ⟨hwhole, hfraction⟩ := List.forall_mem_append.mp w.areDigits
    refine List.forall_mem_append.mpr ⟨fun c hc => not_isMark_of_digit (hwhole c hc), ?_⟩
    rw [fractionText]
    cases hf : w.fraction with
    | none => simp
    | some f =>
      rw [hf] at hfraction
      exact List.forall_mem_cons.mpr ⟨hpoint, fun c hc => not_isMark_of_digit (hfraction c hc)⟩
  rw [body, exponentText, ← List.append_assoc]
  cases w.exponent with
  | none =>
    rw [Option.elim_none, List.append_nil]
    exact cut_of_none hmantissa
  | some e => exact cut_of_some hmantissa e.isMark

theorem cut_mantissa : Double.cut (· = code '.') (w.whole ++ w.fractionText) = (w.whole, w.fraction) := by
  have hwhole : ∀ c ∈ w.whole, decide (c = code '.') = false := fun c hc =>
    decide_eq_false (ne_point_of_digit ((List.forall_mem_append.mp w.areDigits).1 c hc))
  rw [fractionText]
  cases w.fraction with
  | none =>
    rw [Option.elim_none, List.append_nil]
    exact cut_of_none hwhole
  | some f => exact cut_of_some hwhole (decide_eq_true rfl)

/-- A decimal numeral can be converted. -/
theorem decimal?_complete (hradix : w.radix = .decimal)
    (hsign : Double.sign w.body = (false, w.body)) : ∃ d, Double.decimal? w.body = some d := by
  obtain ⟨hwhole, hfraction⟩ := List.forall_mem_append.mp w.areDigits
  have hmark : (fun c => decide (c = code 'e') || decide (c = code 'E')) = w.radix.isMark := by
    rw [hradix]
    rfl
  have hdigit : decimalDigit? = w.radix.digit? := by rw [hradix]; rfl
  have hunderscore := digit?_underscore w.radix
  rw [Double.decimal?, hsign]
  simp only [hmark, hdigit, w.cut_body, w.cut_mantissa, digitsOrNone?_of_digits hunderscore hwhole,
    digitsOrNone?_of_digits hunderscore hfraction, w.exponent?_value]
  have hne : ¬(w.whole.filterMap w.radix.digit? = []
      ∧ (w.fraction.getD []).filterMap w.radix.digit? = []) := by
    rw [← List.append_eq_nil_iff, ← List.filterMap_append]
    exact filterMap_digits_ne_nil w.areDigits w.notEmpty
  rw [if_neg hne]
  exact ⟨_, rfl⟩

/-- A hexadecimal numeral that rounds to a finite double can be converted. -/
theorem hexadecimal?_complete {capital : Bool} (hradix : w.radix = .hexadecimal capital)
    (hrange : w.mantissa * 2 ^ w.scale.toNat < Double.limit * 2 ^ (-w.scale).toNat) :
    ∃ d, Double.hexadecimal? w.body = some d := by
  have hmark : (fun c => decide (c = code 'p') || decide (c = code 'P')) = w.radix.isMark := by
    rw [hradix]
    rfl
  have hdigit : hexDigit? = w.radix.digit? := by rw [hradix]; rfl
  have hbase : 16 = w.radix.base := by rw [hradix]; rfl
  have hvalues : (w.whole ++ w.fraction.getD []).mapM w.radix.digit?
      = some ((w.whole ++ w.fraction.getD []).filterMap w.radix.digit?) :=
    mapM_eq_some_iff.mpr ⟨w.areDigits, rfl⟩
  have hne := filterMap_digits_ne_nil w.areDigits w.notEmpty
  have hplain : ((w.exponent.map fun e => e.sign ++ e.digits).getD []).all (· != code '_') = true := by
    cases w.exponent with
    | none => rfl
    | some e => exact all_ne_underscore.mpr e.underscore_not_mem
  rw [Double.hexadecimal?]
  simp only [hmark, hdigit, w.cut_body, w.cut_mantissa, hvalues, w.exponent?_value, hplain, if_neg hne]
  have hm : ofDigits 16 ((w.whole ++ w.fraction.getD []).filterMap w.radix.digit?) = w.mantissa := by
    rw [hbase]
    rfl
  have he : w.exponent.elim 0 Exponent.value - 4 * ((w.fraction.getD []).length : Int) = w.scale := rfl
  rw [hm, he]
  split
  · exact ⟨_, rfl⟩
  · next hmantissa =>
    have hlog := Double.log2_lt hrange hmantissa
    rw [if_neg (by omega)]
    split
    · exact ⟨_, rfl⟩
    · obtain ⟨m, e, hfinite⟩ := Double.ofRatio_power_finite hrange
      rw [hfinite]
      exact ⟨_, rfl⟩

/-- The grammar has no underscores. -/
theorem underscore_not_mem_text : code '_' ∉ w.text := by
  have hrest : code '_' ∉ w.exponentText := by
    rw [exponentText]
    cases w.exponent with
    | none => exact List.not_mem_nil
    | some e => exact underscore_not_mem_exponent e.isMark e.underscore_not_mem
  have hbody : code '_' ∉ w.body := underscore_not_mem_parts (underscore_not_mem_digits w.areDigits) hrest
  rw [text, List.mem_append, not_or]
  exact ⟨underscore_not_mem_lead _, hbody⟩

/-- A numeral begins as a number does. -/
theorem startsNumber : ∃ c rest, w.text = c :: rest ∧
    (isDigit c || (c = code '.' && rest.head?.any isDigit)) = true := by
  obtain ⟨r, whole, fraction, exponent, hdigits, hne⟩ := w
  cases r with
  | hexadecimal capital => exact ⟨_, _, rfl, rfl⟩
  | decimal =>
    cases whole with
    | cons c whole =>
      have hc := hdigits c List.mem_cons_self
      exact ⟨c, _, rfl, by rw [isDigit_eq_isSome]; exact Bool.or_eq_true_iff.mpr (.inl hc)⟩
    | nil =>
      cases fraction with
      | none => exact absurd rfl hne
      | some f =>
        obtain ⟨d, ds, hds⟩ : ∃ d ds, f = d :: ds := List.exists_cons_of_ne_nil hne
        subst hds
        have hd : isDigit d = true := by
          rw [isDigit_eq_isSome]
          exact hdigits d List.mem_cons_self
        exact ⟨code '.', _, rfl, hd⟩

/-- An integer is its digits. -/
theorem parts_of_integer (h : w.isFloat = false) : w.fraction = none ∧ w.body = w.whole := by
  obtain ⟨hfraction, hexponent⟩ := Bool.or_eq_false_iff.mp h
  rw [Option.isSome_eq_false_iff, Option.isNone_iff_eq_none] at hfraction hexponent
  refine ⟨hfraction, ?_⟩
  rw [body, fractionText, exponentText, hfraction, hexponent]
  exact List.append_nil _

/-- The digits of an integer are read, and its value is what they write. -/
theorem digits?_of_integer (h : w.isFloat = false) :
    ∃ ds, digits? w.radix.digit? w.body = some ds ∧ ds.length = w.whole.length ∧
      ofDigits w.radix.base ds = w.mantissa := by
  obtain ⟨hfraction, hbody⟩ := w.parts_of_integer h
  have hdigits := w.areDigits
  have hne := w.notEmpty
  rw [hfraction, Option.getD_none, List.append_nil] at hdigits hne
  refine ⟨w.whole.filterMap w.radix.digit?, ?_, length_filterMap_digits hdigits, ?_⟩
  · rw [hbody]
    exact digits?_of_mapM (digit?_underscore _) hne (mapM_eq_some_iff.mpr ⟨hdigits, rfl⟩)
  · rw [mantissa, hfraction, Option.getD_none, List.append_nil]

theorem numeral?_decimal (hradix : w.radix = .decimal) (h : w.Convertible) :
    ∃ v, numeral? w.text w.isFloat = some v ∧ w.Denotes v := by
  have hhex : isHexadecimal w.text = false := by rw [w.isHexadecimal_text, hradix]; rfl
  have htext : w.text = w.body := by rw [text, hradix]; rfl
  cases hfloat : w.isFloat with
  | false =>
    rw [Convertible, hradix, hfloat] at h
    obtain ⟨ds, hds, hlength, hvalue⟩ := w.digits?_of_integer hfloat
    rw [hradix] at hds hvalue
    have hnatural : natural? decimalDigit? w.text = some w.mantissa :=
      natural?_eq_some.mpr ⟨ds, by rwa [htext], by rwa [hlength], hvalue⟩
    refine ⟨.integer w.mantissa, ?_, hfloat.symm, fun _ => rfl⟩
    simp only [numeral?, hhex, hnatural, Option.map_some]
  | true =>
    obtain ⟨c, rest, hstarts, hnumber⟩ := w.startsNumber
    have hsign : Double.sign w.body = (false, w.body) := by
      rw [← htext, hstarts]
      exact sign_of_startsNumber hnumber
    obtain ⟨d, hd⟩ := w.decimal?_complete hradix hsign
    rw [← htext] at hd
    refine ⟨.float d, ?_, hfloat.symm, by simp [hfloat]⟩
    simp only [numeral?, hhex, hd, Option.map_some]

theorem numeral?_hexadecimal {capital : Bool} (hradix : w.radix = .hexadecimal capital)
    (h : w.Convertible) : ∃ v, numeral? w.text w.isFloat = some v ∧ w.Denotes v := by
  have hhex : isHexadecimal w.text = true := by rw [w.isHexadecimal_text, hradix]; rfl
  have hdrop : w.text.drop 2 = w.body := by rw [text, hradix]; rfl
  cases hfloat : w.isFloat with
  | false =>
    rw [Convertible, hradix, hfloat] at h
    obtain ⟨ds, hds, -, hvalue⟩ := w.digits?_of_integer hfloat
    rw [hradix] at hds hvalue
    have hnatural : hexNatural? w.body = some w.mantissa := hexNatural?_eq_some.mpr ⟨ds, hds, hvalue, h⟩
    have hinteger : hexInteger? w.body = some w.mantissa := by
      rw [hexInteger?_of_digits hds, hnatural]
    refine ⟨.integer w.mantissa, ?_, hfloat.symm, fun _ => rfl⟩
    simp only [numeral?, hhex, hdrop, hinteger, Option.map_some]
  | true =>
    rw [Convertible, hradix, hfloat] at h
    obtain ⟨d, hd⟩ := w.hexadecimal?_complete hradix h
    refine ⟨.float d, ?_, hfloat.symm, by simp [hfloat]⟩
    simp only [numeral?, hhex, hdrop, hd, Option.map_some]

/-- **A numeral is read,** with its value if it is an integer. -/
theorem numeral?_complete (h : w.Convertible) :
    ∃ v, numeral? w.text w.isFloat = some v ∧ w.Denotes v := by
  cases hradix : w.radix with
  | decimal => exact w.numeral?_decimal hradix h
  | hexadecimal capital => exact w.numeral?_hexadecimal hradix h

end NumeralForm

end

/-! ## 3. Tokens -/

/-- The text of a number token is a number with its value. -/
theorem number_of_lexeme {start : Pos} {c : Code} {rest : Text} {v : Numeral} {n : Nat}
    (h : lexeme start c rest = .ok (.number v, n)) :
    Double.sign (c :: rest.take n) = (false, c :: rest.take n) ∧
      numeral? (c :: rest.take n) (numberExtent (c :: rest.take n)).2 = some v := by
  obtain ⟨hnumber, htext, hv⟩ := lexeme_number (lexeme_alone h start)
  rw [List.take_take, Nat.min_self] at htext hv
  exact ⟨sign_of_startsNumber hnumber, hv⟩

theorem Lexes.number_text {pos : Pos} {cs : Text} {ts : List Token} (h : Lexes pos cs ts) :
    ∀ t ∈ ts, ∀ v, t.kind = .number v → ∃ w : NumeralForm, w.Groups t.text ∧ w.Denotes v := by
  intro t ht v hv
  obtain ⟨c, rest, n, hlexeme, htext⟩ := h.lexed t ht (by simp [hv])
  rw [hv] at hlexeme
  obtain ⟨hsign, hnumeral⟩ := number_of_lexeme hlexeme
  exact htext ▸ numeral?_sound hsign hnumeral

/-- What a number begins with is no white space, no dash and no name. -/
theorem first_of_number {c : Code} {t : Text}
    (h : (isDigit c || (c = code '.' && t.head?.any isDigit)) = true) :
    isBlank c = false ∧ c ≠ code '-' ∧ isNameStart c = false := by
  rcases Bool.or_eq_true_iff.mp h with hdigit | hpoint
  · refine ⟨isBlank_of_isDigit hdigit, ?_, ?_⟩
    · rintro rfl
      cases hdigit
    · rw [← Bool.not_eq_true]
      intro hname
      rw [isDigit_of_isNameStart hname] at hdigit
      cases hdigit
  · obtain ⟨hc, -⟩ := Bool.and_eq_true_iff.mp hpoint
    rw [of_decide_eq_true hc]
    decide

theorem tokenize_numeral {w : NumeralForm} (h : w.Convertible) : ∃ v, w.Denotes v ∧
    tokenize w.text = .ok [⟨.number v, .start, w.text⟩, ⟨.eof, Pos.start.advance w.text, []⟩] := by
  obtain ⟨v, hv, hdenotes⟩ := w.numeral?_complete h
  obtain ⟨c, rest, htext, hnumber⟩ := w.startsNumber
  have hextent := w.numberExtent_text
  rw [htext] at hv hextent ⊢
  obtain ⟨hblank, hdash, hname⟩ := first_of_number hnumber
  refine ⟨v, hdenotes, tokenize_one (gap_none hblank (.inl hdash)) ?_⟩
  have htake : (c :: rest).take (rest.length + 1) = c :: rest := List.take_of_length_le (Nat.le_refl _)
  simp only [lexeme, hname, Bool.false_eq_true, if_false, if_pos hnumber, hextent, List.length_cons, htake,
    hv, Nat.add_sub_cancel]

/-- **Number tokens are the numerals, underscores apart.**  The text of a number token is a numeral of the
language, but for underscores between digits or behind `0x`; it is a numeral as it stands just if it has no
underscore.  A numeral that can be converted is one number token.  In both cases the token is a float if the
numeral has a point or an exponent, and else it has the value that the digits write. -/
theorem tokenize_numerals (source : Text) :
    (∀ tokens, tokenize source = .ok tokens → ∀ t ∈ tokens, ∀ v, t.kind = .number v →
      (∃ w : NumeralForm, w.Groups t.text ∧ w.Denotes v ∧ (code '_' ∉ t.text → w.text = t.text)) ∧
      ((∃ w : NumeralForm, w.text = t.text) ↔ code '_' ∉ t.text)) ∧
    ∀ w : NumeralForm, w.Convertible → w.text = source → ∃ v, w.Denotes v ∧
      tokenize source = .ok [⟨.number v, .start, source⟩, ⟨.eof, Pos.start.advance source, []⟩] := by
  constructor
  · intro tokens h t ht v hv
    obtain ⟨w, hgroups, hdenotes⟩ := (tokensFrom_iff.mp h).number_text t ht v hv
    have hplain : code '_' ∉ t.text → w.text = t.text := by
      intro hplain
      rw [← hgroups.bare, ungrouped_of_not_mem hplain]
    refine ⟨⟨w, hgroups, hdenotes, hplain⟩, ?_, fun h => ⟨w, hplain h⟩⟩
    rintro ⟨w', hw'⟩
    rw [← hw']
    exact w'.underscore_not_mem_text
  · rintro w hconvertible rfl
    exact tokenize_numeral hconvertible

/-- In `x = 0x_1F` the number is that of `0x1F`; and `0X.8p-1` is a float. -/
theorem tokenize_numerals_hexadecimal :
    (∃ w : NumeralForm, w.Groups (text "0x_1F") ∧ w.Denotes (.integer 31)) ∧
    ∃ v, v.isFloat = true ∧ tokenize (text "0X.8p-1")
      = .ok [⟨.number v, .start, text "0X.8p-1"⟩, ⟨.eof, ⟨1, 8⟩, []⟩] := by
  constructor
  · have hrun : (tokenize (text "x = 0x_1F")).toOption = some [⟨.name (text "x"), ⟨1, 1⟩, text "x"⟩,
        ⟨.symbol .assign, ⟨1, 3⟩, text "="⟩, ⟨.number (.integer 31), ⟨1, 5⟩, text "0x_1F"⟩,
        ⟨.eof, ⟨1, 10⟩, []⟩] := by decide +kernel
    cases h : tokenize (text "x = 0x_1F") with
    | error e =>
      rw [h] at hrun
      cases hrun
    | ok tokens =>
      rw [h] at hrun
      cases hrun
      obtain ⟨⟨w, hgroups, hdenotes, -⟩, -⟩ := (tokenize_numerals _).1 _ h
        ⟨.number (.integer 31), ⟨1, 5⟩, text "0x_1F"⟩ (by simp) _ rfl
      exact ⟨w, hgroups, hdenotes⟩
  · obtain ⟨v, hdenotes, htokens⟩ := (tokenize_numerals (text "0X.8p-1")).2
      ⟨.hexadecimal true, [], some (text "8"),
        some ⟨code 'p', text "-", text "1", rfl, .inr (.inr rfl), by decide, by decide⟩,
        by decide, by decide⟩ (by decide +kernel) rfl
    exact ⟨v, hdenotes.isFloat, htokens⟩

/-- With an underscore, `1_000` is no numeral of the language, yet it is read as one. -/
theorem tokenize_underscored :
    tokenize (text "1_000")
      = .ok [⟨.number (.integer 1000), .start, text "1_000"⟩, ⟨.eof, ⟨1, 6⟩, []⟩] ∧
    ∀ w : NumeralForm, w.text ≠ text "1_000" := by
  refine ⟨tokenize_one (gap_none (by decide) (.inl (by decide))) rfl, fun w hw => ?_⟩
  have hplain := w.underscore_not_mem_text
  rw [hw] at hplain
  exact hplain (by decide)

end LuaServer.Lua
