/-
# Numerals of the language

A numeral is what the grammar of the language says: decimal digits, or hexadecimal digits after `0x`, with
at most one point among them and at most one exponent behind them, whose digits are decimal.  `NumeralForm`
is such a numeral in its parts, and nothing else can be put together in it.

The reader takes more: it also allows underscores between digits, except in a hexadecimal numeral with a
point or an exponent.  Without its underscores everything that it takes is a numeral.

Main result: `numeral?_sound`.
-/
import LuaServer.Proofs.DigitRuns
import LuaServer.Proofs.Locality
import LuaServer.Proofs.Rounding

namespace LuaServer.Lua

/-! ## 1. The grammar -/

/-- Decimal numerals and hexadecimal ones, which begin with `0x` or, with a capital, `0X`. -/
inductive Radix where
  | decimal
  | hexadecimal (capital : Bool)
deriving DecidableEq

namespace Radix

/-- What stands in front of the digits. -/
def lead : Radix → Text
  | .decimal => []
  | .hexadecimal capital => [code '0', if capital then code 'X' else code 'x']

/-- The base of the digits. -/
def base : Radix → Nat
  | .decimal => 10
  | .hexadecimal _ => 16

/-- The value of a digit. -/
def digit? : Radix → Code → Option Nat
  | .decimal => decimalDigit?
  | .hexadecimal _ => hexDigit?

/-- What an exponent begins with. -/
def isMark : Radix → Code → Bool
  | .decimal, c => c = code 'e' || c = code 'E'
  | .hexadecimal _, c => c = code 'p' || c = code 'P'

end Radix

/-- An exponent: its mark, a sign or none, and decimal digits, at least one. -/
structure Exponent (r : Radix) where
  mark : Code
  sign : Text
  digits : Text
  isMark : r.isMark mark = true
  isSign : sign = [] ∨ sign = [code '+'] ∨ sign = [code '-']
  areDigits : ∀ c ∈ digits, (decimalDigit? c).isSome
  notEmpty : digits ≠ []

namespace Exponent

variable {r : Radix}

/-- An exponent as it is written. -/
def text (e : Exponent r) : Text := e.mark :: (e.sign ++ e.digits)

/-- The number that an exponent writes. -/
def value (e : Exponent r) : Int :=
  if e.sign = [code '-'] then -(ofDigits 10 (e.digits.filterMap decimalDigit?) : Int)
  else ofDigits 10 (e.digits.filterMap decimalDigit?)

end Exponent

/-- A numeral in its parts: the digits before a point, those behind it if there is one, and an exponent if
there is one.  There is at least one digit besides the exponent. -/
structure NumeralForm where
  radix : Radix
  whole : Text
  fraction : Option Text
  exponent : Option (Exponent radix)
  areDigits : ∀ c ∈ whole ++ fraction.getD [], (radix.digit? c).isSome
  notEmpty : whole ++ fraction.getD [] ≠ []

namespace NumeralForm

/-- The point and the digits behind it. -/
def fractionText (w : NumeralForm) : Text := w.fraction.elim [] (code '.' :: ·)

/-- The exponent as it is written, if there is one. -/
def exponentText (w : NumeralForm) : Text := w.exponent.elim [] Exponent.text

/-- The numeral without what stands in front of its digits. -/
def body (w : NumeralForm) : Text := w.whole ++ (w.fractionText ++ w.exponentText)

/-- The whole numeral as it is written. -/
def text (w : NumeralForm) : Text := w.radix.lead ++ w.body

/-- The numeral has a point or an exponent. -/
def isFloat (w : NumeralForm) : Bool := w.fraction.isSome || w.exponent.isSome

/-- The number that the digits write, the point left out. -/
def mantissa (w : NumeralForm) : Nat :=
  ofDigits w.radix.base ((w.whole ++ w.fraction.getD []).filterMap w.radix.digit?)

/-- The power of two that the mantissa of a hexadecimal numeral is multiplied by. -/
def scale (w : NumeralForm) : Int :=
  w.exponent.elim 0 Exponent.value - 4 * (w.fraction.getD []).length

/-- The numerals that can be converted: decimal integers with not too many digits, hexadecimal ones whose
decimal form has not too many, and hexadecimal numerals with a point or an exponent if their value is
rounded to a finite double. -/
def Convertible (w : NumeralForm) : Prop :=
  match w.radix, w.isFloat with
  | .decimal, false => w.whole.length ≤ maxDigits
  | .decimal, true => True
  | .hexadecimal _, false => w.mantissa < 10 ^ maxDigits
  | .hexadecimal _, true => w.mantissa * 2 ^ w.scale.toNat < Double.limit * 2 ^ (-w.scale).toNat

instance (w : NumeralForm) : Decidable w.Convertible :=
  match hradix : w.radix, hfloat : w.isFloat with
  | .decimal, false =>
    decidable_of_iff (w.whole.length ≤ maxDigits) (by rw [Convertible, hradix, hfloat])
  | .decimal, true => .isTrue (by rw [Convertible, hradix, hfloat]; trivial)
  | .hexadecimal _, false =>
    decidable_of_iff (w.mantissa < 10 ^ maxDigits) (by rw [Convertible, hradix, hfloat])
  | .hexadecimal _, true =>
    decidable_of_iff (w.mantissa * 2 ^ w.scale.toNat < Double.limit * 2 ^ (-w.scale).toNat)
      (by rw [Convertible, hradix, hfloat])

/-- The numeral denotes a float if it has a point or an exponent, and else just the integer that its digits
write. -/
structure Denotes (w : NumeralForm) (v : Numeral) : Prop where
  isFloat : v.isFloat = w.isFloat
  integer : w.isFloat = false → v = .integer w.mantissa

/-- The text is that of the numeral with underscores put in, each between two digits, or between `0x` and a
digit.  A hexadecimal numeral with a point or an exponent has none. -/
structure Groups (w : NumeralForm) (t : Text) : Prop where
  bare : ungrouped t = w.text
  between : ∀ front back, t = front ++ code '_' :: back →
    ((front = w.radix.lead ∧ w.radix ≠ .decimal) ∨
      ∃ c, front.getLast? = some c ∧ (w.radix.digit? c).isSome) ∧
    ∃ c, back.head? = some c ∧ (w.radix.digit? c).isSome
  plain : w.radix ≠ .decimal → w.isFloat = true → code '_' ∉ t

end NumeralForm

/-! ## 2. The parts of a text -/

section
variable {p : Code → Bool} {t : Text}

theorem cut_of_none (h : ∀ c ∈ t, p c = false) : Double.cut p t = (t, none) := by
  have hdrop : t.dropWhile (fun c => !p c) = [] := by
    have hall : (t ++ []).dropWhile (fun c => !p c) = [] :=
      List.dropWhile_append_of_pos (by simpa using h)
    rwa [List.append_nil] at hall
  simp only [Double.cut, hdrop]

theorem cut_of_some {front back : Text} {c : Code} (hfront : ∀ d ∈ front, p d = false)
    (hc : p c = true) : Double.cut p (front ++ c :: back) = (front, some back) := by
  have hfront' : ∀ d ∈ front, (!p d) = true := by simpa using hfront
  have hdrop : (front ++ c :: back).dropWhile (fun c => !p c) = c :: back := by
    rw [List.dropWhile_append_of_pos hfront', List.dropWhile_cons_of_neg (by simp [hc])]
  have htake : (front ++ c :: back).takeWhile (fun c => !p c) = front := by
    rw [List.takeWhile_append_of_pos hfront', List.takeWhile_cons_of_neg (by simp [hc]), List.append_nil]
  simp only [Double.cut, hdrop, htake]

/-- A text is cut at the first code point of a class, or not at all. -/
theorem cut_cases (p : Code → Bool) (t : Text) :
    (∀ c ∈ t, p c = false) ∨
      ∃ front c back, t = front ++ c :: back ∧ p c = true ∧ ∀ d ∈ front, p d = false := by
  induction t with
  | nil => exact .inl (by simp)
  | cons c t ih =>
    cases hc : p c with
    | true => exact .inr ⟨[], c, t, rfl, hc, by simp⟩
    | false =>
      rcases ih with hnone | ⟨front, d, back, rfl, hd, hfront⟩
      · exact .inl (List.forall_mem_cons.mpr ⟨hc, hnone⟩)
      · exact .inr ⟨c :: front, d, back, rfl, hd, List.forall_mem_cons.mpr ⟨hc, hfront⟩⟩

/-- The parts of a text in which an exponent and then a point are looked for. -/
theorem cut_parts (r : Radix) (t : Text) :
    ∃ (whole : Text) (fraction : Option Text) (exponent : Option (Code × Text)),
      t = whole ++ (fraction.elim [] (code '.' :: ·) ++ exponent.elim [] (fun p => p.1 :: p.2)) ∧
      (∀ p, exponent = some p → r.isMark p.1 = true) ∧
      Double.cut r.isMark t = (whole ++ fraction.elim [] (code '.' :: ·), exponent.map (·.2)) ∧
      Double.cut (· = code '.') (whole ++ fraction.elim [] (code '.' :: ·)) = (whole, fraction) ∧
      ((∃ c ∈ t, c = code '.' ∨ r.isMark c = true) →
        (fraction.isSome || exponent.isSome) = true) := by
  have hpoint : ∀ m : Text, ∃ (whole : Text) (fraction : Option Text),
      m = whole ++ fraction.elim [] (code '.' :: ·) ∧ Double.cut (· = code '.') m = (whole, fraction) ∧
        (code '.' ∈ m → fraction.isSome = true) := by
    intro m
    rcases cut_cases (· = code '.') m with hnone | ⟨whole, c, back, rfl, hc, hwhole⟩
    · refine ⟨m, none, (List.append_nil m).symm, cut_of_none hnone, fun hmem => ?_⟩
      simpa using hnone _ hmem
    · obtain rfl : c = code '.' := by simpa using hc
      exact ⟨whole, some back, rfl, cut_of_some hwhole hc, fun _ => rfl⟩
  rcases cut_cases r.isMark t with hnone | ⟨m, c, x, rfl, hc, hm⟩
  · obtain ⟨whole, fraction, rfl, hcut, hsome⟩ := hpoint t
    refine ⟨whole, fraction, none, by simp, by simp, cut_of_none hnone, hcut, ?_⟩
    rintro ⟨c, hmem, rfl | hc⟩
    · rw [hsome hmem, Bool.true_or]
    · rw [hnone c hmem] at hc
      cases hc
  · obtain ⟨whole, fraction, rfl, hcut, -⟩ := hpoint m
    refine ⟨whole, fraction, some (c, x), by simp, ?_, cut_of_some hm hc, hcut, by simp⟩
    rintro p hp
    cases hp
    exact hc

end

/-! ## 3. What is read is a numeral -/

section
variable {t : Text}

theorem digitsOrNone?_grouped {digit? : Code → Option Nat} {vs : List Nat}
    (hunderscore : digit? (code '_') = none) (h : Double.digitsOrNone? digit? t = some vs) :
    (ungrouped t).mapM digit? = some vs ∧ Grouped digit? t := by
  rw [Double.digitsOrNone?] at h
  split at h
  · next ht =>
    cases h
    subst ht
    exact ⟨rfl, grouped_of_not_mem (by simp)⟩
  · exact (grouped_of_digits? hunderscore h).2

theorem ne_underscore_of_isMark {r : Radix} {c : Code} (h : r.isMark c = true) : c ≠ code '_' := by
  rintro rfl
  cases r with
  | decimal => exact absurd h (by decide)
  | hexadecimal => cases h

theorem digit?_underscore : ∀ r : Radix, r.digit? (code '_') = none
  | .decimal => rfl
  | .hexadecimal _ => rfl

theorem digit?_point : ∀ r : Radix, r.digit? (code '.') = none
  | .decimal => rfl
  | .hexadecimal _ => rfl

theorem sign_cases (t : Text) : ∃ sign ds, t = sign ++ ds ∧
    (sign = [] ∨ sign = [code '+'] ∨ sign = [code '-']) ∧ (Double.sign t).2 = ds := by
  cases t with
  | nil => exact ⟨[], [], rfl, .inl rfl, rfl⟩
  | cons c cs =>
    rw [Double.sign]
    split
    · next hc => exact ⟨[c], cs, rfl, .inr (.inr (by rw [hc])), rfl⟩
    · split
      · next hc => exact ⟨[c], cs, rfl, .inr (.inl (by rw [hc])), rfl⟩
      · exact ⟨[], c :: cs, rfl, .inl rfl, rfl⟩

/-- An exponent that is read is one without its underscores. -/
theorem exponent?_form {r : Radix} {c : Code} {e : Int} (hc : r.isMark c = true)
    (h : Double.exponent? t = some e) :
    ∃ ex : Exponent r, ex.text = ungrouped (c :: t) ∧ Grouped decimalDigit? (c :: t) := by
  obtain ⟨sign, ds, rfl, hsign, hrest⟩ := sign_cases t
  rw [Double.exponent?] at h
  dsimp only at h
  rw [hrest] at h
  obtain ⟨vs, hvs, -⟩ := Option.map_eq_some_iff.mp h
  obtain ⟨hne, hvalues, hgroup⟩ := grouped_of_digits? (by decide) hvs
  have hmark := ne_underscore_of_isMark hc
  have hplain : code '_' ∉ sign := by rcases hsign with rfl | rfl | rfl <;> decide
  refine ⟨⟨c, sign, ungrouped ds, hc, hsign, (mapM_eq_some_iff.mp hvalues).1, hne⟩, ?_, ?_⟩
  · rw [ungrouped_cons hmark, ungrouped_append, ungrouped_of_not_mem hplain]
    rfl
  · exact .cons hmark ((grouped_of_not_mem hplain).append hgroup)

/-- The same where there may be none. -/
theorem exponent_form {r : Radix} {exponent : Option (Code × Text)} {e : Int}
    (hmark : ∀ p, exponent = some p → r.isMark p.1 = true)
    (h : (exponent.map (·.2)).elim (some 0) Double.exponent? = some e) :
    ∃ ex : Option (Exponent r), ex.isSome = exponent.isSome ∧
      ex.elim [] Exponent.text = ungrouped (exponent.elim [] fun p => p.1 :: p.2) ∧
      Grouped decimalDigit? (exponent.elim [] fun p => p.1 :: p.2) := by
  cases exponent with
  | none => exact ⟨none, rfl, rfl, grouped_of_not_mem (by simp)⟩
  | some p =>
    obtain ⟨ex, htext, hgroup⟩ := exponent?_form (hmark p rfl) h
    exact ⟨some ex, rfl, htext, hgroup⟩

/-- A numeral is put together from its parts. -/
theorem form_of_parts {r : Radix} {whole : Text} {fraction : Option Text}
    {exponent : Option (Code × Text)} {ex : Option (Exponent r)}
    (hdigits : ∀ c ∈ ungrouped whole ++ ungrouped (fraction.getD []), (r.digit? c).isSome)
    (hne : ungrouped whole ++ ungrouped (fraction.getD []) ≠ [])
    (hsome : ex.isSome = exponent.isSome)
    (htext : ex.elim [] Exponent.text = ungrouped (exponent.elim [] fun p => p.1 :: p.2)) :
    ∃ w : NumeralForm, w.radix = r ∧ w.isFloat = (fraction.isSome || exponent.isSome) ∧
      w.text = r.lead ++ ungrouped (whole ++
        (fraction.elim [] (code '.' :: ·) ++ exponent.elim [] (fun p => p.1 :: p.2))) := by
  have hget : (fraction.map ungrouped).getD [] = ungrouped (fraction.getD []) := by
    cases fraction <;> rfl
  refine ⟨⟨r, ungrouped whole, fraction.map ungrouped, ex, by rwa [hget], by rwa [hget]⟩, rfl, ?_, ?_⟩
  · simp [NumeralForm.isFloat, hsome]
  · have hpoint : (fraction.map ungrouped).elim [] (code '.' :: ·)
        = ungrouped (fraction.elim [] (code '.' :: ·)) := by
      cases fraction with
      | none => rfl
      | some f => exact (ungrouped_cons (by decide)).symm
    simp only [NumeralForm.text, NumeralForm.body, NumeralForm.fractionText, NumeralForm.exponentText,
      hpoint, htext, ungrouped_append]

/-- A decimal numeral with a point or an exponent. -/
theorem decimal?_sound {d : Double} (hsign : Double.sign t = (false, t))
    (hfloat : ∃ c ∈ t, c = code '.' ∨ Radix.decimal.isMark c = true) (h : Double.decimal? t = some d) :
    ∃ w : NumeralForm, w.radix = .decimal ∧ w.isFloat = true ∧ w.text = ungrouped t ∧
      Grouped decimalDigit? t := by
  obtain ⟨whole, fraction, exponent, rfl, hmark, hcut, hpoint, hsome⟩ := cut_parts .decimal t
  have hexponent : Double.cut (fun c => c = code 'e' || c = code 'E') _ = _ := hcut
  rw [Double.decimal?, hsign] at h
  simp only [hexponent, hpoint] at h
  split at h
  · next ws fs e hws hfs he =>
    split at h
    · cases h
    · next hne =>
      obtain ⟨hvalues, hgroup⟩ := digitsOrNone?_grouped (by decide) hws
      obtain ⟨hvalues', hgroup'⟩ := digitsOrNone?_grouped (by decide) hfs
      obtain ⟨ex, hex, htext, hgroup''⟩ := exponent_form hmark he
      obtain ⟨hwhole, rfl⟩ := mapM_eq_some_iff.mp hvalues
      obtain ⟨hfraction, rfl⟩ := mapM_eq_some_iff.mp hvalues'
      have hdigits : ∀ c ∈ ungrouped whole ++ ungrouped (fraction.getD []),
          (Radix.decimal.digit? c).isSome := List.forall_mem_append.mpr ⟨hwhole, hfraction⟩
      have hparts : ungrouped whole ++ ungrouped (fraction.getD []) ≠ [] := by
        intro hnil
        obtain ⟨hw, hf⟩ := List.append_eq_nil_iff.mp hnil
        rw [hw, hf] at hne
        exact hne ⟨rfl, rfl⟩
      obtain ⟨w, hradix, hisFloat, hw⟩ := form_of_parts hdigits hparts hex htext
      refine ⟨w, hradix, hisFloat.trans (hsome hfloat), hw, ?_⟩
      refine hgroup.append (.append ?_ hgroup'')
      cases fraction with
      | none => exact grouped_of_not_mem (by simp)
      | some f => exact .cons (by decide) hgroup'
  · cases h

theorem all_ne_underscore : t.all (· != code '_') = true ↔ code '_' ∉ t := by
  rw [List.all_bne']
  simp

theorem underscore_not_mem_digits {r : Radix} (h : ∀ c ∈ t, (r.digit? c).isSome) :
    code '_' ∉ t := by
  intro hmem
  have hdigit := h _ hmem
  rw [digit?_underscore] at hdigit
  cases hdigit

theorem underscore_not_mem_exponent {r : Radix} {c : Code} (hc : r.isMark c = true)
    (ht : code '_' ∉ t) : code '_' ∉ c :: t := by
  intro hmem
  rcases List.mem_cons.mp hmem with heq | hmem
  · exact ne_underscore_of_isMark hc heq.symm
  · exact ht hmem

theorem underscore_not_mem_parts {whole rest : Text} {fraction : Option Text}
    (hdigits : code '_' ∉ whole ++ fraction.getD []) (hrest : code '_' ∉ rest) :
    code '_' ∉ whole ++ (fraction.elim [] (code '.' :: ·) ++ rest) := by
  obtain ⟨hwhole, hfraction⟩ := not_or.mp (mt List.mem_append.mpr hdigits)
  have hpart : code '_' ∉ fraction.elim [] (code '.' :: ·) := by
    cases fraction with
    | none => exact List.not_mem_nil
    | some f => exact fun hmem => hfraction ((List.mem_cons.mp hmem).resolve_left (by decide))
  simp only [List.mem_append, not_or]
  exact ⟨hwhole, hpart, hrest⟩

/-- A hexadecimal numeral with a point or an exponent, behind its first two code points. -/
theorem hexadecimal?_sound {d : Double} (capital : Bool)
    (hfloat : ∃ c ∈ t, c = code '.' ∨ (Radix.hexadecimal capital).isMark c = true)
    (h : Double.hexadecimal? t = some d) :
    ∃ w : NumeralForm, w.radix = .hexadecimal capital ∧ w.isFloat = true ∧
      w.text = w.radix.lead ++ t ∧ code '_' ∉ t := by
  obtain ⟨whole, fraction, exponent, rfl, hmark, hcut, hpoint, hsome⟩ :=
    cut_parts (.hexadecimal capital) t
  have hexponent : Double.cut (fun c => c = code 'p' || c = code 'P') _ = _ := hcut
  rw [Double.hexadecimal?] at h
  simp only [hexponent, hpoint] at h
  split at h
  · next ds e hds he hplain =>
    split at h
    · cases h
    · next hne =>
      obtain ⟨hdigits, hvalues⟩ := mapM_eq_some_iff.mp hds
      have hbare : code '_' ∉ whole ++ fraction.getD [] :=
        underscore_not_mem_digits (r := .hexadecimal capital) hdigits
      obtain ⟨hwhole, hfraction⟩ := not_or.mp (mt List.mem_append.mpr hbare)
      obtain ⟨ex, hex, htext, -⟩ := exponent_form hmark he
      have hrest : code '_' ∉ exponent.elim [] (fun p => p.1 :: p.2) := by
        cases exponent with
        | none => exact List.not_mem_nil
        | some p => exact underscore_not_mem_exponent (hmark p rfl) (all_ne_underscore.mp hplain)
      have hall := underscore_not_mem_parts hbare hrest
      have hparts : whole ++ fraction.getD [] ≠ [] := by
        intro hnil
        rw [hnil] at hvalues
        exact hne hvalues.symm
      rw [← ungrouped_of_not_mem hwhole, ← ungrouped_of_not_mem hfraction] at hdigits hparts
      obtain ⟨w, hradix, hisFloat, hw⟩ := form_of_parts hdigits hparts hex htext
      refine ⟨w, hradix, hisFloat.trans (hsome hfloat), ?_, hall⟩
      rw [hw, hradix, ungrouped_of_not_mem hall]
  · cases h

/-- An integer. -/
theorem integer_sound {r : Radix} {vs : List Nat} (h : digits? r.digit? t = some vs) :
    ∃ w : NumeralForm, w.radix = r ∧ w.isFloat = false ∧ w.text = r.lead ++ ungrouped t ∧
      w.mantissa = ofDigits r.base vs ∧ Grouped r.digit? t := by
  obtain ⟨hne, hvalues, hgroup⟩ := grouped_of_digits? (digit?_underscore r) h
  obtain ⟨hdigits, rfl⟩ := mapM_eq_some_iff.mp hvalues
  refine ⟨⟨r, ungrouped t, none, none, by simpa using hdigits, by simpa using hne⟩, rfl, rfl, ?_, ?_,
    hgroup⟩
  · simp [NumeralForm.text, NumeralForm.body, NumeralForm.fractionText, NumeralForm.exponentText]
  · simp [NumeralForm.mantissa]

theorem underscore_not_mem_lead : ∀ r : Radix, code '_' ∉ r.lead
  | .decimal => by decide
  | .hexadecimal false => by decide
  | .hexadecimal true => by decide

/-- Grouped digits behind the lead. -/
theorem NumeralForm.Groups.of_grouped {w : NumeralForm} {r : Radix} (hradix : w.radix = r)
    (htext : w.text = r.lead ++ ungrouped t) (hgroup : Grouped r.digit? t)
    (hplain : r ≠ .decimal → w.isFloat = true → code '_' ∉ t) : w.Groups (r.lead ++ t) := by
  subst hradix
  have hlead := underscore_not_mem_lead w.radix
  refine ⟨?_, ?_, ?_⟩
  · rw [ungrouped_append, ungrouped_of_not_mem hlead, htext]
  · intro front back heq
    exact ((grouped_of_not_mem hlead).append hgroup front back heq).imp_left .inr
  · intro hradix hfloat hmem
    exact (List.mem_append.mp hmem).elim hlead (hplain hradix hfloat)

/-- An underscore and grouped digits behind the lead of a hexadecimal integer. -/
theorem NumeralForm.Groups.of_underscore {w : NumeralForm} {r : Radix} (hradix : w.radix = r)
    (htext : w.text = r.lead ++ ungrouped t) (hgroup : Grouped r.digit? t)
    (hhead : ∃ c, t.head? = some c ∧ (r.digit? c).isSome) (hdecimal : r ≠ .decimal)
    (hint : w.isFloat = false) : w.Groups (r.lead ++ code '_' :: t) := by
  subst hradix
  have hlead := underscore_not_mem_lead w.radix
  refine ⟨?_, ?_, ?_⟩
  · rw [ungrouped_append, ungrouped_of_not_mem hlead, ungrouped_underscore, htext]
  · intro front back heq
    rcases List.append_eq_append_iff.mp heq with ⟨more, rfl, hmore⟩ | ⟨more, hmore, heq⟩
    · cases more with
      | nil =>
        obtain ⟨-, rfl⟩ := List.cons.inj hmore
        exact ⟨.inl ⟨List.append_nil _, hdecimal⟩, hhead⟩
      | cons d more =>
        obtain ⟨rfl, rfl⟩ := List.cons.inj hmore
        obtain ⟨⟨c, hc, hdigit⟩, hback⟩ := hgroup more back rfl
        refine ⟨.inr ⟨c, ?_, hdigit⟩, hback⟩
        rw [List.getLast?_append, List.getLast?_cons, hc]
        rfl
    · cases more with
      | nil =>
        obtain ⟨-, rfl⟩ := List.cons.inj heq
        exact ⟨.inl ⟨by rw [hmore, List.append_nil], hdecimal⟩, hhead⟩
      | cons d more =>
        obtain ⟨rfl, -⟩ := List.cons.inj heq
        exact absurd (by rw [hmore]; simp) hlead
  · intro _ hfloat
    rw [hint] at hfloat
    cases hfloat

/-- A hexadecimal integer, behind its first two code points. -/
theorem hexInteger?_sound (capital : Bool) {n : Nat} (h : hexInteger? t = some n) :
    ∃ w : NumeralForm, w.Groups ((Radix.hexadecimal capital).lead ++ t) ∧ w.Denotes (.integer n) := by
  cases t with
  | nil => cases h
  | cons c rest =>
    rw [hexInteger?] at h
    split at h
    · next hc =>
      subst hc
      obtain ⟨ds, hds, rfl, -⟩ := hexNatural?_eq_some.mp h
      obtain ⟨w, hradix, hisFloat, htext, hmantissa, hgroup⟩ :=
        integer_sound (r := .hexadecimal capital) hds
      obtain ⟨hne, hvalues, -⟩ := grouped_of_digits? rfl hds
      have hhead := hgroup.head_digit hne (mapM_eq_some_iff.mp hvalues).1
      exact ⟨w, .of_underscore hradix htext hgroup hhead nofun hisFloat, hisFloat.symm,
        fun _ => congrArg Numeral.integer hmantissa.symm⟩
    · obtain ⟨ds, hds, rfl, -⟩ := hexNatural?_eq_some.mp h
      obtain ⟨w, hradix, hisFloat, htext, hmantissa, hgroup⟩ :=
        integer_sound (r := .hexadecimal capital) hds
      exact ⟨w, .of_grouped hradix htext hgroup (by simp [hisFloat]), hisFloat.symm,
        fun _ => congrArg Numeral.integer hmantissa.symm⟩

/-- What a number looks like at its front. -/
theorem isHexadecimal_iff : isHexadecimal t = true ↔
    ∃ capital rest, t = (Radix.hexadecimal capital).lead ++ rest := by
  match t with
  | [] => simp [isHexadecimal, Radix.lead]
  | [c] => simp [isHexadecimal, Radix.lead]
  | c :: d :: rest =>
    simp only [isHexadecimal, Bool.and_eq_true, Bool.or_eq_true, decide_eq_true_eq, Radix.lead,
      List.cons_append, List.nil_append, List.cons.injEq]
    constructor
    · rintro ⟨rfl, rfl | rfl⟩
      · exact ⟨false, rest, rfl, rfl, rfl⟩
      · exact ⟨true, rest, rfl, rfl, rfl⟩
    · rintro ⟨capital, rest', rfl, hd, -⟩
      cases capital
      · exact ⟨rfl, .inl hd⟩
      · exact ⟨rfl, .inr hd⟩

/-- A number that is read as a float has a point or the mark of an exponent. -/
theorem numberSize_float {digit mark : Code → Bool} (h : (numberSize digit mark t).2 = true) :
    ∃ c ∈ t, c = code '.' ∨ mark c = true := by
  fun_induction numberSize digit mark t with
  | case1 => cases h
  | case2 digit c cs hdigit n float hsize ih =>
    rw [hsize] at ih
    obtain ⟨d, hd, hfloat⟩ := ih h
    exact ⟨d, List.mem_cons_of_mem c hd, hfloat⟩
  | case3 digit cs hdigit ih => exact ⟨_, List.mem_cons_self, .inl rfl⟩
  | case4 digit c hdigit hpoint hmark => exact ⟨c, List.mem_cons_self, .inr hmark⟩
  | case5 digit c hdigit hpoint hmark d ds hsign ih => exact ⟨c, List.mem_cons_self, .inr hmark⟩
  | case6 digit c hdigit hpoint hmark d ds hsign ih => exact ⟨c, List.mem_cons_self, .inr hmark⟩
  | case7 => cases h

/-- **What is read as a number is a numeral,** underscores apart. -/
theorem numeral?_sound {v : Numeral} (hsign : Double.sign t = (false, t))
    (h : numeral? t (numberExtent t).2 = some v) :
    ∃ w : NumeralForm, w.Groups t ∧ w.Denotes v := by
  have hextent : (numberExtent t).2 = (numberProper t).2 := by rw [numberExtent_eq]
  rw [hextent] at h
  cases hhex : isHexadecimal t with
  | true =>
    obtain ⟨capital, rest, rfl⟩ := isHexadecimal_iff.mp hhex
    have hdrop : ((Radix.hexadecimal capital).lead ++ rest).drop 2 = rest := rfl
    have hproper : (numberProper ((Radix.hexadecimal capital).lead ++ rest)).2
        = (hexadecimalSize rest).2 := by simp only [numberProper, hhex, if_true, hdrop]
    rw [hproper] at h
    cases hfloat : (hexadecimalSize rest).2 with
    | true =>
      simp only [numeral?, hhex, hfloat, hdrop] at h
      obtain ⟨d, hd, rfl⟩ := Option.map_eq_some_iff.mp h
      obtain ⟨w, hradix, hisFloat, htext, hplain⟩ :=
        hexadecimal?_sound capital (numberSize_float hfloat) hd
      refine ⟨w, .of_grouped hradix ?_ (grouped_of_not_mem hplain) fun _ _ => hplain,
        hisFloat.symm, by simp [hisFloat]⟩
      rw [htext, hradix, ungrouped_of_not_mem hplain]
    | false =>
      simp only [numeral?, hhex, hfloat, hdrop] at h
      obtain ⟨n, hn, rfl⟩ := Option.map_eq_some_iff.mp h
      exact hexInteger?_sound capital hn
  | false =>
    have hproper : (numberProper t).2 = (decimalSize t).2 := by simp [numberProper, hhex]
    rw [hproper] at h
    cases hfloat : (decimalSize t).2 with
    | true =>
      simp only [numeral?, hhex, hfloat] at h
      obtain ⟨d, hd, rfl⟩ := Option.map_eq_some_iff.mp h
      obtain ⟨w, hradix, hisFloat, htext, hgroup⟩ := decimal?_sound hsign (numberSize_float hfloat) hd
      exact ⟨w, .of_grouped hradix htext hgroup (absurd rfl), hisFloat.symm, by simp [hisFloat]⟩
    | false =>
      simp only [numeral?, hhex, hfloat] at h
      obtain ⟨n, hn, rfl⟩ := Option.map_eq_some_iff.mp h
      obtain ⟨ds, hds, -, rfl⟩ := natural?_eq_some.mp hn
      obtain ⟨w, hradix, hisFloat, htext, hmantissa, hgroup⟩ := integer_sound (r := .decimal) hds
      exact ⟨w, .of_grouped hradix htext hgroup (absurd rfl), hisFloat.symm,
        fun _ => congrArg Numeral.integer hmantissa.symm⟩

end

end LuaServer.Lua
