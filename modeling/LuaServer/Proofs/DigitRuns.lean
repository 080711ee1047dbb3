/-
# Runs of digits

A run of digits has the values of its digits and writes the number that they make up.  A numeral may hold
an underscore between two digits; without its underscores it is a run of digits with the same values.

Main results: `mapM_eq_some_iff`, `grouped_of_digits?`, `digits?_of_mapM`.
-/
import Mathlib.Algebra.Group.Nat.Defs
import LuaServer.Number.Digits

namespace LuaServer

variable {digit? : Code → Option Nat} {c : Code} {ds rest : Text} {vs : List Nat}

/-! ## 1. Digits and their values -/

theorem mapM_cons_eq_some {v : Nat} (h : digit? c = some v) :
    (c :: ds).mapM digit? = (ds.mapM digit?).map (v :: ·) := by
  rw [List.mapM_cons, h, Option.bind_eq_bind, Option.bind_some]
  cases ds.mapM digit? <;> rfl

/-- **The values of a run of digits.** -/
theorem mapM_eq_some_iff :
    ds.mapM digit? = some vs ↔ (∀ c ∈ ds, (digit? c).isSome) ∧ ds.filterMap digit? = vs := by
  induction ds generalizing vs with
  | nil => simp [List.mapM_nil]
  | cons c ds ih =>
    cases hc : digit? c with
    | none => simp [List.mapM_cons, hc]
    | some v =>
      rw [mapM_cons_eq_some hc, List.filterMap_cons_some hc, List.forall_mem_cons, Option.map_eq_some_iff]
      simp [ih, hc, and_assoc]

theorem length_filterMap_digits (h : ∀ c ∈ ds, (digit? c).isSome) :
    (ds.filterMap digit?).length = ds.length := by
  induction ds with
  | nil => rfl
  | cons c ds ih =>
    obtain ⟨hc, hds⟩ := List.forall_mem_cons.mp h
    obtain ⟨v, hv⟩ := Option.isSome_iff_exists.mp hc
    rw [List.filterMap_cons_some hv, List.length_cons, List.length_cons, ih hds]

theorem filterMap_digits_ne_nil (h : ∀ c ∈ ds, (digit? c).isSome) (hne : ds ≠ []) :
    ds.filterMap digit? ≠ [] := by
  rw [← List.length_pos_iff, length_filterMap_digits h]
  exact List.length_pos_iff.mpr hne

/-- Reading on does not make a number smaller. -/
theorem le_foldl_digits {base : Nat} (hbase : 0 < base) (value : Nat) (vs : List Nat) :
    value ≤ vs.foldl (fun n d => n * base + d) value := by
  induction vs generalizing value with
  | nil => exact Nat.le_refl value
  | cons v vs ih =>
    calc value ≤ value * base := Nat.le_mul_of_pos_right value hbase
      _ ≤ value * base + v := Nat.le_add_right _ v
      _ ≤ vs.foldl (fun n d => n * base + d) (value * base + v) := ih _

theorem isDigit_eq_isSome (c : Code) : isDigit c = (decimalDigit? c).isSome := by
  rw [isDigit, decimalDigit?]
  split
  · next h => simp [h]
  · next h =>
    rw [← Bool.decide_and, decide_eq_false h]
    rfl

/-! ## 2. Grouped digits -/

/-- A text without its underscores. -/
def ungrouped (t : Text) : Text := t.filter (· ≠ code '_')

/-- Every underscore of a text stands between two digits. -/
def Grouped (digit? : Code → Option Nat) (t : Text) : Prop :=
  ∀ front back, t = front ++ code '_' :: back →
    (∃ c, front.getLast? = some c ∧ (digit? c).isSome) ∧ ∃ c, back.head? = some c ∧ (digit? c).isSome

section
variable {s t : Text}

@[simp] theorem ungrouped_append : ungrouped (s ++ t) = ungrouped s ++ ungrouped t :=
  List.filter_append ..

theorem ungrouped_of_not_mem (h : code '_' ∉ t) : ungrouped t = t := by
  refine List.filter_eq_self.mpr fun c hc => decide_eq_true ?_
  rintro rfl
  exact h hc

theorem grouped_of_not_mem (h : code '_' ∉ t) : Grouped digit? t := by
  rintro front back rfl
  exact absurd (by simp) h

/-- An underscore of two parts stands between two digits of one part. -/
theorem Grouped.append (hs : Grouped digit? s) (ht : Grouped digit? t) : Grouped digit? (s ++ t) := by
  intro front back heq
  rcases List.append_eq_append_iff.mp heq with ⟨more, rfl, hmore⟩ | ⟨more, rfl, hmore⟩
  · -- the underscore stands in `t`
    obtain ⟨⟨c, hc, hdigit⟩, hback⟩ := ht more back hmore
    refine ⟨⟨c, ?_, hdigit⟩, hback⟩
    rw [List.getLast?_append, hc]
    rfl
  · -- the underscore stands in `s`, or at the front of `t`, which cannot be
    cases more with
    | nil =>
      obtain ⟨⟨c, hc, -⟩, -⟩ := ht [] back hmore.symm
      cases hc
    | cons d more =>
      obtain ⟨rfl, hback⟩ := List.cons.inj hmore
      obtain ⟨hfront, c, hc, hdigit⟩ := hs front more rfl
      refine ⟨hfront, c, ?_, hdigit⟩
      have hhead : (more ++ t).head? = some c := by rw [List.head?_append, hc]; rfl
      rwa [hback]

theorem Grouped.cons (hc : c ≠ code '_') (ht : Grouped digit? t) : Grouped digit? (c :: t) :=
  (grouped_of_not_mem (t := [c]) (by simpa using hc.symm)).append ht

/-- Grouped digits begin with a digit. -/
theorem Grouped.head_digit (ht : Grouped digit? t) (hne : ungrouped t ≠ [])
    (hdigits : ∀ c ∈ ungrouped t, (digit? c).isSome) : ∃ c, t.head? = some c ∧ (digit? c).isSome := by
  obtain ⟨c, cs, rfl⟩ : ∃ c cs, t = c :: cs := by
    refine List.exists_cons_of_ne_nil fun ht => ?_
    rw [ht] at hne
    exact hne rfl
  have hc : c ≠ code '_' := by
    rintro rfl
    obtain ⟨⟨d, hd, -⟩, -⟩ := ht [] cs rfl
    cases hd
  exact ⟨c, rfl, hdigits c (List.mem_filter.mpr ⟨List.mem_cons_self, by simpa using hc⟩)⟩

/-- A digit, an underscore, and grouped digits. -/
theorem Grouped.cons_underscore (hc : (digit? c).isSome) (hcode : c ≠ code '_') (ht : Grouped digit? t)
    (hhead : ∃ d, t.head? = some d ∧ (digit? d).isSome) : Grouped digit? (c :: code '_' :: t) := by
  intro front back heq
  match front, heq with
  | [], heq => exact absurd (List.cons.inj heq).1 hcode
  | [b], heq =>
    simp only [List.cons_append, List.nil_append, List.cons.injEq, true_and] at heq
    obtain ⟨rfl, rfl⟩ := heq
    exact ⟨⟨c, rfl, hc⟩, hhead⟩
  | b :: b' :: front, heq =>
    simp only [List.cons_append, List.cons.injEq] at heq
    obtain ⟨rfl, rfl, rfl⟩ := heq
    obtain ⟨⟨d, hd, hdigit⟩, hback⟩ := ht front back rfl
    refine ⟨⟨d, ?_, hdigit⟩, hback⟩
    have hlast : ([c, code '_'] ++ front).getLast? = some d := by rw [List.getLast?_append, hd]; rfl
    exact hlast

theorem ungrouped_cons (hc : c ≠ code '_') : ungrouped (c :: t) = c :: ungrouped t :=
  List.filter_cons_of_pos (by simpa using hc)

@[simp] theorem ungrouped_underscore : ungrouped (code '_' :: t) = ungrouped t :=
  List.filter_cons_of_neg (by simp)

/-- **Grouped digits** are digits, at least one, and underscores between two of them. -/
theorem grouped_of_digits? (hunderscore : digit? (code '_') = none) (h : digits? digit? t = some vs) :
    ungrouped t ≠ [] ∧ (ungrouped t).mapM digit? = some vs ∧ Grouped digit? t := by
  have hne : ∀ {c v}, digit? c = some v → c ≠ code '_' := by
    rintro c v hc rfl
    rw [hunderscore] at hc
    cases hc
  induction t using digits?.induct digit? generalizing vs with
  | case1 => cases h
  | case2 c =>
    obtain ⟨v, hv, rfl⟩ := Option.map_eq_some_iff.mp h
    have hc := hne hv
    rw [ungrouped_cons hc, mapM_cons_eq_some hv]
    exact ⟨List.cons_ne_nil _ _, rfl, grouped_of_not_mem (by simpa using hc.symm)⟩
  | case3 c d cs hc =>
    simp only [digits?, hc] at h
    cases h
  | case4 c cs v hc ih =>
    simp only [digits?, hc, if_true] at h
    obtain ⟨ws, hws, rfl⟩ := Option.map_eq_some_iff.mp h
    obtain ⟨hcs, hvalues, hgroup⟩ := ih hws
    rw [ungrouped_cons (hne hc), ungrouped_underscore, mapM_cons_eq_some hc, hvalues]
    exact ⟨List.cons_ne_nil _ _, rfl, hgroup.cons_underscore (by rw [hc]; rfl) (hne hc)
      (hgroup.head_digit hcs (mapM_eq_some_iff.mp hvalues).1)⟩
  | case5 c d cs v hc hd ih =>
    simp only [digits?, hc, if_neg hd] at h
    obtain ⟨ws, hws, rfl⟩ := Option.map_eq_some_iff.mp h
    obtain ⟨hcs, hvalues, hgroup⟩ := ih hws
    rw [ungrouped_cons (hne hc), mapM_cons_eq_some hc, hvalues]
    exact ⟨List.cons_ne_nil _ _, rfl, hgroup.cons (hne hc)⟩

/-- Digits alone are read as they are. -/
theorem digits?_of_mapM (hunderscore : digit? (code '_') = none) (hne : t ≠ [])
    (h : t.mapM digit? = some vs) : digits? digit? t = some vs := by
  induction t using digits?.induct digit? generalizing vs with
  | case1 => exact absurd rfl hne
  | case2 c =>
    obtain ⟨v, hv⟩ := Option.isSome_iff_exists.mp ((mapM_eq_some_iff.mp h).1 c List.mem_cons_self)
    rw [mapM_cons_eq_some hv] at h
    rw [digits?, hv]
    exact h
  | case3 c d cs hc => simp [List.mapM_cons, hc] at h
  | case4 c cs v hc _ =>
    have hdigit := (mapM_eq_some_iff.mp h).1 (code '_') (by simp)
    rw [hunderscore] at hdigit
    cases hdigit
  | case5 c d cs v hc hd ih =>
    rw [mapM_cons_eq_some hc] at h
    obtain ⟨ws, hws, rfl⟩ := Option.map_eq_some_iff.mp h
    simp only [digits?, hc, if_neg hd, ih (List.cons_ne_nil _ _) hws, Option.map_some]

/-! ## 3. Integers -/

theorem natural?_eq_some {n : Nat} : natural? digit? t = some n ↔
    ∃ ds, digits? digit? t = some ds ∧ ds.length ≤ maxDigits ∧ ofDigits 10 ds = n := by
  rw [natural?]
  cases digits? digit? t with
  | none => simp
  | some ds => simp

theorem hexNatural?_eq_some {n : Nat} : hexNatural? t = some n ↔
    ∃ ds, digits? hexDigit? t = some ds ∧ ofDigits 16 ds = n ∧ n < 10 ^ maxDigits := by
  rw [hexNatural?, ← @Nat.pow_eq 10 maxDigits]
  generalize Nat.pow 10 maxDigits = limit
  cases digits? hexDigit? t with
  | none => simp
  | some ds =>
    simp only [Option.ite_none_right_eq_some, Option.some.injEq, exists_eq_left']
    constructor
    · rintro ⟨hlt, rfl⟩
      exact ⟨rfl, hlt⟩
    · rintro ⟨rfl, hlt⟩
      exact ⟨hlt, rfl⟩

end

end LuaServer
