/-
# The first occurrence of a pattern

The frames of a stream, the lines of a header and the end of a long bracket are all found by a search for
the first occurrence of a pattern.  `Delimits pat before` says without a search what such an occurrence is:
`pat` closes `before`, and nothing closes it earlier.

Main result: `splitAtFirst?_iff`.
-/
import LuaServer.Text.Basic

namespace LuaServer

variable {α : Type}

/-- In front of the pattern stands nothing in which, together with the pattern, another occurrence of it
begins. -/
def Delimits (pat before : List α) : Prop := ∀ k < before.length, ¬pat <+: (before ++ pat).drop k

/-- No earlier occurrence of a pattern than the first. -/
theorem splitAtFirstFrom_first [DecidableEq α] {pat : List α} :
    ∀ {cs acc before after : List α}, splitAtFirstFrom pat acc cs = some (before, after) →
      ∀ k, acc.length + k < before.length → ¬pat <+: cs.drop k
  | [], acc, before, after, h, k, hk => by
    unfold splitAtFirstFrom at h
    split at h
    · cases h
      rw [List.length_reverse] at hk
      omega
    · cases h
  | c :: cs, acc, before, after, h, k, hk => by
    unfold splitAtFirstFrom at h
    split at h
    · cases h
      rw [List.length_reverse] at hk
      omega
    · next hpat =>
      cases k with
      | zero =>
        intro hfirst
        exact hpat (List.isPrefixOf_iff_prefix.mpr hfirst)
      | succ k =>
        refine splitAtFirstFrom_first h k ?_
        rw [List.length_cons]
        omega

section
variable {pat before after cs : List α}

instance [DecidableEq α] : Decidable (Delimits pat before) :=
  inferInstanceAs (Decidable (∀ k < before.length, ¬pat <+: (before ++ pat).drop k))

/-- A search that finds nothing has found nothing anywhere. -/
theorem splitAtFirstFrom_eq_none [DecidableEq α] {acc : List α} :
    splitAtFirstFrom pat acc cs = none ↔ ¬pat <:+: cs := by
  induction cs generalizing acc with
  | nil =>
    rw [splitAtFirstFrom, List.infix_nil]
    split <;> simp_all
  | cons c cs ih =>
    rw [splitAtFirstFrom, List.infix_cons_iff, not_or, ← List.isPrefixOf_iff_prefix]
    split
    · next hpat => simp [hpat]
    · next hpat => simp [hpat, ih]

theorem splitAtFirst?_eq_none [DecidableEq α] : splitAtFirst? pat cs = none ↔ ¬pat <:+: cs :=
  splitAtFirstFrom_eq_none

/-- An occurrence that begins before the end of `before` lies in `before ++ pat`. -/
theorem prefix_drop_append (after : List α) {k : Nat} (hk : k ≤ before.length) :
    pat <+: (before ++ pat ++ after).drop k ↔ pat <+: (before ++ pat).drop k := by
  rw [List.drop_append_of_le_length (by simp; omega)]
  constructor
  · intro h
    exact List.prefix_of_prefix_length_le h (List.prefix_append _ _) (by simp; omega)
  · intro h
    exact h.trans (List.prefix_append _ _)

/-- **The search finds the first occurrence.** -/
theorem splitAtFirst?_iff [DecidableEq α] :
    splitAtFirst? pat cs = some (before, after) ↔ cs = before ++ pat ++ after ∧ Delimits pat before := by
  constructor
  · intro h
    obtain rfl := splitAtFirst?_eq_append h
    refine ⟨rfl, ?_⟩
    intro k hk
    rw [← prefix_drop_append after (Nat.le_of_lt hk)]
    exact splitAtFirstFrom_first h k (by simpa using hk)
  · rintro ⟨rfl, hends⟩
    cases hsplit : splitAtFirst? pat (before ++ pat ++ after) with
    | none => exact absurd ⟨before, after, rfl⟩ (splitAtFirst?_eq_none.mp hsplit)
    | some parts =>
      obtain ⟨before', after'⟩ := parts
      have heq := splitAtFirst?_eq_append hsplit
      -- neither of the two occurrences begins before the other
      have hle : before.length ≤ before'.length := by
        refine Nat.le_of_not_lt fun hlt => hends _ hlt ?_
        rw [← prefix_drop_append after (Nat.le_of_lt hlt), heq]
        exact ⟨after', by simp⟩
      have hge : before'.length ≤ before.length := by
        refine Nat.le_of_not_lt fun hlt => splitAtFirstFrom_first hsplit before.length ?_ ?_
        · simpa using hlt
        · exact ⟨after, by simp⟩
      rw [List.append_assoc, List.append_assoc] at heq
      obtain ⟨rfl, hrest⟩ := List.append_inj heq (Nat.le_antisymm hle hge)
      rw [List.append_cancel_left hrest]

/-- Nothing begins a pattern where its first element does not stand. -/
theorem delimits_of_not_mem {p : α} {ps : List α} (h : p ∉ before) : Delimits (p :: ps) before := by
  intro k hk hpat
  rw [List.drop_append_of_le_length (Nat.le_of_lt hk), List.drop_eq_getElem_cons hk] at hpat
  obtain ⟨rfl, -⟩ := List.cons_prefix_cons.mp hpat
  exact h (List.getElem_mem hk)

/-- No occurrence stands in what is in front of the first one. -/
theorem Delimits.not_infix (hpat : pat ≠ []) (h : Delimits pat before) : ¬pat <:+: before := by
  rintro ⟨s, t, rfl⟩
  have hpos := List.length_pos_iff.mpr hpat
  refine h s.length (by simp; omega) ⟨t ++ pat, ?_⟩
  simp

end

end LuaServer
