/-
# Ordered tables

A table gives values to names and remembers the order in which the names came.  Setting a name that is
present changes its value and keeps its place.

* `Table.get?`, `Table.insert`, `Table.erase`, and what `get?` sees after the other two.
* `keys_insert`, `keys_erase`: what they do to the order of the names.
-/
import LuaServer.Text.Basic

namespace LuaServer

/-- Values of names, in the order in which the names came. -/
abbrev Table (α : Type) := List (Text × α)

namespace Table

variable {α : Type}

/-- The value of a name. -/
def get? (name : Text) : Table α → Option α
  | [] => none
  | (n, v) :: t => if n = name then some v else get? name t

/-- The name has a value. -/
def has (name : Text) (t : Table α) : Bool := (t.get? name).isSome

/-- The names, in order. -/
def keys (t : Table α) : List Text := t.map (·.1)

/-- The table after setting a name: a present one keeps its place, a new one goes to the end. -/
def insert (name : Text) (value : α) : Table α → Table α
  | [] => [(name, value)]
  | (n, v) :: t => if n = name then (name, value) :: t else (n, v) :: insert name value t

/-- The table without a name. -/
def erase (name : Text) (t : Table α) : Table α := t.filter (fun e => e.1 ≠ name)

/-- A name that is new goes to the end. -/
theorem insert_of_not_mem {name : Text} (value : α) :
    ∀ {t : Table α}, name ∉ t.keys → insert name value t = t ++ [(name, value)]
  | [], _ => rfl
  | (n, v) :: t, h => by
    obtain ⟨hn, ht⟩ : name ≠ n ∧ name ∉ keys t := by simpa [keys] using h
    rw [insert, if_neg (Ne.symm hn), insert_of_not_mem value ht, List.cons_append]

/-- Setting a name to the value that it has changes nothing. -/
theorem insert_of_get? {name : Text} {value : α} :
    ∀ {t : Table α}, t.get? name = some value → insert name value t = t
  | (n, v) :: t, h => by
    rw [get?] at h
    rw [insert]
    split at h
    · next hn =>
      cases h
      rw [if_pos hn, hn]
    · next hn => rw [if_neg hn, insert_of_get? h]

@[simp] theorem get?_insert_self (name : Text) (value : α) :
    ∀ t : Table α, (insert name value t).get? name = some value
  | [] => by simp [insert, get?]
  | (n, v) :: t => by
    have ih := get?_insert_self name value t
    by_cases h : n = name
    · simp [insert, get?, h]
    · simpa [insert, get?, h] using ih

theorem get?_insert_of_ne {name other : Text} (value : α) (hne : other ≠ name) :
    ∀ t : Table α, (insert name value t).get? other = t.get? other
  | [] => by simp [insert, get?, hne.symm]
  | (n, v) :: t => by
    have ih := get?_insert_of_ne value hne t
    by_cases h : n = name
    · subst h
      simp [insert, get?, hne.symm]
    · by_cases ho : n = other
      · subst ho
        simp [insert, get?, h]
      · simpa [insert, get?, h, ho] using ih

@[simp] theorem get?_erase_self (name : Text) : ∀ t : Table α, (erase name t).get? name = none
  | [] => rfl
  | (n, v) :: t => by
    have ih := get?_erase_self name t
    by_cases h : n = name
    · simpa [erase, h] using ih
    · simpa [erase, get?, h] using ih

theorem get?_erase_of_ne {name other : Text} (hne : other ≠ name) :
    ∀ t : Table α, (erase name t).get? other = t.get? other
  | [] => rfl
  | (n, v) :: t => by
    have ih := get?_erase_of_ne hne t
    by_cases h : n = name
    · subst h
      simpa [erase, get?, hne.symm] using ih
    · by_cases ho : n = other
      · subst ho
        simp [erase, get?, h]
      · simpa [erase, get?, h, ho] using ih

/-- The names of a table are those that have a value. -/
theorem mem_keys {name : Text} : ∀ {t : Table α}, name ∈ t.keys ↔ ∃ v, t.get? name = some v
  | [] => by simp [keys, get?]
  | (n, v) :: t => by
    have ih : name ∈ keys t ↔ ∃ v, get? name t = some v := mem_keys
    by_cases h : n = name
    · simp [keys, get?, h]
    · simpa [keys, get?, h, Ne.symm h] using ih

/-- Erasing a name that has no value changes nothing. -/
theorem erase_of_get? {name : Text} {t : Table α} (h : t.get? name = none) : erase name t = t := by
  refine List.filter_eq_self.mpr fun e he => ?_
  have hne : e.1 ≠ name := by
    rintro rfl
    obtain ⟨v, hv⟩ := mem_keys.mp (List.mem_map_of_mem (f := (·.1)) he)
    cases h.symm.trans hv
  simpa using hne

/-- Setting a name keeps the order of the names, and a new one comes last. -/
theorem keys_insert (name : Text) (value : α) :
    ∀ t : Table α,
      (insert name value t).keys = if name ∈ t.keys then t.keys else t.keys ++ [name]
  | [] => by simp [insert, keys]
  | (n, v) :: t => by
    have ih := keys_insert name value t
    by_cases h : n = name
    · simp [insert, keys, h]
    · have hne : name ≠ n := fun e => h e.symm
      simp only [keys] at ih
      by_cases hm : name ∈ t.map (·.1)
      · simp [insert, keys, h, hne, ih, hm]
      · simp [insert, keys, h, hne, ih, hm]

/-- Erasing a name takes it out of the names and keeps the order of the others. -/
theorem keys_erase (name : Text) (t : Table α) :
    (erase name t).keys = t.keys.filter (fun n => n ≠ name) := by
  simp [erase, keys, List.filter_map, Function.comp_def]

end Table
end LuaServer
