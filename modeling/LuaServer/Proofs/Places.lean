/-
# Places of a text

Every token of a text, and every fault that refuses the text, stands at a place of the text: that of
some offset.  Line and column of such a place are bounded by the length of the text, so for a text of
which all places can be sent (`Sendable`) so can they.
-/
import LuaServer.Proofs.Edits
import LuaServer.Proofs.Encoding

namespace LuaServer

/-! ## 1. Offsets and places -/

/-- The place of an offset in a text. -/
def placeAt (t : Text) (k : Nat) : Pos := Pos.start.advance (t.take k)

namespace Pos

theorem line_step (p : Pos) (c : Code) : p.line ≤ (p.step c).line ∧ (p.step c).line ≤ p.line + 1 := by
  unfold step
  split <;> simp

theorem column_step (p : Pos) (c : Code) :
    1 ≤ (p.step c).column ∧ (p.step c).column ≤ p.column + 1 := by
  unfold step
  split <;> simp

theorem line_advance (t : Text) (p : Pos) :
    p.line ≤ (p.advance t).line ∧ (p.advance t).line ≤ p.line + t.length := by
  induction t generalizing p with
  | nil => simp
  | cons c t ih =>
    have hstep := line_step p c
    have ih := ih (p.step c)
    rw [advance_cons, List.length_cons]
    omega

theorem column_advance (t : Text) {p : Pos} (hp : 1 ≤ p.column) :
    1 ≤ (p.advance t).column ∧ (p.advance t).column ≤ p.column + t.length := by
  induction t generalizing p with
  | nil => simpa using hp
  | cons c t ih =>
    have hstep := column_step p c
    have ih := ih hstep.1
    rw [advance_cons, List.length_cons]
    omega

/-- On a later line less of the text stands before a place. -/
theorem column_advance_of_newline {t : Text} (ht : code '\n' ∈ t) {p : Pos} (hp : 1 ≤ p.column) :
    (p.advance t).column ≤ t.length := by
  induction t generalizing p with
  | nil => cases ht
  | cons c t ih =>
    rw [advance_cons, List.length_cons]
    rcases List.mem_cons.mp ht with rfl | ht
    · have hnext : p.step (code '\n') = ⟨p.line + 1, 1⟩ := if_pos rfl
      have hrest : (Pos.advance ⟨p.line + 1, 1⟩ t).column ≤ 1 + t.length :=
        (column_advance t (Nat.le_refl 1)).2
      rw [hnext]
      omega
    · have hrest := ih ht (column_step p c).1
      omega

end Pos

theorem one_le_placeAt (t : Text) (k : Nat) : 1 ≤ (placeAt t k).line ∧ 1 ≤ (placeAt t k).column :=
  ⟨(Pos.line_advance _ .start).1, (Pos.column_advance _ (p := .start) (Nat.le_refl 1)).1⟩

theorem placeAt_le (t : Text) (k : Nat) :
    (placeAt t k).line ≤ min k t.length + 1 ∧ (placeAt t k).column ≤ min k t.length + 1 := by
  have hline := (Pos.line_advance (t.take k) .start).2
  have hcolumn := (Pos.column_advance (t.take k) (p := .start) (Nat.le_refl 1)).2
  rw [List.length_take] at hline hcolumn
  have hstart : Pos.start.line = 1 ∧ Pos.start.column = 1 := ⟨rfl, rfl⟩
  rw [placeAt]
  omega

/-- A text of which all places can be sent.  It has fewer than 2 ^ 31 code points, and if it has one
fewer only, then it has more than one line: else its end has no place after it. -/
def Sendable (t : Text) : Prop :=
  t.length < 2147483648 ∧ (t.length + 1 = 2147483648 → code '\n' ∈ t)

instance (t : Text) : Decidable (Sendable t) := inferInstanceAs (Decidable (_ ∧ _))

theorem Sendable.placeAt_le {t : Text} (ht : Sendable t) (k : Nat) :
    (placeAt t k).line ≤ maxCoordinate + 1 ∧ (placeAt t k).column ≤ maxCoordinate := by
  obtain ⟨hlength, hlast⟩ := ht
  obtain ⟨hline, hcolumn⟩ := LuaServer.placeAt_le t k
  have hmax : maxCoordinate = 2147483647 := rfl
  by_cases hlong : t.length + 1 = 2147483648 ∧ t.length ≤ k
  · have hnewline := hlast hlong.1
    have hcolumn := Pos.column_advance_of_newline hnewline (p := .start) (Nat.le_refl 1)
    rw [placeAt, List.take_of_length_le hlong.2] at hline ⊢
    omega
  · omega

/-! ## 2. Tokens -/

namespace Lua

/-- A token as it stands in a text. -/
structure Token.In (t : Token) (cs : Text) (k : Nat) : Prop where
  pos : t.pos = placeAt cs k
  fits : k + t.text.length ≤ cs.length
  subset : t.text ⊆ cs
  nonempty : t.kind ≠ .eof → t.text ≠ []

/-- Every token of a text stands in it. -/
theorem Lexes.located {cs : Text} {ts : List Token} (h : Lexes .start cs ts) :
    ∀ t ∈ ts, ∃ k, t.In cs k := by
  have hgeneral : ∀ {pos : Pos} {rest : Text} {ts : List Token}, Lexes pos rest ts →
      ∀ before : Text, pos = Pos.start.advance before → ∀ t ∈ ts, ∃ k, t.In (before ++ rest) k := by
    intro pos rest ts h
    induction h using Lexes.induction_pieces with
    | finish pos g hgap =>
      rintro before rfl t ht
      obtain rfl := List.mem_singleton.mp ht
      refine ⟨(before ++ g).length, ?_, by simp, by simp, by simp⟩
      rw [placeAt, List.take_length, Pos.advance_append]
    | piece pos g d tail after kind ts hgap hlexeme h ih =>
      rintro before rfl t ht
      rcases List.mem_cons.mp ht with rfl | ht
      · refine ⟨(before ++ g).length, ?_, by simp; omega, ?_, by simp⟩
        · rw [placeAt, ← List.append_assoc, List.take_left' rfl, Pos.advance_append]
        · intro c hc
          have hc : c ∈ d :: tail := hc
          exact List.mem_append_right _ (List.mem_append_right _ (List.mem_append_left _ hc))
      · have hrest := ih (before ++ g ++ (d :: tail)) (by simp [Pos.advance_append]) t ht
        simpa using hrest
  intro t ht
  exact hgeneral h [] rfl t ht

end Lua

end LuaServer
