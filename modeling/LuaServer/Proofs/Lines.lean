/-
# Tokens and the lines of a text

The line of a token has all of the token, up to the first newline in it (`Lexes.inLine`).  No token
begins with a newline, and names and numbers have none at all; a long string may have some.
-/
import LuaServer.Proofs.Lexemes
import LuaServer.Proofs.Places

namespace LuaServer

/-! ## 1. Lines -/

/-- The lines of a text. -/
def linesOf (t : Text) : List Text := splitOn (code '\n') t

/-- A stretch is a part of one line of a text and is not empty. -/
def Span.Within (s : Span) (source : Text) : Prop :=
  s.start.line = s.stop.line ∧ s.start.character < s.stop.character ∧
    ∃ line, (linesOf source)[s.start.line]? = some line ∧ s.stop.character ≤ line.length

theorem linesOf_newline (t : Text) : linesOf (code '\n' :: t) = [] :: linesOf t := by
  rw [linesOf, splitOn, if_pos rfl]
  rfl

theorem linesOf_cons {c : Code} (hc : c ≠ code '\n') {t line : Text} {rest : List Text}
    (h : linesOf t = line :: rest) : linesOf (c :: t) = (c :: line) :: rest := by
  rw [linesOf] at h ⊢
  rw [splitOn, if_neg hc, h]

/-- What stands in front of a text is in its first line, up to the first newline. -/
theorem linesOf_front {piece : Text} (h : code '\n' ∉ piece) (after : Text) :
    ∃ line rest, linesOf (piece ++ after) = line :: rest ∧ piece.length ≤ line.length := by
  induction piece with
  | nil =>
    cases after with
    | nil => exact ⟨[], [], rfl, Nat.le_refl 0⟩
    | cons c after =>
      rw [List.nil_append, linesOf, splitOn]
      repeat' split
      all_goals exact ⟨_, _, rfl, Nat.zero_le _⟩
  | cons c piece ih =>
    rw [List.mem_cons, not_or] at h
    obtain ⟨line, rest, hlines, hle⟩ := ih h.2
    exact ⟨c :: line, rest, linesOf_cons (Ne.symm h.1) hlines, Nat.succ_le_succ hle⟩

/-- The place of a stretch tells the line in which it stands, and how far from the start of the line if a
newline stands before it. -/
theorem linesOf_stretch {piece : Text} (h : code '\n' ∉ piece) (after : Text) :
    ∀ (before : Text) (p : Pos), ∃ line,
      (linesOf (before ++ (piece ++ after)))[(p.advance before).line - p.line]? = some line ∧
        (p.advance before).column - (if (p.advance before).line = p.line then p.column else 1)
          + piece.length ≤ line.length
  | [], p => by
    obtain ⟨line, rest, hlines, hle⟩ := linesOf_front h after
    refine ⟨line, ?_, ?_⟩
    · simp [hlines]
    · simpa using hle
  | c :: before, p => by
    obtain ⟨line, hline, hle⟩ := linesOf_stretch h after before (p.step c)
    have hmono := (Pos.line_advance before (p.step c)).1
    rw [Pos.advance_cons]
    by_cases hc : c = code '\n'
    · subst hc
      have hstep : p.step (code '\n') = ⟨p.line + 1, 1⟩ := if_pos rfl
      rw [hstep] at hline hle hmono ⊢
      refine ⟨line, ?_, ?_⟩
      · have hindex : (Pos.advance ⟨p.line + 1, 1⟩ before).line - p.line
            = (Pos.advance ⟨p.line + 1, 1⟩ before).line - (p.line + 1) + 1 := by
          dsimp only at hmono
          omega
        rw [List.cons_append, linesOf_newline, hindex, List.getElem?_cons_succ]
        exact hline
      · dsimp only at hmono hle
        rw [ite_self] at hle
        rw [if_neg (by omega)]
        exact hle
    · have hstep : p.step c = ⟨p.line, p.column + 1⟩ := if_neg hc
      rw [hstep] at hline hle hmono ⊢
      obtain ⟨first, rest, hlines⟩ : ∃ first rest, linesOf (before ++ (piece ++ after)) = first :: rest := by
        cases hl : linesOf (before ++ (piece ++ after)) with
        | nil => simp [hl] at hline
        | cons first rest => exact ⟨first, rest, rfl⟩
      rw [List.cons_append, linesOf_cons hc hlines]
      rw [hlines] at hline
      dsimp only at hline hle hmono ⊢
      by_cases heq : (Pos.advance ⟨p.line, p.column + 1⟩ before).line = p.line
      · rw [if_pos heq] at hle ⊢
        rw [heq, Nat.sub_self, List.getElem?_cons_zero] at hline ⊢
        cases hline
        exact ⟨c :: line, rfl, by rw [List.length_cons]; omega⟩
      · rw [if_neg heq] at hle ⊢
        obtain ⟨i, hi⟩ := Nat.exists_eq_add_of_lt (Nat.lt_of_le_of_ne hmono (Ne.symm heq))
        have hindex : (Pos.advance ⟨p.line, p.column + 1⟩ before).line - p.line = i + 1 := by omega
        rw [hindex, List.getElem?_cons_succ] at hline ⊢
        exact ⟨line, hline, hle⟩

namespace Lua

/-! ## 2. The text of a token -/

namespace Lexes

variable {pos : Pos} {cs : Text} {ts : List Token}

/-- A token is the slice of the text at its place. -/
theorem slice (h : Lexes pos cs ts) : ∀ t ∈ ts, ∃ before after,
    cs = before ++ (t.text ++ after) ∧ t.pos = pos.advance before := by
  induction h using Lexes.induction_pieces with
  | finish pos g hgap =>
    intro t ht
    obtain rfl := List.mem_singleton.mp ht
    exact ⟨g, [], by simp, rfl⟩
  | piece pos g d tail after kind ts hgap hlexeme h ih =>
    intro t ht
    rcases List.mem_cons.mp ht with rfl | ht
    · exact ⟨g, after, rfl, rfl⟩
    · obtain ⟨before, rest, hafter, hpos⟩ := ih t ht
      refine ⟨g ++ (d :: tail) ++ before, rest, ?_, ?_⟩
      · rw [hafter]
        simp
      · rw [hpos, Pos.advance_append, Pos.advance_append]

/-- The line of a token has all of it, up to the first newline in it. -/
theorem inLine {source : Text} (h : Lexes .start source ts) {t : Token} (ht : t ∈ ts) {n : Nat}
    (hle : n ≤ t.text.length) (hn : code '\n' ∉ t.text.take n) :
    ∃ line, (linesOf source)[t.pos.line - 1]? = some line ∧ t.pos.column - 1 + n ≤ line.length := by
  obtain ⟨before, after, rfl, hpos⟩ := h.slice t ht
  have hsplit : t.text ++ after = t.text.take n ++ (t.text.drop n ++ after) := by
    rw [← List.append_assoc, List.take_append_drop]
  obtain ⟨line, hline, hlength⟩ := linesOf_stretch hn (t.text.drop n ++ after) before .start
  rw [← hsplit, ← hpos] at hline
  rw [← hpos, List.length_take_of_le hle] at hlength
  have hcolumn : (if t.pos.line = Pos.start.line then Pos.start.column else 1) = 1 := ite_self 1
  rw [hcolumn] at hlength
  exact ⟨line, hline, hlength⟩

/-- No token but the end of the text is empty, and none begins with a newline. -/
theorem first (h : Lexes pos cs ts) : ∀ t ∈ ts, t.kind ≠ .eof →
    1 ≤ t.text.length ∧ code '\n' ∉ t.text.take 1 := by
  induction h with
  | finish => simp
  | token hgap hdrop _ _ ih =>
    intro t ht hkind
    rcases List.mem_cons.mp ht with rfl | ht
    · obtain ⟨hblank, -⟩ := gap_stops hgap hdrop
      refine ⟨by simp, ?_⟩
      rw [List.take_succ_cons, List.take_zero, List.mem_singleton]
      rintro rfl
      exact absurd hblank (by decide)
    · exact ih t ht hkind

/-- There is no newline in a name. -/
theorem newline_notMem_name (h : Lexes pos cs ts) :
    ∀ t ∈ ts, ∀ x, t.kind = .name x → code '\n' ∉ t.text := by
  intro t ht x hx hin
  obtain ⟨rfl, -, hword⟩ := h.name_text t ht x hx
  exact absurd (List.all_eq_true.mp hword _ hin) (by decide)

end Lexes

/-- There is no newline in the part of a number that is read digit by digit. -/
theorem newline_notMem_numberSize {digit mark : Code → Bool} (cs : Text)
    (hdigit : digit (code '\n') = false) (hmark : mark (code '\n') = false) :
    code '\n' ∉ cs.take (numberSize digit mark cs).1 := by
  have hdecimal : isDigit (code '\n') = false := by decide
  fun_induction numberSize digit mark cs with
  | case1 => simp
  | case2 digit c cs hc n float hsize ih =>
    have ih := ih hdigit
    rw [hsize] at ih
    rw [List.take_succ_cons, List.mem_cons, not_or]
    exact ⟨by rintro rfl; simp_all, ih⟩
  | case3 digit cs hc ih =>
    rw [List.take_succ_cons, List.mem_cons, not_or]
    exact ⟨by decide, ih hdigit⟩
  | case4 digit c hc hpoint hm => simp; rintro rfl; simp_all
  | case5 digit c hc hpoint hm d ds hsign ih =>
    rw [List.take_succ_cons, List.take_succ_cons, List.mem_cons, List.mem_cons, not_or, not_or]
    exact ⟨by rintro rfl; simp_all, by rintro rfl; revert hsign; decide, ih hdecimal⟩
  | case6 digit c hc hpoint hm d ds hsign ih =>
    rw [List.take_succ_cons, List.mem_cons, not_or]
    exact ⟨by rintro rfl; simp_all, ih hdecimal⟩
  | case7 => simp

theorem newline_notMem_numberProper (cs : Text) : code '\n' ∉ cs.take (numberProper cs).1 := by
  rw [numberProper]
  split
  · next hhex =>
    obtain ⟨c, d, cs, rfl⟩ : ∃ c d rest, cs = c :: d :: rest := by
      rcases cs with _ | ⟨c, _ | ⟨d, rest⟩⟩
      · cases hhex
      · cases hhex
      · exact ⟨c, d, rest, rfl⟩
    have hrest : code '\n' ∉ cs.take (hexadecimalSize cs).1 :=
      newline_notMem_numberSize cs (by decide) (by decide)
    obtain ⟨rfl, hd⟩ : c = code '0' ∧ (d = code 'x' ∨ d = code 'X') := by
      simpa [isHexadecimal] using hhex
    have hmark : code '\n' ≠ d := by rcases hd with rfl | rfl <;> decide
    simp only [List.drop_succ_cons, List.drop_zero, List.take_succ_cons, List.mem_cons, not_or]
    exact ⟨by decide, hmark, hrest⟩
  · exact newline_notMem_numberSize cs (by decide) (by decide)

theorem newline_notMem_numberExtent (cs : Text) : code '\n' ∉ cs.take (numberExtent cs).1 := by
  rw [numberExtent_eq, List.take_add, List.mem_append, not_or]
  refine ⟨newline_notMem_numberProper cs, ?_⟩
  rw [take_takeWhile]
  intro hin
  exact absurd (List.all_eq_true.mp List.all_takeWhile _ hin) (by decide)

/-- There is no newline in a number. -/
theorem Lexes.newline_notMem_number {pos : Pos} {cs : Text} {ts : List Token} (h : Lexes pos cs ts) :
    ∀ t ∈ ts, ∀ v, t.kind = .number v → code '\n' ∉ t.text := by
  intro t ht v hv
  obtain ⟨c, rest, n, hlexeme, htext⟩ := h.lexed t ht (by simp [hv])
  rw [hv] at hlexeme
  rw [htext, (lexeme_number hlexeme).2.1]
  exact newline_notMem_numberExtent _

end Lua

end LuaServer
