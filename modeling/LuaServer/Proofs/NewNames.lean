/-
# Which new names a renaming takes

The check of a new name and the scanner of names are written independently.  They agree but for a line
break: the check does not count a newline at the end of a text, and it looks for the whole text among the
reserved words.  So it takes every name, and also every name and every reserved word with a newline behind
it, which are no names.

Main result: `rename_takes`.
-/
import LuaServer.Proofs.Lexemes
import LuaServer.Proofs.RenameReply

namespace LuaServer

open Lua (IsName Keyword)

/-- A text with the form of a name is a name or a reserved word. -/
theorem isIdentifierText_iff {t : Text} :
    isIdentifierText t = true ↔ IsName t ∨ ∃ k : Keyword, t = k.spelling := by
  constructor
  · intro h
    cases t with
    | nil => cases h
    | cons c tail =>
      obtain ⟨hstart, htail⟩ : Lua.isNameStart c = true ∧ tail.all Lua.isNameChar = true := by
        simpa [isIdentifierText] using h
      cases hword : Keyword.ofText? (c :: tail) with
      | some k =>
        right
        have hspelling : k.spelling = c :: tail := by simpa using List.find?_some hword
        exact ⟨k, hspelling.symm⟩
      | none =>
        left
        have hdash : c ≠ code '-' := by
          rintro rfl
          exact absurd hstart (by decide)
        have hlexeme := Lua.lexeme_of_word hstart htail hword (y := []) (by simp) .start
        rw [List.append_nil] at hlexeme
        exact ⟨_, Lua.tokenize_one (Lua.gap_none (Lua.isBlank_of_isNameStart hstart) (.inl hdash)) hlexeme⟩
  · rintro (h | ⟨k, rfl⟩)
    · obtain ⟨c, tail, rfl, hstart, htail, -⟩ := h.eq_cons
      simp [isIdentifierText, hstart, htail]
    · cases k <;> decide

/-- No reserved word holds a line break. -/
theorem ofText?_newline (t : Text) : Keyword.ofText? (t ++ [code '\n']) = none := by
  have hspelling : ∀ k : Keyword, code '\n' ∉ k.spelling := by
    intro k
    cases k <;> decide
  refine List.find?_eq_none.mpr fun k _ heq => hspelling k ?_
  rw [of_decide_eq_true heq]
  simp

/-- **The names that the check takes.** -/
theorem acceptsName_iff {t : Text} :
    acceptsName t = true ↔
      IsName t ∨ ∃ w, (IsName w ∨ ∃ k : Keyword, w = k.spelling) ∧ t = w ++ [code '\n'] := by
  constructor
  · intro h
    rw [acceptsName, Bool.and_eq_true, Option.isNone_iff_eq_none] at h
    obtain ⟨hbody, hword⟩ := h
    split at hbody
    · next hlast =>
      right
      exact ⟨t.dropLast, isIdentifierText_iff.mp hbody, (List.dropLast_append_getLast? _ hlast).symm⟩
    · left
      rcases isIdentifierText_iff.mp hbody with hname | ⟨k, rfl⟩
      · exact hname
      · exact absurd hword (by cases k <;> decide)
  · rintro (h | ⟨w, hw, rfl⟩)
    · exact acceptsName_of_isName h
    · simp [acceptsName, isIdentifierText_iff.mpr hw, ofText?_newline]

/-- **A renaming takes the names, and words with a line break behind them.**  The check of a new name takes
a text if and only if the text is a single name of the language, or a single name or reserved word with a
newline behind it and nothing else.  With every other new name a renaming is refused for it, and that
leaves everything as it was: no document is analysed and nothing is sent or logged. -/
theorem rename_takes {σ τ : Type} (srv : Server σ τ) (p : RenameParams) :
    (acceptsName p.newName = true ↔
      IsName p.newName ∨
        ∃ w, (IsName w ∨ ∃ k : Keyword, w = k.spelling) ∧ p.newName = w ++ [code '\n']) ∧
    (acceptsName p.newName = false → ∀ w, rename srv p w = (.error (.refused
      { code := .invalidParams
        message := quoted p.newName ++ text " is not a valid identifier"
        data := .null }), w)) := by
  refine ⟨acceptsName_iff, fun h w => ?_⟩
  rw [rename, if_neg (by simp [h])]
  rfl

/-- With a newline behind it the name `x` is taken, though it is no name. -/
theorem rename_takes_newline :
    acceptsName (text "x\n") = true ∧ ¬IsName (text "x\n") := by
  refine ⟨by decide, fun h => ?_⟩
  obtain ⟨c, tail, heq, -, htail, -⟩ := h.eq_cons
  obtain ⟨rfl, rfl⟩ := List.cons.inj heq
  exact absurd htail (by decide)

/-- A line break of two code points is refused, and so is a reserved word. -/
example : acceptsName (text "x\r\n") = false ∧ acceptsName (text "end") = false ∧
    acceptsName (text "end\n") = true := by
  decide

end LuaServer
