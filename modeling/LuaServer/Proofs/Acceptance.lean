/-
# The reader accepts the grammar

Everything that the grammar derives (`Derives`) is read, and everything that is read is derived.  The
second is soundness (`Proofs/ReaderSound.lean`).  For the first, there is a derivation that the reader
can follow wherever there is one by the productions (`Proofs/Readable.lean`), and the reader goes through
it unless it refuses a store (`Proofs/Stores.lean`).

Main result: `parseTokens_accepts_grammar`.
-/
import LuaServer.Proofs.Readable
import LuaServer.Proofs.Stores

namespace LuaServer.Lua

/-! ## 1. The end of the text -/

/-- The tokens before the end of the text. -/
def beforeEnd (ts : List Token) : List Token := ts.takeWhile fun t => !t.isEof

/-- The end of the text, with anything that stands after it. -/
def fromEnd (ts : List Token) : List Token := ts.dropWhile fun t => !t.isEof

theorem beforeEnd_append_fromEnd (ts : List Token) : beforeEnd ts ++ fromEnd ts = ts :=
  List.takeWhile_append_dropWhile

theorem kindOf_fromEnd (ts : List Token) : kindOf (fromEnd ts) = .eof := by
  induction ts with
  | nil => rfl
  | cons t ts ih =>
    by_cases ht : t.kind = .eof
    · simp [fromEnd, Token.isEof, ht]
    · simpa [fromEnd, Token.isEof, ht] using ih

/-- The first end is the one that counts. -/
theorem beforeEnd_append {u next : List Token} (hu : ∀ t ∈ u, t.kind ≠ .eof)
    (hnext : kindOf next = .eof) (hne : next ≠ []) :
    beforeEnd (u ++ next) = u ∧ fromEnd (u ++ next) = next := by
  obtain ⟨e, es, rfl⟩ := List.exists_cons_of_ne_nil hne
  have he : e.isEof = true := by simpa [Token.isEof] using hnext
  have hu : ∀ t ∈ u, (!t.isEof) = true := by simpa [Token.isEof] using hu
  constructor
  · rw [beforeEnd, List.takeWhile_append_of_pos hu]
    simp [he]
  · rw [fromEnd, List.dropWhile_append_of_pos hu]
    simp [he]

/-- A text has an end. -/
theorem fromEnd_ne_nil {ts : List Token} (hE : Ended ts) : fromEnd ts ≠ [] := by
  intro hnil
  have hbefore : beforeEnd ts = ts := by simpa [hnil] using beforeEnd_append_fromEnd ts
  obtain ⟨init, e, rfl, he⟩ := hE
  have hall : (beforeEnd (init ++ [e])).all (fun t => !t.isEof) = true := List.all_takeWhile
  rw [hbefore] at hall
  simp [Token.isEof, he] at hall

/-! ## 2. Whole documents -/

/-- What is derived up to the end of the text can be read. -/
theorem Derives.reads_document {ts : List Token} {b : Block} (hE : Ended ts)
    (h : Derives (.block b) (beforeEnd ts) (fromEnd ts)) :
    ∃ b' ms, Reads (.block b') ts ms (fromEnd ts) := by
  have hreads := h.reads (kindOf_fromEnd ts) (fromEnd_ne_nil hE)
  rwa [beforeEnd_append_fromEnd] at hreads

/-- **The reader accepts exactly the grammar.**  Where it succeeds, the tree that it gives is the tree
of a derivation of just the tokens before the end of the text.  Conversely it succeeds on everything
that is derived, unless it meets a store to a name that the text declares with an attribute. -/
theorem parseTokens_accepts_grammar {ts : List Token} (hE : Ended ts) (uri : Text) :
    (∀ c, parseTokens ts uri = .ok c → Derives (.block c.body) (beforeEnd ts) (fromEnd ts)) ∧
      ((∃ b, Derives (.block b) (beforeEnd ts) (fromEnd ts)) →
        (∃ c, parseTokens ts uri = .ok c) ∨
          ∃ pos x, parseTokens ts uri = .error ⟨pos, .constAssigned x⟩ ∧ Declares ts x) := by
  constructor
  · intro c h
    obtain ⟨t, ts, ms, next, σ, rfl, hr, hne, heof, -, -⟩ := parseTokens_sound hE h
    have hblock : Derives (.block c.body) (tokensOf ms) next := hr.derives
    obtain ⟨hbefore, hfrom⟩ := beforeEnd_append hblock.ne_eof heof hne
    rwa [hr.tokens, hbefore, hfrom]
  · rintro ⟨b, h⟩
    obtain ⟨b', ms, hreads⟩ := h.reads_document hE
    obtain hok | ⟨n, -, hdeclares, herror⟩ := hreads.refused (kindOf_fromEnd ts) hE uri
    · exact .inl hok
    · exact .inr ⟨n.pos, n.name, herror, hdeclares⟩

/-- `a.b, c = f{x = 1; 2}.y, -d ^ 2 return`, without places. -/
def assignmentTokens : List Token :=
  [.name (text "a"), .symbol .dot, .name (text "b"), .symbol .comma, .name (text "c"),
    .symbol .assign, .name (text "f"), .symbol .braceOpen, .name (text "x"), .symbol .assign,
    .number (.integer 1), .symbol .semicolon, .number (.integer 2), .symbol .braceClose,
    .symbol .dot, .name (text "y"), .symbol .comma, .symbol .minus, .name (text "d"),
    .symbol .caret, .number (.integer 2), .keyword .return, .eof].map fun k => ⟨k, .start, []⟩

/-- The tokens of an assignment with two targets are read, and so they are derived. -/
theorem parseTokens_accepts_assignment : Ended assignmentTokens ∧
    ∃ c, parseTokens assignmentTokens [] = .ok c ∧
      Derives (.block c.body) (beforeEnd assignmentTokens) (fromEnd assignmentTokens) := by
  have hE : Ended assignmentTokens := ⟨assignmentTokens.dropLast, ⟨.eof, .start, []⟩, rfl, rfl⟩
  have hsome : (parseTokens assignmentTokens []).toOption.isSome = true := by decide +kernel
  cases h : parseTokens assignmentTokens [] with
  | ok c => exact ⟨hE, c, rfl, (parseTokens_accepts_grammar hE []).1 c h⟩
  | error e =>
    rw [h] at hsome
    cases hsome

end LuaServer.Lua
