/-
# The tokens of a text

`Lexes pos cs ts` says that the text `cs`, which stands at `pos`, has the tokens `ts`.  It has one rule
for a text that is only a gap and one for a token with what follows it, so a fact about all tokens of
a text is an induction with two cases.

Main results:

* `tokensFrom_iff`: the rules are the reader of tokens;
* `lexeme_iff`: the forms of a single token;
* `Lexes.ended`: the end of the text is the last token;
* `Lexes.ordered`: every token stands after those before it, so no two stand at one place.
-/
import LuaServer.Proofs.ReaderSteps

namespace LuaServer

/-! ## 1. The order of places -/

namespace Pos

/-- A place stands before another in the document. -/
def Before (p q : Pos) : Prop := p.line < q.line ∨ (p.line = q.line ∧ p.column < q.column)

theorem Before.trans {p q r : Pos} (h₁ : p.Before q) (h₂ : q.Before r) : p.Before r := by
  unfold Before at *
  omega

theorem Before.ne {p q : Pos} (h : p.Before q) : p ≠ q := by
  rintro rfl
  unfold Before at h
  omega

theorem before_step (p : Pos) (c : Code) : p.Before (p.step c) := by
  unfold Before step
  split <;> simp

/-- Every stretch of text moves the place forward. -/
theorem before_advance (p : Pos) (c : Code) (cs : Text) : p.Before (p.advance (c :: cs)) := by
  induction cs generalizing p c with
  | nil => exact before_step p c
  | cons d cs ih => exact (before_step p c).trans (ih _ d)

theorem eq_or_before_advance (p : Pos) (cs : Text) : p = p.advance cs ∨ p.Before (p.advance cs) := by
  cases cs with
  | nil => exact .inl rfl
  | cons c cs => exact .inr (before_advance p c cs)

end Pos

namespace Lua

/-! ## 2. The rules -/

/-- The tokens of a text that stands at a place. -/
inductive Lexes : Pos → Text → List Token → Prop
  | finish : gap cs = .ok k → cs.drop k = [] → Lexes pos cs [⟨.eof, pos.advance (cs.take k), []⟩]
  | token : gap cs = .ok k → cs.drop k = c :: rest →
      lexeme (pos.advance (cs.take k)) c rest = .ok (kind, n) →
      Lexes ((pos.advance (cs.take k)).advance (c :: rest.take n)) (rest.drop n) ts →
      Lexes pos cs (⟨kind, pos.advance (cs.take k), c :: rest.take n⟩ :: ts)

/-- The rules are the reader of tokens. -/
theorem tokensFrom_iff {pos : Pos} {cs : Text} {ts : List Token} :
    tokensFrom pos cs = .ok ts ↔ Lexes pos cs ts := by
  constructor
  · intro h
    fun_induction tokensFrom pos cs generalizing ts with
    | case1 => cases h
    | case2 pos cs k hgap start =>
      rename_i hdrop
      cases h
      exact .finish hgap hdrop
    | case3 => cases h
    | case4 => cases h
    | case5 pos cs k hgap start c rest hdrop kind n hlex taken ts' =>
      rename_i hrest ih
      cases h
      exact .token hgap hdrop hlex (ih hrest)
  · intro h
    induction h with
    | finish hgap hdrop =>
      rw [tokensFrom]
      simp only [hgap]
      split
      · rfl
      · next heq => simp [hdrop] at heq
    | token hgap hdrop hlex _ ih =>
      rw [tokensFrom]
      simp only [hgap]
      split
      · next heq => simp [hdrop] at heq
      · next heq =>
        obtain ⟨rfl, rfl⟩ := List.cons.inj (hdrop.symm.trans heq)
        simp only [hlex, ih]

/-- The forms of a token that begins with `c` in front of `rest`: its kind, and how many code points of
`rest` belong to it. -/
inductive Lexeme (c : Code) (rest : Text) : Kind → Nat → Prop
  | keyword {k : Keyword} (hname : isNameStart c = true)
      (hword : Keyword.ofText? (c :: rest.takeWhile isNameChar) = some k) :
      Lexeme c rest (.keyword k) (rest.takeWhile isNameChar).length
  | name (hname : isNameStart c = true)
      (hword : Keyword.ofText? (c :: rest.takeWhile isNameChar) = none) :
      Lexeme c rest (.name (c :: rest.takeWhile isNameChar)) (rest.takeWhile isNameChar).length
  | number {v : Numeral} (hname : ¬isNameStart c = true)
      (hnumber : (isDigit c || (c = code '.' && rest.head?.any isDigit)) = true)
      (hv : numeral? ((c :: rest).take (numberExtent (c :: rest)).1) (numberExtent (c :: rest)).2
        = some v) :
      Lexeme c rest (.number v) ((numberExtent (c :: rest)).1 - 1)
  | string {v : Text} {n : Nat} (hname : ¬isNameStart c = true)
      (hnumber : ¬(isDigit c || (c = code '.' && rest.head?.any isDigit)) = true)
      (hquote : c = code '"' ∨ c = code '\'') (hbody : stringBody c rest = .ok (v, n)) :
      Lexeme c rest (.string v) n
  | long {level : Nat} {v : Text} {n : Nat} (hname : ¬isNameStart c = true)
      (hnumber : ¬(isDigit c || (c = code '.' && rest.head?.any isDigit)) = true)
      (hquote : ¬(c = code '"' ∨ c = code '\'')) (hopen : openerLevel? (c :: rest) = some level)
      (hlong : longBracket? level (c :: rest) = some (v, n)) : Lexeme c rest (.string v) (n - 1)
  | symbol {s : Symbol} (hname : ¬isNameStart c = true)
      (hnumber : ¬(isDigit c || (c = code '.' && rest.head?.any isDigit)) = true)
      (hquote : ¬(c = code '"' ∨ c = code '\'')) (hopen : openerLevel? (c :: rest) = none)
      (hsymbol : symbol? (c :: rest) = some s) :
      Lexeme c rest (.symbol s) (s.spelling.length - 1)

/-- A token that is read has one of the forms, wherever it stands. -/
theorem lexeme_iff {start : Pos} {c : Code} {rest : Text} {kind : Kind} {n : Nat} :
    lexeme start c rest = .ok (kind, n) ↔ Lexeme c rest kind n := by
  constructor
  · intro h
    rw [lexeme] at h
    split at h
    · next hname =>
      dsimp only [word] at h
      split at h
      · next hword =>
        cases h
        exact .keyword hname hword
      · next hword =>
        cases h
        exact .name hname hword
    · next hname =>
      split at h
      · next hnumber =>
        dsimp only at h
        split at h
        · next hv =>
          cases h
          exact .number hname hnumber hv
        · cases h
      · next hnumber =>
        split at h
        · next hquote =>
          split at h
          · next hbody =>
            cases h
            exact .string hname hnumber hquote hbody
          · cases h
          · cases h
        · next hquote =>
          split at h
          · next hopen =>
            split at h
            · next hlong =>
              cases h
              exact .long hname hnumber hquote hopen hlong
            · cases h
          · next hopen =>
            split at h
            · next hsymbol =>
              cases h
              exact .symbol hname hnumber hquote hopen hsymbol
            · cases h
  · intro h
    cases h with
    | keyword hname hword => simp only [lexeme, if_pos hname, word, hword]
    | name hname hword => simp only [lexeme, if_pos hname, word, hword]
    | number hname hnumber hv => simp only [lexeme, if_neg hname, if_pos hnumber, hv]
    | string hname hnumber hquote hbody =>
      simp only [lexeme, if_neg hname, if_neg hnumber, if_pos hquote, hbody]
    | long hname hnumber hquote hopen hlong =>
      simp only [lexeme, if_neg hname, if_neg hnumber, if_neg hquote, hopen, hlong]
    | symbol hname hnumber hquote hopen hsymbol =>
      simp only [lexeme, if_neg hname, if_neg hnumber, if_neg hquote, hopen, hsymbol]

/-- No token that is read is the end of the text. -/
theorem lexeme_kind_ne_eof {start : Pos} {c : Code} {rest : Text} {kind : Kind} {n : Nat}
    (h : lexeme start c rest = .ok (kind, n)) : kind ≠ .eof := by
  rintro rfl
  cases lexeme_iff.mp h

namespace Lexes

variable {pos : Pos} {cs : Text} {ts : List Token}

/-- The end of the text is the last token and stands nowhere else. -/
theorem ended (h : Lexes pos cs ts) :
    ∃ init e, ts = init ++ [e] ∧ e.kind = .eof ∧ ∀ t ∈ init, t.kind ≠ .eof := by
  induction h with
  | finish => exact ⟨[], _, rfl, rfl, by simp⟩
  | token _ _ hlex _ ih =>
    obtain ⟨init, e, rfl, he, hinit⟩ := ih
    refine ⟨_ :: init, e, rfl, he, ?_⟩
    intro t ht
    rcases List.mem_cons.mp ht with rfl | ht
    · exact lexeme_kind_ne_eof hlex
    · exact hinit t ht

/-- Every token but the end of the text is read where it stands. -/
theorem lexed (h : Lexes pos cs ts) : ∀ t ∈ ts, t.kind ≠ .eof →
    ∃ c rest n, lexeme t.pos c rest = .ok (t.kind, n) ∧ t.text = c :: rest.take n := by
  induction h with
  | finish => simp
  | token _ _ hlex _ ih =>
    intro t ht hkind
    rcases List.mem_cons.mp ht with rfl | ht
    · exact ⟨_, _, _, hlex, rfl⟩
    · exact ih t ht hkind

/-- Every token stands after those before it. -/
theorem ordered (h : Lexes pos cs ts) :
    (∀ t ∈ ts, pos = t.pos ∨ pos.Before t.pos) ∧ ts.Pairwise (fun t u => t.pos.Before u.pos) := by
  induction h with
  | finish => simp [Pos.eq_or_before_advance]
  | @token cs k c rest kind n ts pos _ _ _ _ ih =>
    obtain ⟨hafter, hpair⟩ := ih
    have hstart := Pos.eq_or_before_advance pos (cs.take k)
    have htoken := Pos.before_advance (pos.advance (cs.take k)) c (rest.take n)
    have hbefore : ∀ u ∈ ts, (pos.advance (cs.take k)).Before u.pos := by
      intro u hu
      rcases hafter u hu with heq | hu
      · exact heq ▸ htoken
      · exact htoken.trans hu
    refine ⟨?_, .cons hbefore hpair⟩
    intro t ht
    rcases List.mem_cons.mp ht with rfl | ht
    · exact hstart
    · rcases hstart with heq | hlt
      · exact .inr (heq ▸ hbefore t ht)
      · exact .inr (hlt.trans (hbefore t ht))

/-- No two tokens stand at one place. -/
theorem nodup_pos (h : Lexes pos cs ts) : (ts.map (·.pos)).Nodup := by
  rw [List.Nodup, List.pairwise_map]
  exact h.ordered.2.imp Pos.Before.ne

end Lexes

/-- The tokens of a text end with its end. -/
theorem tokenize_ended {cs : Text} {ts : List Token} (h : tokenize cs = .ok ts) : Ended ts := by
  obtain ⟨init, e, rfl, he, -⟩ := (tokensFrom_iff.mp h).ended
  exact ⟨init, e, rfl, he⟩

end Lua

end LuaServer
