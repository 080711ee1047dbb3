/-
# Edits of a text

`applyEdits` carries out edits of a text at once: all of them refer to places of the text before, so
where one begins its new text is put in, and what any of them covers is left out.

If the edits put one name in the place of others, the text after them has the same tokens, apart from
those names and from where the tokens stand.

Main result: `Lexes.edited`.
-/
import LuaServer.Proofs.Locality
import LuaServer.Proofs.Respelling
import LuaServer.Protocol.Position

namespace LuaServer

/-! ## 1. Edits -/

/-- A new text for the stretch of a document between two places. -/
structure Edit where
  start : Pos
  stop : Pos
  newText : Text

/-- The place of a position, which is counted from 0. -/
def Position.pos (p : Position) : Pos := ⟨p.line + 1, p.character + 1⟩

/-- The edit of a stretch on the wire. -/
def Edit.ofSpan (newText : Text) (s : Span) : Edit := ⟨s.start.pos, s.stop.pos, newText⟩

/-- The edit covers the code point at a place. -/
def Edit.covers (e : Edit) (p : Pos) : Bool := e.start.le p && !e.stop.le p

/-- What edits put in at a place. -/
def inserted (edits : List Edit) (p : Pos) : Text :=
  (edits.filter fun e => e.start = p).flatMap Edit.newText

/-- A text that stands at a place, after edits; what they put in at its end is not part of it. -/
def patched (edits : List Edit) : Pos → Text → Text
  | _, [] => []
  | p, c :: cs =>
    inserted edits p ++ (if edits.any (·.covers p) then [] else [c]) ++ patched edits (p.step c) cs

/-- A text after edits. -/
def applyEdits (edits : List Edit) (t : Text) : Text :=
  patched edits .start t ++ inserted edits (Pos.start.advance t)

example : applyEdits [⟨⟨1, 7⟩, ⟨1, 8⟩, text "total"⟩, ⟨⟨2, 1⟩, ⟨2, 2⟩, text "total"⟩]
    (text "local x\nx = 1") = text "local total\ntotal = 1" := by decide

theorem patched_append (edits : List Edit) (s t : Text) (p : Pos) :
    patched edits p (s ++ t) = patched edits p s ++ patched edits (p.advance s) t := by
  induction s generalizing p with
  | nil => rfl
  | cons c s ih => simp [patched, ih]

namespace Pos

theorem le_iff {p q : Pos} :
    p.le q = true ↔ p.line < q.line ∨ (p.line = q.line ∧ p.column ≤ q.column) := by
  simp [le]

theorem le_advance (p : Pos) (t : Text) : p.le (p.advance t) = true := by
  rw [le_iff]
  rcases eq_or_before_advance p t with h | h
  · rw [← h]
    omega
  · rw [Before] at h
    omega

theorem le_trans {p q r : Pos} (h₁ : p.le q = true) (h₂ : q.le r = true) : p.le r = true := by
  rw [le_iff] at *
  omega

theorem le_step (p : Pos) (c : Code) : p.le (p.step c) = true := le_advance p [c]

end Pos

theorem Edit.covers_iff {e : Edit} {p : Pos} :
    e.covers p = true ↔ e.start.le p = true ∧ p.Before e.stop := by
  simp only [covers, Bool.and_eq_true, Bool.not_eq_true', Bool.eq_false_iff, ne_eq, Pos.le_iff,
    Pos.Before]
  omega

/-! ## 2. Stretches of a text under edits -/

section
variable {edits : List Edit} {p : Pos}

/-- Nothing is put in where no edit begins. -/
theorem inserted_eq_nil (h : ∀ e ∈ edits, e.start ≠ p) : inserted edits p = [] := by
  rw [inserted, List.filter_eq_nil_iff.mpr (by simpa using h)]
  rfl

/-- A stretch that every edit ends before or begins after stays. -/
theorem patched_untouched (hstart : ∀ e ∈ edits, e.start.Before e.stop) :
    ∀ {p : Pos} {t : Text}, (∀ e ∈ edits, e.stop.le p = true ∨ (p.advance t).le e.start = true) →
      patched edits p t = t
  | p, [], _ => rfl
  | p, c :: t, h => by
    have hlt := Pos.before_advance p c t
    have hinserted : inserted edits p = [] := by
      refine inserted_eq_nil ?_
      rintro e he rfl
      have hse := hstart e he
      have hout := h e he
      simp only [Pos.le_iff, Pos.Before] at *
      omega
    have hcovered : edits.any (·.covers p) = false := by
      rw [List.any_eq_false]
      intro e he
      have hout := h e he
      rw [Edit.covers_iff]
      simp only [Pos.le_iff, Pos.Before] at *
      omega
    have hrest : patched edits (p.step c) t = t := by
      refine patched_untouched hstart ?_
      intro e he
      exact (h e he).imp_left fun hstop => Pos.le_trans hstop (Pos.le_step p c)
    simp [patched, hinserted, hcovered, hrest]

/-- A stretch inside an edit is left out. -/
theorem patched_covered {e : Edit} (he : e ∈ edits)
    (hothers : ∀ f ∈ edits, f.start.le e.start = true ∨ e.stop.le f.start = true) :
    ∀ {p : Pos} {t : Text}, e.start.Before p → p.advance t = e.stop → patched edits p t = []
  | p, [], _, _ => rfl
  | p, c :: t, hp, hstop => by
    have hlt := Pos.before_advance p c t
    rw [hstop] at hlt
    have hinserted : inserted edits p = [] := by
      refine inserted_eq_nil ?_
      rintro f hf rfl
      have hother := hothers f hf
      simp only [Pos.le_iff, Pos.Before] at *
      omega
    have hcovered : edits.any (·.covers p) = true := by
      refine List.any_eq_true.mpr ⟨e, he, Edit.covers_iff.mpr ⟨?_, hlt⟩⟩
      simp only [Pos.le_iff, Pos.Before] at *
      omega
    have hrest : patched edits (p.step c) t = [] :=
      patched_covered he hothers (hp.trans (Pos.before_step p c)) hstop
    simp [patched, hinserted, hcovered, hrest]

/-- Edits that end at a place or before it. -/
def Behind (p : Pos) (done : List Edit) : Prop :=
  ∀ e ∈ done, e.start.Before e.stop ∧ e.stop.le p = true

/-- Edits that begin at a place or after it. -/
def Ahead (p : Pos) (later : List Edit) : Prop :=
  ∀ e ∈ later, e.start.Before e.stop ∧ p.le e.start = true

variable {q : Pos} {done later : List Edit}

theorem Behind.mono (h : Behind p done) (hle : p.le q = true) : Behind q done :=
  fun e he => ⟨(h e he).1, Pos.le_trans (h e he).2 hle⟩

theorem Ahead.mono (h : Ahead q later) (hle : p.le q = true) : Ahead p later :=
  fun e he => ⟨(h e he).1, Pos.le_trans hle (h e he).2⟩

theorem Behind.concat (h : Behind p done) {e : Edit} (he : e.start.Before e.stop)
    (hle : e.stop.le p = true) : Behind p (done ++ [e]) := by
  intro f hf
  rcases List.mem_append.mp hf with hf | hf
  · exact h f hf
  · obtain rfl := List.mem_singleton.mp hf
    exact ⟨he, hle⟩

/-- Nothing is put in after the last edit. -/
theorem inserted_behind (h : Behind p done) (t : Text) : inserted done (p.advance t) = [] := by
  refine inserted_eq_nil ?_
  intro e he heq
  obtain ⟨hbefore, hstop⟩ := h e he
  have hle := Pos.le_advance p t
  rw [← heq] at hle
  simp only [Pos.le_iff, Pos.Before] at *
  omega

/-- A stretch between the edits behind it and those ahead of it stays. -/
theorem patched_between {t : Text} (hdone : Behind p done) (hlater : Ahead (p.advance t) later) :
    patched (done ++ later) p t = t := by
  refine patched_untouched ?_ ?_
  all_goals
    intro e he
    rcases List.mem_append.mp he with he | he
  · exact (hdone e he).1
  · exact (hlater e he).1
  · exact .inl (hdone e he).2
  · exact .inr (hlater e he).2

/-- What an edit covers is replaced by its text. -/
theorem patched_replaced {e : Edit} {c : Code} {t : Text} (hstop : e.stop = e.start.advance (c :: t))
    (hdone : Behind e.start done) (hlater : Ahead e.stop later) :
    patched (done ++ e :: later) e.start (c :: t) = e.newText := by
  have hlt := Pos.before_advance e.start c t
  rw [← hstop] at hlt
  have hinserted : inserted (done ++ e :: later) e.start = e.newText := by
    have hnone : ∀ l : List Edit, (∀ f ∈ l, f.start ≠ e.start) →
        l.filter (fun f => f.start = e.start) = [] := by
      intro l hl
      exact List.filter_eq_nil_iff.mpr (by simpa using hl)
    rw [inserted, List.filter_append, List.filter_cons, hnone done, hnone later]
    · simp
    · intro f hf heq
      have hf := (hlater f hf).2
      rw [heq] at hf
      simp only [Pos.le_iff, Pos.Before] at *
      omega
    · intro f hf heq
      have hf := hdone f hf
      rw [heq] at hf
      simp only [Pos.le_iff, Pos.Before] at *
      omega
  have hcovered : (done ++ e :: later).any (·.covers e.start) = true := by
    exact List.any_eq_true.mpr ⟨e, by simp, Edit.covers_iff.mpr ⟨Pos.le_advance _ [], hlt⟩⟩
  have hothers : ∀ f ∈ done ++ e :: later, f.start.le e.start = true ∨ e.stop.le f.start = true := by
    intro f hf
    rcases List.mem_append.mp hf with hf | hf
    · have hf := hdone f hf
      simp only [Pos.le_iff, Pos.Before] at *
      omega
    · rcases List.mem_cons.mp hf with rfl | hf
      · exact .inl (Pos.le_advance _ [])
      · exact .inr (hlater f hf).2
  have hrest : patched (done ++ e :: later) (e.start.step c) t = [] :=
    patched_covered (by simp) hothers (Pos.before_step _ c) hstop.symm
  simp [patched, hinserted, hcovered, hrest]

end

namespace Lua

/-! ## 3. Names -/

/-- A text that is a single name. -/
def IsName (t : Text) : Prop := ∃ stop, tokenize t = .ok [⟨.name t, .start, t⟩, ⟨.eof, stop, []⟩]

/-- A name is a word that is not reserved. -/
theorem lexeme_name {start : Pos} {c : Code} {rest x : Text} {n : Nat}
    (h : lexeme start c rest = .ok (.name x, n)) :
    isNameStart c = true ∧ n = (rest.takeWhile isNameChar).length ∧
      x = c :: rest.takeWhile isNameChar ∧ Keyword.ofText? x = none := by
  cases lexeme_iff.mp h with
  | name hname hword => exact ⟨hname, rfl, rfl, hword⟩

/-- A word that is not reserved is read as a name where no name character follows it. -/
theorem lexeme_of_word {d : Code} {tail y : Text} (hd : isNameStart d = true)
    (htail : tail.all isNameChar = true) (hword : Keyword.ofText? (d :: tail) = none)
    (hy : ∀ c, y.head? = some c → isNameChar c = false) (start : Pos) :
    lexeme start d (tail ++ y) = .ok (.name (d :: tail), tail.length) := by
  simp only [lexeme, if_pos hd, takeWhile_append_stop htail hy, word, hword]

theorem IsName.eq_cons {t : Text} (h : IsName t) :
    ∃ d tail, t = d :: tail ∧ isNameStart d = true ∧ tail.all isNameChar = true ∧
      Keyword.ofText? t = none := by
  obtain ⟨stop, h⟩ := h
  have hlex := tokensFrom_iff.mp h
  generalize hts : [(⟨.name t, .start, t⟩ : Token), ⟨.eof, stop, []⟩] = ts at hlex
  cases hlex with
  | finish => cases hts
  | @token _ k c rest kind n _ _ hgap hdrop hlexeme _ =>
    simp only [List.cons.injEq, Token.mk.injEq] at hts
    obtain ⟨⟨rfl, -, htext⟩, -⟩ := hts
    obtain ⟨hc, rfl, -, hword⟩ := lexeme_name hlexeme
    rw [take_takeWhile] at htext
    exact ⟨c, _, htext, hc, List.all_takeWhile, hword⟩

/-- A stretch of name characters stands on one line. -/
theorem advance_word {t : Text} (h : t.all isNameChar = true) (p : Pos) :
    p.advance t = ⟨p.line, p.column + t.length⟩ := by
  induction t generalizing p with
  | nil => rfl
  | cons c t ih =>
    simp only [List.all_cons, Bool.and_eq_true] at h
    have hc : c ≠ code '\n' := by
      rintro rfl
      exact absurd h.1 (by decide)
    rw [Pos.advance_cons, ih h.2]
    simp only [Pos.step, if_neg hc, List.length_cons]
    rw [Nat.add_assoc, Nat.add_comm 1]

namespace Lexes

variable {pos : Pos} {cs : Text} {ts : List Token}

/-- A name stands for itself. -/
theorem name_text (h : Lexes pos cs ts) : ∀ t ∈ ts, ∀ x, t.kind = .name x →
    t.text = x ∧ x ≠ [] ∧ x.all isNameChar = true := by
  intro t ht x hx
  obtain ⟨c, rest, n, hlexeme, htext⟩ := h.lexed t ht (by simp [hx])
  rw [hx] at hlexeme
  obtain ⟨hc, rfl, rfl, -⟩ := lexeme_name hlexeme
  refine ⟨by rw [htext, take_takeWhile], by simp, ?_⟩
  simp [isNameChar_of_isNameStart hc]

/-- A gap and nothing else. -/
theorem rest {g : Text} (h : gap g = .ok g.length) : Lexes pos g [⟨.eof, pos.advance g, []⟩] := by
  have hfinish : Lexes pos g [⟨.eof, pos.advance (g.take g.length), []⟩] := .finish h (by simp)
  rwa [List.take_length] at hfinish

/-- A gap and a token, in front of other tokens. -/
theorem piece {g tail after : Text} {d : Code} {kind : Kind} {ts : List Token}
    (hgap : gap (g ++ (d :: tail ++ after)) = .ok g.length)
    (hlexeme : lexeme (pos.advance g) d (tail ++ after) = .ok (kind, tail.length))
    (h : Lexes ((pos.advance g).advance (d :: tail)) after ts) :
    Lexes pos (g ++ (d :: tail ++ after)) (⟨kind, pos.advance g, d :: tail⟩ :: ts) := by
  have hdrop : (g ++ (d :: tail ++ after)).drop g.length = d :: (tail ++ after) := by simp
  have htake : (g ++ (d :: tail ++ after)).take g.length = g := by simp
  have htoken : Lexes pos (g ++ (d :: tail ++ after))
      (⟨kind, pos.advance ((g ++ (d :: tail ++ after)).take g.length),
        d :: (tail ++ after).take tail.length⟩ :: ts) :=
    .token hgap hdrop (htake.symm ▸ hlexeme) (by simpa [htake] using h)
  simpa [htake] using htoken

/-- A text is a gap, or a gap and a token in front of a text. -/
theorem induction_pieces {motive : ∀ pos cs ts, Lexes pos cs ts → Prop}
    (finish : ∀ pos g (h : gap g = .ok g.length), motive pos g [⟨.eof, pos.advance g, []⟩] (.rest h))
    (piece : ∀ pos g d tail after kind ts
      (hgap : gap (g ++ (d :: tail ++ after)) = .ok g.length)
      (hlexeme : lexeme (pos.advance g) d (tail ++ after) = .ok (kind, tail.length))
      (h : Lexes ((pos.advance g).advance (d :: tail)) after ts), motive _ _ _ h →
      motive pos (g ++ (d :: tail ++ after)) (⟨kind, pos.advance g, d :: tail⟩ :: ts)
        (.piece hgap hlexeme h))
    (h : Lexes pos cs ts) : motive pos cs ts h := by
  induction h with
  | @finish cs k pos hgap hdrop =>
    have hle := (gap_alike hgap (.refl _)).1
    have hk : k = cs.length := Nat.le_antisymm hle (List.drop_eq_nil_iff.mp hdrop)
    subst hk
    have hresult := finish pos cs hgap
    simpa only [List.take_length] using hresult
  | @token cs k c rest kind n ts pos hgap hdrop hlexeme hrest ih =>
    obtain ⟨hk, -⟩ := gap_alike hgap (.refl _)
    obtain ⟨hn, -⟩ := lexeme_alike hlexeme (.refl _) pos
    have hcs : cs = cs.take k ++ (c :: rest.take n ++ rest.drop n) := by
      rw [List.cons_append, List.take_append_drop, ← hdrop, List.take_append_drop]
    have hglen : (cs.take k).length = k := List.length_take_of_le hk
    have htlen : (rest.take n).length = n := List.length_take_of_le hn
    have hresult := piece pos (cs.take k) c (rest.take n) (rest.drop n) kind ts
      (by rw [← hcs, hglen]; exact hgap) (by rw [List.take_append_drop, htlen]; exact hlexeme)
      hrest ih
    simpa only [← hcs] using hresult

end Lexes

/-! ## 4. New names for tokens -/

/-- How a token is written when names are called as `call` says. -/
def spellAs (call : Pos → Text → Text) (t : Token) : Text :=
  match t.kind with
  | .name x => call t.pos x
  | _ => t.text

/-- A token after a change of names: `move` tells where tokens stand now, and `call` what the name at a
place is called. -/
def Token.renamed (move : Pos → Pos) (call : Pos → Text → Text) : Token → Token :=
  Token.respell move call (fun _ v => v) (spellAs call)

/-- The names at the places in `hit` are called `new`. -/
def callAs (hit : Pos → Bool) (new : Text) (p : Pos) (x : Text) : Text := if hit p then new else x

/-- The edit that calls a token `new`, if it is a name at one of the places. -/
def Token.edit? (hit : Pos → Bool) (new : Text) (t : Token) : Option Edit :=
  match t.kind with
  | .name x => if hit t.pos then some ⟨t.pos, ⟨t.pos.line, t.pos.column + x.length⟩, new⟩ else none
  | _ => none

section
variable {hit : Pos → Bool} {new : Text}

theorem Token.edit?_eq_some {t : Token} {e : Edit} (h : t.edit? hit new = some e) :
    ∃ x, t.kind = .name x ∧ hit t.pos = true ∧
      e = ⟨t.pos, ⟨t.pos.line, t.pos.column + x.length⟩, new⟩ := by
  rw [edit?] at h
  split at h
  · next x hx =>
    split at h
    · next hhit =>
      cases h
      exact ⟨x, hx, hhit, rfl⟩
    · cases h
  · cases h

/-- A token for which there is no edit only moves. -/
theorem Token.renamed_of_edit?_none {t : Token} (h : t.edit? hit new = none) (move : Pos → Pos)
    (htext : ∀ x, t.kind = .name x → t.text = x) :
    t.renamed move (callAs hit new) = ⟨t.kind, move t.pos, t.text⟩ := by
  cases hk : t.kind with
  | name x =>
    have hhit : ¬hit t.pos = true := by
      intro hhit
      simp [edit?, hk, hhit] at h
    simp [renamed, respell, Kind.respell, spellAs, hk, callAs, hhit, htext x hk]
  | _ => simp [renamed, respell, Kind.respell, spellAs, hk]

/-- The edits of tokens begin where the tokens do, and none is empty. -/
theorem ahead_edits {p : Pos} {ts : List Token} (hplace : ∀ t ∈ ts, p.le t.pos = true)
    (hname : ∀ t ∈ ts, ∀ x, t.kind = .name x → x ≠ []) :
    Ahead p (ts.filterMap (Token.edit? hit new)) := by
  intro e he
  obtain ⟨t, ht, hedit⟩ := List.mem_filterMap.mp he
  obtain ⟨x, hx, -, rfl⟩ := Token.edit?_eq_some hedit
  have hlen := List.length_pos_iff.mpr (hname t ht x hx)
  exact ⟨.inr ⟨rfl, by dsimp only; omega⟩, hplace t ht⟩

theorem Lexes.le_pos {pos : Pos} {cs : Text} {ts : List Token} (h : Lexes pos cs ts) :
    ∀ t ∈ ts, pos.le t.pos = true := by
  intro t ht
  rcases h.ordered.1 t ht with heq | hbefore
  · rw [← heq]
    exact Pos.le_advance pos []
  · rw [Pos.Before] at hbefore
    rw [Pos.le_iff]
    omega

theorem Lexes.ahead {pos : Pos} {cs : Text} {ts : List Token} (h : Lexes pos cs ts) :
    Ahead pos (ts.filterMap (Token.edit? hit new)) :=
  ahead_edits h.le_pos fun t ht x hx => (h.name_text t ht x hx).2.1

theorem Lexes.apart {pos : Pos} {cs : Text} {t : Token} {ts : List Token} (h : Lexes pos cs (t :: ts)) :
    ∀ u ∈ ts, t.pos ≠ u.pos := by
  intro u hu heq
  have hnodup := h.nodup_pos
  rw [List.map_cons, List.nodup_cons] at hnodup
  exact hnodup.1 (List.mem_map.mpr ⟨u, hu, heq.symm⟩)

/-- One more token, which moves to `q`. -/
theorem map_renamed_cons {t : Token} {ts : List Token} (ht : ∀ u ∈ ts, t.pos ≠ u.pos)
    (move : Pos → Pos) (q : Pos) (call : Pos → Text → Text) :
    ∃ move' : Pos → Pos, (t :: ts).map (Token.renamed move' call)
      = t.renamed (fun _ => q) call :: ts.map (Token.renamed move call) := by
  refine ⟨fun p => if p = t.pos then q else move p, ?_⟩
  simp only [List.map_cons, List.cons.injEq]
  refine ⟨by simp [Token.renamed, Token.respell], ?_⟩
  refine List.map_congr_left ?_
  intro u hu
  have hne : u.pos ≠ t.pos := (ht u hu).symm
  simp [Token.renamed, Token.respell, spellAs, hne]

end

/-! ## 5. The tokens after the edits -/

/-- After edits a text, which is read from `pos'` on then, has the tokens that it had before, with the names
changed and at places of their own.  It begins as it did, so that what stands in front of it ends where it
did, and nothing is put in at its end. -/
structure Edited (hit : Pos → Bool) (new : Text) (edits : List Edit) (pos pos' : Pos) (cs : Text)
    (ts : List Token) : Prop where
  lexes : ∃ move : Pos → Pos,
    Lexes pos' (patched edits pos cs) (ts.map (Token.renamed move (callAs hit new)))
  alike : Alike cs (patched edits pos cs)
  ends : inserted edits (pos.advance cs) = []

namespace Edited

variable {hit : Pos → Bool} {new g tail after : Text} {edits done : List Edit} {pos pos' : Pos}
  {d : Code} {kind : Kind} {ts : List Token}

theorem finish (hgap : gap g = .ok g.length) (hdone : Behind pos done) (pos' : Pos) :
    Edited hit new done pos pos' g [⟨.eof, pos.advance g, []⟩] := by
  have hnone : Ahead (pos.advance g) [] := nofun
  have hsame := patched_between hdone hnone
  rw [List.append_nil] at hsame
  refine ⟨⟨fun _ => pos'.advance g, ?_⟩, ?_, inserted_behind hdone g⟩
  · rw [hsame]
    exact .rest hgap
  · rw [hsame]
    exact .refl g

/-- A gap that stays, in front of a token after which the text goes on with `w`. -/
theorem patched_piece {w : Text} (hgaps : patched edits pos g = g)
    (htoken : patched edits (pos.advance g) (d :: tail) = w) :
    patched edits pos (g ++ (d :: tail ++ after))
      = g ++ (w ++ patched edits ((pos.advance g).advance (d :: tail)) after) := by
  rw [patched_append, patched_append, hgaps, htoken]

theorem ends_piece (h : inserted edits (((pos.advance g).advance (d :: tail)).advance after) = []) :
    inserted edits (pos.advance (g ++ (d :: tail ++ after))) = [] := by
  rwa [Pos.advance_append, Pos.advance_append]

section
variable (hgap : gap (g ++ (d :: tail ++ after)) = .ok g.length)
  (hlexeme : lexeme (pos.advance g) d (tail ++ after) = .ok (kind, tail.length))
  (hrest : Lexes ((pos.advance g).advance (d :: tail)) after ts)
  (hgaps : patched edits pos g = g)
include hgap hlexeme hrest hgaps

/-- A token that no edit is for. -/
theorem keep (hedit : Token.edit? hit new ⟨kind, pos.advance g, d :: tail⟩ = none)
    (htoken : patched edits (pos.advance g) (d :: tail) = d :: tail)
    (h : Edited hit new edits ((pos.advance g).advance (d :: tail))
      ((pos'.advance g).advance (d :: tail)) after ts) :
    Edited hit new edits pos pos' (g ++ (d :: tail ++ after)) (⟨kind, pos.advance g, d :: tail⟩ :: ts) := by
  have hlex := Lexes.piece hgap hlexeme hrest
  obtain ⟨⟨move, hlex'⟩, halike, hends⟩ := h
  obtain ⟨move', hmove⟩ := map_renamed_cons hlex.apart move (pos'.advance g) (callAs hit new)
  have htext := fun x hx => (hlex.name_text _ List.mem_cons_self x hx).1
  have hwhole := halike.append (d :: tail)
  refine ⟨⟨move', ?_⟩, ?_, ends_piece hends⟩
  · rw [patched_piece hgaps htoken, hmove, Token.renamed_of_edit?_none hedit _ htext]
    refine .piece ?_ ?_ hlex'
    · have hgap' := (gap_alike hgap (by simpa using hwhole)).2
      rwa [List.take_left' rfl] at hgap'
    · have hlexeme' := (lexeme_alike hlexeme (by simpa using halike) (pos'.advance g)).2
      rwa [List.take_left' rfl] at hlexeme'
  · rw [patched_piece hgaps htoken]
    exact hwhole.append g

/-- A name that an edit is for. -/
theorem rename (hnew : IsName new) (hname : kind = .name (d :: tail)) (hhit : hit (pos.advance g) = true)
    (htoken : patched edits (pos.advance g) (d :: tail) = new)
    (h : Edited hit new edits ((pos.advance g).advance (d :: tail)) ((pos'.advance g).advance new)
      after ts) :
    Edited hit new edits pos pos' (g ++ (d :: tail ++ after)) (⟨kind, pos.advance g, d :: tail⟩ :: ts) := by
  have hlex := Lexes.piece hgap hlexeme hrest
  subst hname
  obtain ⟨⟨move, hlex'⟩, halike, hends⟩ := h
  obtain ⟨move', hmove⟩ := map_renamed_cons hlex.apart move (pos'.advance g) (callAs hit new)
  obtain ⟨d', tail', rfl, hd', htail', hreserved⟩ := hnew.eq_cons
  obtain ⟨hd, hsize, -, -⟩ := lexeme_name hlexeme
  have hwhole : Alike (d :: (tail ++ after)) (d' :: (tail' ++
      patched edits ((pos.advance g).advance (d :: tail)) after)) := .names hd hd'
  refine ⟨⟨move', ?_⟩, ?_, ends_piece hends⟩
  · rw [patched_piece hgaps htoken, hmove]
    simp only [Token.renamed, Token.respell, Kind.respell, spellAs, callAs, hhit, if_true]
    refine .piece ?_ ?_ hlex'
    · have hgap' := (gap_alike hgap (by simpa using hwhole)).2
      rwa [List.take_left' rfl] at hgap'
    · -- no name character follows the new name, as none followed the old one
      refine lexeme_of_word hd' htail' hreserved ?_ _
      refine @Alike.head_of_word (tail ++ after) _ ?_
      rw [← hsize]
      simpa using halike
  · rw [patched_piece hgaps htoken]
    exact hwhole.append g

end

end Edited

section
variable {hit : Pos → Bool} {new : Text}

/-- **New names leave the other tokens alone.**  After the edits that put `new` in the place of some
names, a text has the tokens that it had before, with these names changed. -/
theorem Lexes.edited (hnew : IsName new) {pos : Pos} {cs : Text} {ts : List Token}
    (h : Lexes pos cs ts) : ∀ {done : List Edit} (pos' : Pos), Behind pos done →
      Edited hit new (done ++ ts.filterMap (Token.edit? hit new)) pos pos' cs ts := by
  -- along the text the edits of the tokens that are read move from those ahead to those behind
  induction h using Lexes.induction_pieces with
  | finish pos g hgap =>
    intro done pos' hdone
    rw [List.filterMap_cons_none rfl, List.filterMap_nil, List.append_nil]
    exact .finish hgap hdone pos'
  | piece pos g d tail after kind ts hgap hlexeme hrest ih =>
    intro done pos' hdone
    have hlex := Lexes.piece hgap hlexeme hrest
    have hgle := Pos.le_advance pos g
    have htle := Pos.le_advance (pos.advance g) (d :: tail)
    have hahead : Ahead (pos.advance g)
        ((⟨kind, pos.advance g, d :: tail⟩ :: ts).filterMap (Token.edit? hit new)) := by
      refine ahead_edits ?_ fun t ht x hx => (hlex.name_text t ht x hx).2.1
      refine List.forall_mem_cons.mpr ⟨Pos.le_advance _ [], ?_⟩
      exact fun t ht => Pos.le_trans htle (hrest.le_pos t ht)
    have hlater : Ahead _ (ts.filterMap (Token.edit? hit new)) := hrest.ahead
    have hgaps := patched_between hdone hahead
    cases hedit : Token.edit? hit new ⟨kind, pos.advance g, d :: tail⟩ with
    | none =>
      rw [List.filterMap_cons_none hedit] at hgaps ⊢
      have htoken := patched_between (hdone.mono hgle) hlater
      exact .keep hgap hlexeme hrest hgaps hedit htoken
        (ih _ ((hdone.mono hgle).mono htle))
    | some e =>
      obtain ⟨x, hx, hhit, rfl⟩ := Token.edit?_eq_some hedit
      obtain ⟨htext, -, hword⟩ := hlex.name_text _ List.mem_cons_self x hx
      dsimp only at hx hhit htext
      subst htext
      rw [List.filterMap_cons_some hedit] at hgaps ⊢
      have hplace : (⟨(pos.advance g).line, (pos.advance g).column + (d :: tail).length⟩ : Pos)
          = (pos.advance g).advance (d :: tail) := (advance_word hword _).symm
      rw [hplace] at hgaps ⊢
      have htoken := patched_replaced (e := ⟨_, _, new⟩) rfl (hdone.mono hgle) hlater
      refine .rename hgap hlexeme hrest hgaps hnew hx hhit htoken ?_
      rw [List.append_cons]
      exact ih _ (((hdone.mono hgle).mono htle).concat (Pos.before_advance _ d tail) (Pos.le_advance _ []))

/-- A whole text after edits that put `new` in the place of names. -/
theorem Lexes.applied {t : Text} {ts : List Token} (h : Lexes .start t ts) (hit : Pos → Bool)
    (hnew : IsName new) :
    ∃ move : Pos → Pos, tokenize (applyEdits (ts.filterMap (Token.edit? hit new)) t)
      = .ok (ts.map (Token.renamed move (callAs hit new))) := by
  have hedited : Edited hit new (ts.filterMap (Token.edit? hit new)) .start .start t ts :=
    h.edited hnew .start (List.forall_mem_nil _)
  obtain ⟨⟨move, hlex⟩, -, hends⟩ := hedited
  refine ⟨move, tokensFrom_iff.mpr ?_⟩
  rw [applyEdits, hends, List.append_nil]
  exact hlex

end

end Lua

end LuaServer
