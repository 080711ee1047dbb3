/-
# The elementary steps of the reader

The reader stands before a list of tokens that ends with the end of the text (`Ended`).  For each
elementary step this module says what it does there, in two forms: an equation, which runs the step when
its outcome is known, and an inversion, which tells from a successful run what the tokens were.  The
proofs about the reader are chains of these, and never look at how a step is made.
-/
import LuaServer.Proofs.Binding
import LuaServer.Proofs.Grammar

namespace LuaServer.Lua

/-! ## 1. Where the reader stands -/

/-- The reader before the given tokens. -/
def stateAt (ts : List Token) (σ : Scopes) : ParseState :=
  match ts with
  | [] => ⟨⟨.eof, .start, []⟩, [], σ⟩
  | t :: ts => ⟨t, ts, σ⟩

@[simp] theorem stateAt_cons (t : Token) (ts : List Token) (σ : Scopes) :
    stateAt (t :: ts) σ = ⟨t, ts, σ⟩ := rfl

theorem stateAt_tok (t : Token) (ts : List Token) (σ : Scopes) : (stateAt (t :: ts) σ).tok = t := rfl

@[simp] theorem stateAt_scopes (ts : List Token) (σ : Scopes) : (stateAt ts σ).scopes = σ := by
  cases ts <;> rfl

/-- The reader stands before the first of the tokens. -/
theorem stateAt_tok_kind (ts : List Token) (σ : Scopes) : (stateAt ts σ).tok.kind = kindOf ts := by
  cases ts <;> rfl

theorem stateAt_with_scopes (ts : List Token) (σ τ : Scopes) :
    { stateAt ts σ with scopes := τ } = stateAt ts τ := by
  cases ts <;> rfl

/-- The tokens end with the end of the text. -/
def Ended (ts : List Token) : Prop := ∃ init e, ts = init ++ [e] ∧ e.kind = .eof

/-- There is always a token to stand before, the last one at least. -/
theorem Ended.ne_nil {ts : List Token} (h : Ended ts) : ts ≠ [] := by
  obtain ⟨init, e, rfl, -⟩ := h
  simp

/-- After a token that is not the end there are more. -/
theorem Ended.tail {t : Token} {ts : List Token} (h : Ended (t :: ts)) (ht : t.kind ≠ .eof) :
    Ended ts := by
  obtain ⟨init, e, heq, he⟩ := h
  cases init with
  | nil =>
    obtain ⟨rfl, -⟩ := List.cons.inj heq
    exact absurd he ht
  | cons t' init =>
    obtain ⟨-, rfl⟩ := List.cons.inj heq
    exact ⟨init, e, rfl, he⟩

/-- A token that is not the end is passed. -/
theorem advance_stateAt {t : Token} {ts : List Token} {σ : Scopes} (ht : t.kind ≠ .eof)
    (hts : ts ≠ []) : (stateAt (t :: ts) σ).advance = stateAt ts σ := by
  cases ts with
  | nil => exact absurd rfl hts
  | cons u us =>
    simp only [stateAt_cons, ParseState.advance]

namespace Parse

variable {α β : Type}

/-! ## 2. Sequences of steps -/

/-- A sequence runs on from the result of its first step. -/
theorem bind_eq {p : Parse α} {f : α → Parse β} {s s' : ParseState} {a : α}
    (h : p s = .ok (a, s')) : (p >>= f) s = f a s' := by
  simp [bind, StateT.bind, Except.bind, h]

/-- A sequence fails where its first step does. -/
theorem bind_error {p : Parse α} {f : α → Parse β} {s : ParseState} {e : SyntaxError}
    (h : p s = .error e) : (p >>= f) s = .error e := by
  simp [bind, StateT.bind, Except.bind, h]

/-- A sequence that succeeds has a first step that succeeds. -/
theorem of_bind {p : Parse α} {f : α → Parse β} {s : ParseState} {r : β × ParseState}
    (h : (p >>= f) s = .ok r) : ∃ a s', p s = .ok (a, s') ∧ f a s' = .ok r := by
  simp only [bind, StateT.bind, Except.bind] at h
  cases hp : p s with
  | error e => simp [hp] at h
  | ok q => exact ⟨q.1, q.2, rfl, by simpa [hp] using h⟩

theorem pure_eq (a : α) (s : ParseState) : (pure a : Parse α) s = .ok (a, s) := rfl

/-- What a step without effect has done. -/
theorem of_pure {a b : α} {s s' : ParseState} (h : (pure a : Parse α) s = .ok (b, s')) :
    a = b ∧ s = s' := by
  cases h
  exact ⟨rfl, rfl⟩

/-- A result that is changed is the result of the step, changed. -/
theorem map_eq {p : Parse α} {f : α → β} {s s' : ParseState} {a : α} (h : p s = .ok (a, s')) :
    (f <$> p) s = .ok (f a, s') := by
  simp [Functor.map, StateT.map, bind, Except.bind, h, pure, Except.pure]

/-- What a step has done of which the result is changed. -/
theorem of_map {p : Parse α} {f : α → β} {s s' : ParseState} {b : β}
    (h : (f <$> p) s = .ok (b, s')) : ∃ a, p s = .ok (a, s') ∧ b = f a := by
  simp only [Functor.map, StateT.map, bind, Except.bind, pure, Except.pure] at h
  cases hp : p s with
  | error e => simp [hp] at h
  | ok q =>
    simp only [hp, Except.ok.injEq, Prod.mk.injEq] at h
    exact ⟨q.1, by rw [← h.2], h.1.symm⟩

/-- A failure gives no result. -/
theorem failAt_ne {p : Pos} {f : Fault} {s : ParseState} {r : α × ParseState} :
    (failAt p f : Parse α) s ≠ .ok r := by
  intro h
  cases h

theorem fail_ne {f : Text → Fault} {s : ParseState} {r : α × ParseState} :
    (fail f : Parse α) s ≠ .ok r := by
  intro h
  cases h

theorem tooDeep_ne {s : ParseState} {r : α × ParseState} : (tooDeep : Parse α) s ≠ .ok r := fail_ne

/-! ## 3. Looking at tokens -/

theorem peek_bind (f : Token → Parse β) (s : ParseState) : (peek >>= f) s = f s.tok s := rfl

theorem peekNext_bind (f : Token → Parse β) (s : ParseState) :
    (peekNext >>= f) s = f (s.rest.head?.getD s.tok) s := rfl

/-- A look at the kind of the current token, before which the reader stays. -/
theorem check_bind (k : Kind) (f : Bool → Parse β) (ts : List Token) (σ : Scopes) :
    (check k >>= f) (stateAt ts σ) = f (decide (kindOf ts = k)) (stateAt ts σ) := by
  rw [← stateAt_tok_kind ts σ]
  rfl

/-- The same for the kinds that end a block. -/
theorem blockFollow_bind (f : Bool → Parse β) (ts : List Token) (σ : Scopes) :
    (blockFollow >>= f) (stateAt ts σ) = f (endsBlock (kindOf ts)) (stateAt ts σ) := by
  rw [← stateAt_tok_kind ts σ]
  rfl

/-! ## 4. Taking tokens -/

/-- The current token is taken. -/
theorem next_eq (s : ParseState) : next s = .ok (s.tok, s.advance) := rfl

/-- Taking a token that is not the end. -/
theorem next_stateAt {t : Token} {ts : List Token} {σ : Scopes} (ht : t.kind ≠ .eof)
    (hts : ts ≠ []) : next (stateAt (t :: ts) σ) = .ok (t, stateAt ts σ) := by
  rw [next_eq, advance_stateAt ht hts, stateAt_cons]

/-- A token of the kind is taken, unless it is the last one. -/
theorem accept_yes {k : Kind} {t : Token} {ts : List Token} {σ : Scopes} (ht : t.kind = k)
    (hk : k ≠ .eof) (hts : ts ≠ []) : accept k (stateAt (t :: ts) σ) = .ok (true, stateAt ts σ) := by
  rw [accept, check_bind, decide_eq_true (show kindOf (t :: ts) = k from ht), if_pos rfl,
    bind_eq (next_stateAt (ht ▸ hk) hts), pure_eq]

/-- A token of another kind stays. -/
theorem accept_no {k : Kind} {ts : List Token} {σ : Scopes} (ht : kindOf ts ≠ k) :
    accept k (stateAt ts σ) = .ok (false, stateAt ts σ) := by
  rw [accept, check_bind, decide_eq_false ht, if_neg Bool.false_ne_true, pure_eq]

/-- The token that is asked for is taken. -/
theorem expect_yes {k : Kind} {t : Token} {ts : List Token} {σ : Scopes} (ht : t.kind = k)
    (hk : k ≠ .eof) (hts : ts ≠ []) : expect k (stateAt (t :: ts) σ) = .ok (t, stateAt ts σ) := by
  rw [expect, check_bind, decide_eq_true (show kindOf (t :: ts) = k from ht), if_pos rfl,
    next_stateAt (ht ▸ hk) hts]

theorem expectClosing_yes {k : Kind} {o t : Token} {ts : List Token} {σ : Scopes} (ht : t.kind = k)
    (hk : k ≠ .eof) (hts : ts ≠ []) :
    expectClosing k o (stateAt (t :: ts) σ) = .ok (t, stateAt ts σ) := by
  rw [expectClosing, check_bind, decide_eq_true (show kindOf (t :: ts) = k from ht), if_pos rfl,
    next_stateAt (ht ▸ hk) hts]

theorem expectName_yes {x : Text} {t : Token} {ts : List Token} {σ : Scopes}
    (ht : t.kind = .name x) (hts : ts ≠ []) :
    expectName (stateAt (t :: ts) σ) = .ok (⟨x, t.pos⟩, stateAt ts σ) := by
  have hne : t.kind ≠ .eof := by simp [ht]
  rw [expectName, peek_bind]
  simp only [stateAt_cons, ht]
  rw [← stateAt_cons, bind_eq (next_stateAt hne hts), pure_eq]

/-- What a step that takes one token did. -/
theorem of_next {t : Token} {ts : List Token} {σ : Scopes} {f : Token → Parse β}
    {r : β × ParseState} (hE : Ended (t :: ts)) (ht : t.kind ≠ .eof)
    (h : (next >>= f) (stateAt (t :: ts) σ) = .ok r) : Ended ts ∧ f t (stateAt ts σ) = .ok r := by
  have hE' := hE.tail ht
  rw [bind_eq (next_stateAt ht hE'.ne_nil)] at h
  exact ⟨hE', h⟩

/-- If the reader went on, the token it asked for was there. -/
theorem of_expect {k : Kind} {ts : List Token} {σ : Scopes} {f : Token → Parse β}
    {r : β × ParseState} (hE : Ended ts) (hk : k ≠ .eof)
    (h : (expect k >>= f) (stateAt ts σ) = .ok r) :
    ∃ t ts', ts = t :: ts' ∧ t.kind = k ∧ Ended ts' ∧ f t (stateAt ts' σ) = .ok r := by
  obtain ⟨t, ts', rfl⟩ := List.exists_cons_of_ne_nil hE.ne_nil
  by_cases ht : t.kind = k
  · have hE' := hE.tail (ht ▸ hk)
    rw [bind_eq (expect_yes ht hk hE'.ne_nil)] at h
    exact ⟨t, ts', rfl, ht, hE', h⟩
  · obtain ⟨a, s', h, -⟩ := of_bind h
    rw [expect, check_bind, decide_eq_false (show kindOf (t :: ts') ≠ k from ht),
      if_neg Bool.false_ne_true] at h
    exact absurd h fail_ne

/-- The same for a token that closes what another one opened. -/
theorem of_expectClosing {k : Kind} {o : Token} {ts : List Token} {σ : Scopes} {f : Token → Parse β}
    {r : β × ParseState} (hE : Ended ts) (hk : k ≠ .eof)
    (h : (expectClosing k o >>= f) (stateAt ts σ) = .ok r) :
    ∃ t ts', ts = t :: ts' ∧ t.kind = k ∧ Ended ts' ∧ f t (stateAt ts' σ) = .ok r := by
  obtain ⟨t, ts', rfl⟩ := List.exists_cons_of_ne_nil hE.ne_nil
  by_cases ht : t.kind = k
  · have hE' := hE.tail (ht ▸ hk)
    rw [bind_eq (expectClosing_yes ht hk hE'.ne_nil)] at h
    exact ⟨t, ts', rfl, ht, hE', h⟩
  · obtain ⟨a, s', h, -⟩ := of_bind h
    rw [expectClosing, check_bind, decide_eq_false (show kindOf (t :: ts') ≠ k from ht),
      if_neg Bool.false_ne_true, peek_bind] at h
    split at h
    · exact absurd h fail_ne
    · exact absurd h fail_ne

/-- The same for a name. -/
theorem of_expectName {ts : List Token} {σ : Scopes} {f : Ident → Parse β} {r : β × ParseState}
    (hE : Ended ts) (h : (expectName >>= f) (stateAt ts σ) = .ok r) :
    ∃ t ts' x, ts = t :: ts' ∧ t.kind = .name x ∧ Ended ts' ∧
      f ⟨x, t.pos⟩ (stateAt ts' σ) = .ok r := by
  obtain ⟨t, ts', rfl⟩ := List.exists_cons_of_ne_nil hE.ne_nil
  cases ht : t.kind with
  | name x =>
    have hE' := hE.tail (by simp [ht])
    rw [bind_eq (expectName_yes ht hE'.ne_nil)] at h
    exact ⟨t, ts', x, rfl, ht, hE', h⟩
  | _ =>
    obtain ⟨a, s', h, -⟩ := of_bind h
    rw [expectName, peek_bind] at h
    simp only [stateAt_cons, ht] at h
    exact absurd h fail_ne

/-- A sign that may be absent was taken, or something else follows. -/
theorem of_accept {k : Kind} {ts : List Token} {σ : Scopes} {f : Bool → Parse β}
    {r : β × ParseState} (hE : Ended ts) (hk : k ≠ .eof)
    (h : (accept k >>= f) (stateAt ts σ) = .ok r) :
    (∃ t ts', ts = t :: ts' ∧ t.kind = k ∧ Ended ts' ∧ f true (stateAt ts' σ) = .ok r) ∨
      (kindOf ts ≠ k ∧ f false (stateAt ts σ) = .ok r) := by
  by_cases ht : kindOf ts = k
  · obtain ⟨t, ts', rfl⟩ := List.exists_cons_of_ne_nil hE.ne_nil
    have hE' := hE.tail fun he => hk (ht.symm.trans he)
    rw [bind_eq (accept_yes ht hk hE'.ne_nil)] at h
    exact .inl ⟨t, ts', rfl, ht, hE', h⟩
  · rw [bind_eq (accept_no ht)] at h
    exact .inr ⟨ht, h⟩

/-- After the sign, what follows it is read. -/
theorem after?_yes {p : Parse α} {k : Kind} {t : Token} {ts : List Token} {σ : Scopes} {a : α}
    {s' : ParseState} (ht : t.kind = k) (hk : k ≠ .eof) (hts : ts ≠ [])
    (h : p (stateAt ts σ) = .ok (a, s')) :
    after? k p (stateAt (t :: ts) σ) = .ok (some a, s') := by
  rw [after?, bind_eq (accept_yes ht hk hts), if_pos rfl, map_eq h]

/-- Without the sign nothing is read. -/
theorem after?_no {p : Parse α} {k : Kind} {ts : List Token} {σ : Scopes} (ht : kindOf ts ≠ k) :
    after? k p (stateAt ts σ) = .ok (none, stateAt ts σ) := by
  rw [after?, bind_eq (accept_no ht), if_neg Bool.false_ne_true, pure_eq]

/-- What may follow a sign was read after it, or the sign is absent. -/
theorem of_after? {p : Parse α} {k : Kind} {ts : List Token} {σ : Scopes} {a : Option α}
    {s' : ParseState} (hE : Ended ts) (hk : k ≠ .eof)
    (h : after? k p (stateAt ts σ) = .ok (a, s')) :
    (∃ t ts' b, ts = t :: ts' ∧ t.kind = k ∧ Ended ts' ∧ a = some b ∧
      p (stateAt ts' σ) = .ok (b, s')) ∨
      (kindOf ts ≠ k ∧ a = none ∧ s' = stateAt ts σ) := by
  rw [after?] at h
  obtain ⟨t, ts', rfl, ht, hE', h⟩ | ⟨ht, h⟩ := of_accept hE hk h
  · rw [if_pos rfl] at h
    obtain ⟨b, hp, rfl⟩ := of_map h
    exact .inl ⟨t, ts', b, rfl, ht, hE', rfl, hp⟩
  · rw [if_neg Bool.false_ne_true] at h
    obtain ⟨rfl, rfl⟩ := of_pure h
    exact .inr ⟨ht, rfl, rfl⟩

/-- Before the sign nothing is read. -/
theorem before_yes {p : Parse α} {k : Kind} {a : α} {ts : List Token} {σ : Scopes}
    (ht : kindOf ts = k) : before k a p (stateAt ts σ) = .ok (a, stateAt ts σ) := by
  rw [before, check_bind, decide_eq_true ht, if_pos rfl, pure_eq]

/-- Where the sign does not stand, what may stand before it is read. -/
theorem before_no {p : Parse α} {k : Kind} {a : α} {ts : List Token} {σ : Scopes}
    (ht : kindOf ts ≠ k) : before k a p (stateAt ts σ) = p (stateAt ts σ) := by
  rw [before, check_bind, decide_eq_false ht, if_neg Bool.false_ne_true]

/-- Nothing stands before a sign, or it was read. -/
theorem of_before {p : Parse α} {k : Kind} {a b : α} {ts : List Token} {σ : Scopes}
    {s' : ParseState} (h : before k a p (stateAt ts σ) = .ok (b, s')) :
    (kindOf ts = k ∧ b = a ∧ s' = stateAt ts σ) ∨
      (kindOf ts ≠ k ∧ p (stateAt ts σ) = .ok (b, s')) := by
  by_cases ht : kindOf ts = k
  · rw [before_yes ht] at h
    cases h
    exact .inl ⟨ht, rfl, rfl⟩
  · rw [before_no ht] at h
    exact .inr ⟨ht, h⟩

/-- A token of either kind is taken. -/
theorem acceptEither_yes {k l : Kind} {t : Token} {ts : List Token} {σ : Scopes}
    (ht : t.kind = k ∨ t.kind = l) (hk : k ≠ .eof) (hl : l ≠ .eof) (hts : ts ≠ []) :
    acceptEither k l (stateAt (t :: ts) σ) = .ok (true, stateAt ts σ) := by
  by_cases htk : kindOf (t :: ts) = k
  · rw [acceptEither, bind_eq (accept_yes htk hk hts), if_pos rfl, pure_eq]
  · rw [acceptEither, bind_eq (accept_no htk), if_neg Bool.false_ne_true,
      accept_yes (ht.resolve_left htk) hl hts]

/-- A token of neither kind stays. -/
theorem acceptEither_no {k l : Kind} {ts : List Token} {σ : Scopes} (hk : kindOf ts ≠ k)
    (hl : kindOf ts ≠ l) : acceptEither k l (stateAt ts σ) = .ok (false, stateAt ts σ) := by
  rw [acceptEither, bind_eq (accept_no hk), if_neg Bool.false_ne_true, accept_no hl]

/-- One of two signs was taken, or something else follows. -/
theorem of_acceptEither {k l : Kind} {ts : List Token} {σ : Scopes} {f : Bool → Parse β}
    {r : β × ParseState} (hE : Ended ts) (hk : k ≠ .eof) (hl : l ≠ .eof)
    (h : (acceptEither k l >>= f) (stateAt ts σ) = .ok r) :
    (∃ t ts', ts = t :: ts' ∧ (t.kind = k ∨ t.kind = l) ∧ Ended ts' ∧
      f true (stateAt ts' σ) = .ok r) ∨
      (kindOf ts ≠ k ∧ kindOf ts ≠ l ∧ f false (stateAt ts σ) = .ok r) := by
  by_cases ht : kindOf ts = k ∨ kindOf ts = l
  · obtain ⟨t, ts', rfl⟩ := List.exists_cons_of_ne_nil hE.ne_nil
    have hne : t.kind ≠ .eof := by
      rcases ht with ht | ht
      · exact fun he => hk (ht.symm.trans he)
      · exact fun he => hl (ht.symm.trans he)
    have hE' := hE.tail hne
    rw [bind_eq (acceptEither_yes ht hk hl hE'.ne_nil)] at h
    exact .inl ⟨t, ts', rfl, ht, hE', h⟩
  · obtain ⟨htk, htl⟩ := not_or.mp ht
    rw [bind_eq (acceptEither_no htk htl)] at h
    exact .inr ⟨htk, htl, h⟩

/-! ## 5. Variables -/

/-- The scopes change, and the reader stays where it is. -/
theorem onScopes_eq (f : Scopes → α × Scopes) (ts : List Token) (σ : Scopes) :
    onScopes f (stateAt ts σ) = .ok ((f σ).1, stateAt ts (f σ).2) := by
  cases ts <;> rfl

theorem onScopes_bind (f : Scopes → α × Scopes) (g : α → Parse β) (ts : List Token) (σ : Scopes) :
    (onScopes f >>= g) (stateAt ts σ) = g (f σ).1 (stateAt ts (f σ).2) :=
  bind_eq (onScopes_eq f ts σ)

theorem activate_bind (ns : List Name) (g : Unit → Parse β) (ts : List Token) (σ : Scopes) :
    (activate ns >>= g) (stateAt ts σ) = g () (stateAt ts (σ.activate ns)) :=
  bind_eq (onScopes_eq _ ts σ)

/-- A step in a scope of its own ends with the locals with which it began. -/
theorem inScope_eq {p : Parse α} {ts next : List Token} {σ τ : Scopes} {a : α}
    (h : p (stateAt ts σ) = .ok (a, stateAt next τ)) :
    inScope p (stateAt ts σ) = .ok (a, stateAt next (σ.hide τ)) := by
  have hget : (get : Parse ParseState) (stateAt ts σ) = .ok (stateAt ts σ, stateAt ts σ) := rfl
  rw [inScope, bind_eq hget, bind_eq h, bind_eq (onScopes_eq _ next τ), pure_eq, stateAt_scopes]
  rfl

/-- What became visible is hidden after the step. -/
theorem of_inScope {p : Parse α} {s s' : ParseState} {a : α} (h : inScope p s = .ok (a, s')) :
    ∃ s₁, p s = .ok (a, s₁) ∧ s' = { s₁ with scopes := s.scopes.hide s₁.scopes } := by
  obtain ⟨s₀, _, h₀, h⟩ := of_bind h
  cases h₀
  obtain ⟨a', s₁, h₁, h⟩ := of_bind h
  obtain ⟨_, s₂, h₂, h⟩ := of_bind h
  cases h₂
  cases h
  exact ⟨s₁, h₁, rfl⟩

/-- A store that is allowed is counted. -/
theorem markWritten_eq {n : Name} {ts : List Token} {σ τ : Scopes} (h : σ.write? n = some τ) :
    markWritten n (stateAt ts σ) = .ok ((), stateAt ts τ) := by
  have hget : (get : Parse ParseState) (stateAt ts σ) = .ok (stateAt ts σ, stateAt ts σ) := rfl
  rw [markWritten, bind_eq hget, stateAt_scopes, h]
  rw [← stateAt_with_scopes ts σ τ]
  rfl

/-- If the reader went on after a store, it was allowed. -/
theorem of_markWritten {n : Name} {ts : List Token} {σ : Scopes} {u : Unit} {s' : ParseState}
    (h : markWritten n (stateAt ts σ) = .ok (u, s')) :
    ∃ τ, σ.write? n = some τ ∧ s' = stateAt ts τ := by
  obtain ⟨s₀, _, h₀, h⟩ := of_bind h
  cases h₀
  rw [stateAt_scopes] at h
  cases hw : σ.write? n with
  | none =>
    rw [hw] at h
    exact absurd h failAt_ne
  | some τ =>
    rw [hw] at h
    cases h
    exact ⟨τ, rfl, stateAt_with_scopes ts σ τ⟩

/-- The target of a function statement: a name or something with fields. -/
theorem of_markTarget {e : Expr} {ts : List Token} {σ : Scopes} {u : Unit} {s' : ParseState}
    (he : e.assignable = true) (h : markTarget e (stateAt ts σ) = .ok (u, s')) :
    ∃ τ, σ.writeTargets [e] = some τ ∧ s' = stateAt ts τ := by
  cases e with
  | name n =>
    obtain ⟨τ, hw, rfl⟩ := of_markWritten h
    exact ⟨τ, by simp [Scopes.writeTargets, hw], rfl⟩
  | index p o k =>
    obtain ⟨-, rfl⟩ := of_pure h
    exact ⟨σ, rfl, rfl⟩
  | _ => simp [Expr.assignable] at he

end Parse

end LuaServer.Lua
