/-
# The depth of calls is not reached

Between two tokens that are taken the reader never goes more than ten calls deep, so ten calls for every
token that is left, and a few more, are enough.  That is counted as room (`Roomy`): a step that takes a
token gains ten, and a call costs one.  Each function of the reader needs a little room to begin with, by
its place in the order in which the functions call one another without taking a token.

So a text that is refused is refused for a fault of its own, and the depth is no way to fail.

Main result: `parse_not_tooDeep`.
-/
import LuaServer.Proofs.ReaderFaults

namespace LuaServer.Lua

/-! ## 1. Room -/

/-- The reader stands before tokens that end, and calls up to a depth `d` are ten for every token after
the current one and `r` more. -/
structure Roomy (d r : Nat) (s : ParseState) : Prop where
  ended : Ended (s.tok :: s.rest)
  room : 10 * s.rest.length + r ≤ d

/-- A step for which `r` is room enough, and which leaves `r'`.  `P` holds of the current token before
it. -/
def Spares (d r : Nat) (P : Token → Prop) {α : Type} (p : Parse α) (r' : Nat) : Prop :=
  ∀ s, Roomy d r s → P s.tok →
    (∀ e, p s = .error e → e.fault ≠ .tooDeep) ∧ ∀ a s', p s = .ok (a, s') → Roomy d r' s'

/-- Less room is asked for. -/
theorem Roomy.mono {d r r' : Nat} {s : ParseState} (h : Roomy d r s) (hle : r' ≤ r) : Roomy d r' s :=
  ⟨h.ended, by have := h.room; omega⟩

/-- A token that is not the end is passed, which gains room. -/
theorem Roomy.advance {d r : Nat} {s : ParseState} (h : Roomy d r s) (ht : s.tok.kind ≠ .eof) :
    Roomy d (r + 10) s.advance := by
  obtain ⟨t, ts, σ⟩ := s
  obtain ⟨hended, hroom⟩ := h
  have htail : Ended ts := hended.tail ht
  obtain ⟨u, us, rfl⟩ := List.exists_cons_of_ne_nil htail.ne_nil
  have hnext : (⟨t, u :: us, σ⟩ : ParseState).advance = ⟨u, us, σ⟩ := advance_stateAt ht htail.ne_nil
  rw [hnext]
  refine ⟨htail, ?_⟩
  rw [List.length_cons] at hroom
  dsimp only
  omega

namespace Spares

section
variable {d r r' r'' : Nat} {P : Token → Prop} {α β : Type}

/-- Nothing is taken and nothing is called. -/
theorem pure {a : α} (h : r' ≤ r) : Spares d r P (pure a : Parse α) r' := by
  refine fun s hs _ => ⟨by rintro _ ⟨⟩, ?_⟩
  rintro b s' ⟨⟩
  exact hs.mono h

/-- What the first step leaves is enough for the second. -/
theorem bind {p : Parse α} {f : α → Parse β} (hp : Spares d r P p r')
    (hf : ∀ a, Spares d r' Any (f a) r'') : Spares d r P (p >>= f) r'' := by
  intro s hs hP
  obtain ⟨herror, hok⟩ := hp s hs hP
  cases hrun : p s with
  | error e =>
    rw [Parse.bind_error hrun]
    refine ⟨?_, by rintro _ _ ⟨⟩⟩
    rintro _ ⟨⟩
    exact herror e hrun
  | ok a =>
    rw [Parse.bind_eq hrun]
    exact hf a.1 a.2 (hok a.1 a.2 hrun) trivial

/-- A step leaves at least less than it leaves. -/
theorem mono {p : Parse α} {q : Nat} (hp : Spares d r P p r') (h : q ≤ r') :
    Spares d r P p q :=
  fun s hs hP => ⟨(hp s hs hP).1, fun a s' hrun => ((hp s hs hP).2 a s' hrun).mono h⟩

/-- More may be known of the current token. -/
theorem weaken {p : Parse α} (hp : Spares d r Any p r') : Spares d r P p r' :=
  fun s hs _ => hp s hs trivial

/-- A call costs one. -/
theorem call {p : Parse α} (hp : Spares d r P p r') : Spares (d + 1) (r + 1) P p (r' + 1) := by
  intro s hs hP
  have hroom := hs.room
  obtain ⟨herror, hok⟩ := hp s ⟨hs.ended, by omega⟩ hP
  refine ⟨herror, fun a s' hrun => ?_⟩
  have hleft := (hok a s' hrun).room
  exact ⟨(hok a s' hrun).ended, by omega⟩

/-- A function that needs `n` for what it does needs one more to be called, and gains the same. -/
theorem called (n gain : Nat) {p : Parse α} (hp : ∀ r, n ≤ r → Spares d r P p (r + gain)) :
    ∀ r, n + 1 ≤ r → Spares (d + 1) r P p (r + gain) := by
  intro r hr
  obtain ⟨k, rfl⟩ := Nat.exists_eq_add_of_le' hr
  have hcall := (hp (k + n) (by omega)).call
  rwa [Nat.add_right_comm (k + n)] at hcall

/-- Without room for a call nothing has to be shown. -/
theorem exhausted {p : Parse α} (h : 1 ≤ r) : Spares 0 r P p r' := by
  intro s hs
  have hroom := hs.room
  omega

/-- Either branch, under its condition. -/
theorem ite {c : Prop} [Decidable c] {p q : Parse α} (hp : c → Spares d r P p r')
    (hq : ¬c → Spares d r P q r') : Spares d r P (if c then p else q) r' := by
  split
  · next h => exact hp h
  · next h => exact hq h

/-- A step of which the result is made into another. -/
theorem yields {p : Parse α} {f : α → β} (hp : Spares d r P p r') (h : r'' ≤ r') :
    Spares d r P (p >>= fun a => Pure.pure (f a)) r'' :=
  hp.bind fun _ => pure h

theorem map {p : Parse α} (f : α → β) (hp : Spares d r P p r') : Spares d r P (f <$> p) r' := by
  rw [map_eq_pure_bind]
  exact hp.yields (Nat.le_refl r')

/-- What is looked at stays the current token. -/
theorem peek {f : Token → Parse β} (hf : ∀ t, P t → Spares d r (· = t) (f t) r') :
    Spares d r P (Parse.peek >>= f) r' := by
  intro s hs hP
  rw [Parse.peek_bind]
  exact hf s.tok hP s hs rfl

theorem peekNext {f : Token → Parse β} (hf : ∀ t, Spares d r P (f t) r') :
    Spares d r P (Parse.peekNext >>= f) r' := fun s hs hP => hf _ s hs hP

/-- What a look at its kind tells of the current token is kept: the branches know which sign they stand
before. -/
theorem check {k : Kind} {f : Bool → Parse β}
    (hf : ∀ b, Spares d r (fun t => P t ∧ b = decide (t.kind = k)) (f b) r') :
    Spares d r P (Parse.check k >>= f) r' := fun s hs hP => hf _ s hs ⟨hP, rfl⟩

theorem blockFollow {f : Bool → Parse β} (hf : ∀ b, Spares d r P (f b) r') :
    Spares d r P (Parse.blockFollow >>= f) r' := fun s hs hP => hf _ s hs hP

/-- A check that decides what is taken. -/
theorem checked {k : Kind} {p q : Parse β} (hp : Spares d r (·.kind = k) p r')
    (hq : Spares d r P q r') :
    Spares d r P (Parse.check k >>= fun b => if b = true then p else q) r' := by
  refine check fun b => ite (fun hb s hs hs' => ?_) fun _ s hs hs' => hq s hs hs'.1
  exact hp s hs (of_decide_eq_true (hs'.2 ▸ hb))

/-- The current token is taken, and it is not the end. -/
theorem next (h : ∀ t, P t → t.kind ≠ .eof) : Spares d r P Parse.next (r + 10) := by
  refine fun s hs hP => ⟨by rintro _ ⟨⟩, ?_⟩
  rintro t s' ⟨⟩
  exact hs.advance (h s.tok hP)

/-- The current token, when it is known to be of a kind, is taken. -/
theorem taken {t : Token} {k : Kind} (h : t.kind = k) (hk : k ≠ .eof) :
    Spares d r (· = t) Parse.next (r + 10) :=
  next fun _ ht => ht ▸ h ▸ hk

/-- Whatever the current token is, to take it costs nothing. -/
theorem skip : Spares d r P Parse.next r := by
  refine fun s hs _ => ⟨by rintro _ ⟨⟩, ?_⟩
  rintro t s' ⟨⟩
  by_cases ht : s.tok.kind = .eof
  · have hstay : s.advance = s := by simp [ParseState.advance, ht]
    rwa [hstay]
  · exact (hs.advance ht).mono (by omega)

/-- What is done with the scopes takes no token. -/
theorem onScopes {f : Scopes → α × Scopes} : Spares d r P (Parse.onScopes f) r := by
  refine fun s hs _ => ⟨by rintro _ ⟨⟩, ?_⟩
  rintro a s' ⟨⟩
  exact ⟨hs.ended, hs.room⟩

/-- A scope costs nothing. -/
theorem inScope {p : Parse α} (hp : Spares d r Any p r') : Spares d r P (Parse.inScope p) r' := by
  intro s hs hP
  have hbody : Spares d r Any (do
      let a ← p
      Parse.onScopes fun σ => ((), { σ with active := s.scopes.active })
      Pure.pure a : Parse α) r' :=
    hp.bind fun a => onScopes.yields (by omega)
  exact hbody s hs trivial

/-- A failure of another kind is one the grammar has. -/
theorem failAt {pos : Pos} {f : Fault} (hf : f ≠ .tooDeep) :
    Spares d r P (Parse.failAt pos f : Parse α) r' := by
  refine fun s hs _ => ⟨?_, by rintro _ _ ⟨⟩⟩
  rintro e ⟨⟩
  exact hf

theorem fail {f : Text → Fault} (hf : ∀ near, f near ≠ .tooDeep) :
    Spares d r P (Parse.fail f : Parse α) r' :=
  peek fun t _ => failAt (hf t.near)

section
variable {k l : Kind}

/-- A token that may be absent, and that no room is gained by. -/
theorem acceptAny : Spares d r P (Parse.accept k) r :=
  check fun _ => ite (fun _ => skip.yields (by omega)) fun _ => pure (by omega)

theorem acceptEither : Spares d r P (Parse.acceptEither k l) r :=
  acceptAny.bind fun _ => ite (fun _ => pure (by omega)) fun _ => acceptAny

/-- A token that may be absent. -/
theorem accept (hk : k ≠ .eof) {p q : Parse β} (hp : Spares d (r + 10) Any p r')
    (hq : Spares d r Any q r') :
    Spares d r P (Parse.accept k >>= fun b => if b = true then p else q) r' := by
  intro s hs hP
  by_cases ht : s.tok.kind = k
  · have hrun : Parse.accept k s = .ok (true, s.advance) := by
      change (if decide (s.tok.kind = k) = true then _ else _ : Parse Bool) s = _
      rw [if_pos (decide_eq_true ht)]
      rfl
    rw [Parse.bind_eq hrun, if_pos rfl]
    exact hp _ (hs.advance (ht ▸ hk)) trivial
  · have hrun : Parse.accept k s = .ok (false, s) := by
      change (if decide (s.tok.kind = k) = true then _ else _ : Parse Bool) s = _
      rw [if_neg (by simpa using ht)]
      rfl
    rw [Parse.bind_eq hrun, if_neg Bool.false_ne_true]
    exact hq s hs trivial

/-- What follows a sign has the room that the sign gained, and without the sign nothing is called. -/
theorem after? (hk : k ≠ .eof) {p : Parse α} (hp : Spares d (r + 10) Any p r') (hle : r ≤ r') :
    Spares d r P (Parse.after? k p) r :=
  accept hk ((hp.mono hle).map some) (pure (Nat.le_refl r))

/-- A token that is taken gains ten calls, unless it is the last one. -/
theorem expect (hk : k ≠ .eof) : Spares d r P (Parse.expect k) (r + 10) :=
  checked (next fun _ ht => ht ▸ hk) (fail (by simp))

theorem expectClosing (opener : Token) (hk : k ≠ .eof) :
    Spares d r P (Parse.expectClosing k opener) (r + 10) :=
  checked (next fun _ ht => ht ▸ hk) <|
    peek fun _ _ => ite (fun _ => fail (by simp)) fun _ => fail (by simp)

end

/-- What may be left out needs no more room than what is there. -/
theorem before (k : Kind) (a : α) {p : Parse α} (hp : Spares d r Any p r') (h : r' ≤ r) :
    Spares d r P (Parse.before k a p) r' :=
  check fun _ => ite (fun _ => pure h) fun _ => hp.weaken

theorem expectName : Spares d r P Parse.expectName (r + 10) := by
  refine peek fun t _ => ?_
  split
  · next x hx => exact (next fun u hu => by simp [hu, hx]).yields (by omega)
  · exact fail (by simp)

end

/-! ## 2. Names and targets -/

section
variable {P : Token → Prop}

/-- One call for every name, which is a token. -/
theorem names : ∀ (d : Nat) {r : Nat}, 1 ≤ r → Spares d r Any (Parse.names d) r
  | 0, _, hr => exhausted hr
  | d + 1, r + 1, _ => by
    refine call (expectName.bind fun _ => accept (by simp) ?_ (pure (by omega)))
    exact (names d (by omega)).yields (by omega)

theorem attribute? {d r : Nat} : Spares d r P Parse.attribute? r := by
  refine accept (by simp) (expectName.bind fun a => ?_) (pure (by omega))
  split
  · exact failAt (by simp)
  · exact (expect (by simp)).yields (by omega)

/-- One call for every name with its attribute. -/
theorem attributedNames : ∀ (d : Nat) {r : Nat}, 1 ≤ r →
    Spares d r Any (Parse.attributedNames d) r
  | 0, _, hr => exhausted hr
  | d + 1, r + 1, _ => by
    refine call (expectName.bind fun _ => attribute?.bind fun _ => ?_)
    refine accept (by simp) ?_ (pure (by omega))
    exact (attributedNames d (by omega)).yields (by omega)

/-- One call for every parameter. -/
theorem parameters (scope : Nat) : ∀ (d : Nat) {r : Nat}, 1 ≤ r →
    Spares d r Any (Parse.parameters scope d) r
  | 0, _, hr => exhausted hr
  | d + 1, r + 1, _ => by
    refine call (accept (by simp) (pure (by omega)) (expectName.bind fun x => ?_))
    refine onScopes.bind fun _ => accept (by simp) ?_ (pure (by omega))
    exact (parameters scope d (by omega)).yields (by omega)

/-- One call for every field after the name, which is two tokens. -/
theorem functionName : ∀ (d : Nat) (e : Expr) {r : Nat}, 1 ≤ r →
    Spares d r Any (Parse.functionName e d) r
  | 0, _, _, hr => exhausted hr
  | d + 1, e, r + 1, _ => by
    refine call (check fun method => check fun field => ite (fun hsign => ?_) fun _ => pure (by omega))
    refine (next ?_).bind fun _ => expectName.bind fun _ => ite (fun _ => pure (by omega)) fun _ => ?_
    · rintro t ⟨⟨-, rfl⟩, rfl⟩ heof
      simp [heof] at hsign
    · exact (functionName d _ (by omega)).mono (by omega)

theorem markWritten {d r : Nat} (n : Name) : Spares d r P (Parse.markWritten n) r := by
  intro s hs hP
  have hfail : Spares d r P (Parse.failAt n.pos (.constAssigned n.name) : Parse Unit) r :=
    failAt (by simp)
  have hget : (get : Parse ParseState) s = .ok (s, s) := rfl
  rw [Parse.markWritten, Parse.bind_eq hget]
  cases s.scopes.write? n with
  | some σ =>
    refine ⟨fun e he => ?_, ?_⟩
    · cases he
    · rintro _ _ ⟨⟩
      exact ⟨hs.ended, hs.room⟩
  | none => exact hfail s hs hP

theorem markTarget {d r : Nat} (e : Expr) : Spares d r P (Parse.markTarget e) r := by
  cases e with
  | name n => exact markWritten n
  | _ => exact pure (by omega)

/-- The targets have been read already, and checking them takes no token. -/
theorem checkTargets {d r : Nat} (first : Token) : ∀ es : List Expr,
    Spares d r Any (Parse.checkTargets first es) r
  | [] => pure (by omega)
  | .name n :: es => (markWritten n).bind fun _ => checkTargets first es
  | .index _ _ _ :: es => checkTargets first es
  | .nil _ :: _ | .boolean _ _ :: _ | .number _ _ _ :: _ | .string _ _ :: _ | .vararg _ :: _
  | .function _ _ :: _ | .table _ _ :: _ | .binary _ _ _ _ :: _ | .unary _ _ _ :: _ | .paren _ _ :: _
  | .call _ _ _ :: _ | .methodCall _ _ _ _ :: _ => failAt (by simp)

end

end Spares

/-! ## 3. The grammar -/

/-- The functions of the reader, with calls up to a depth, have room enough, and those that cannot come
to an end without a token gain the room of one. -/
structure Spared (d : Nat) : Prop where
  block : ∀ r, 7 ≤ r → Spares d r Any (Parse.block d) r
  statements : ∀ r, 6 ≤ r → Spares d r Any (Parse.statements d) r
  statement : ∀ r, 3 ≤ r → Spares d r Any (Parse.statement d) (r + 10)
  returnStat : ∀ r, 1 ≤ r → Spares d r (·.kind = .keyword .return) (Parse.returnStat d) (r + 10)
  clause : ∀ t r, 4 ≤ r → Spares d r Any (Parse.clause d t) r
  elseClauses : ∀ r, 1 ≤ r → Spares d r Any (Parse.elseClauses d) r
  forLoop : ∀ o r, 1 ≤ r → Spares d r Any (Parse.forLoop d o) r
  loopBody : ∀ o ns r, 1 ≤ r → Spares d r Any (Parse.loopBody d o ns) r
  localStat : ∀ o r, 2 ≤ r → Spares d r Any (Parse.localStat d o) r
  exprStat : ∀ r, 2 ≤ r → Spares d r Any (Parse.exprStat d) (r + 10)
  moreTargets : ∀ r, 1 ≤ r → Spares d r Any (Parse.moreTargets d) r
  funcBody : ∀ o m r, 1 ≤ r → Spares d r Any (Parse.funcBody d o m) r
  exprs : ∀ r, 4 ≤ r → Spares d r Any (Parse.exprs d) r
  expr : ∀ limit r, 3 ≤ r → Spares d r Any (Parse.expr d limit) (r + 10)
  operators : ∀ limit e r, 1 ≤ r → Spares d r Any (Parse.operators d limit e) r
  simpleExpr : ∀ r, 2 ≤ r → Spares d r Any (Parse.simpleExpr d) (r + 10)
  suffixedExpr : ∀ r, 1 ≤ r → Spares d r Any (Parse.suffixedExpr d) (r + 10)
  suffixes : ∀ e r, 3 ≤ r → Spares d r Any (Parse.suffixes d e) r
  callArgs : ∀ r, 2 ≤ r → Spares d r Any (Parse.callArgs d) (r + 10)
  table : ∀ r, 1 ≤ r → Spares d r Any (Parse.table d) (r + 10)
  fields : ∀ r, 5 ≤ r → Spares d r Any (Parse.fields d) r
  field : ∀ r, 4 ≤ r → Spares d r Any (Parse.field d) (r + 10)

section
variable {d r : Nat}

/-- A statement begins with a token that it takes, or with an expression that does. -/
theorem statement_spared (ih : Spared d) (hr : 2 ≤ r) :
    Spares d r Any (Parse.statement (d + 1)) (r + 10) := by
  rw [Parse.statement]
  refine .peek fun t _ => ?_
  split
  · next hk =>
    refine (Spares.taken hk (by simp)).bind fun o => (ih.clause o _ (by omega)).bind fun _ => ?_
    refine (ih.elseClauses _ (by omega)).bind fun _ => ?_
    refine (Spares.after? (by simp) (ih.block _ (by omega)) (by omega)).bind fun _ => ?_
    exact (Spares.expectClosing o (by simp)).yields (by omega)
  · next hk =>
    refine (Spares.taken hk (by simp)).bind fun o => (ih.expr 0 _ (by omega)).bind fun _ => ?_
    refine (Spares.expect (by simp)).bind fun _ => (ih.block _ (by omega)).bind fun _ => ?_
    exact (Spares.expectClosing o (by simp)).yields (by omega)
  · next hk =>
    refine (Spares.taken hk (by simp)).bind fun o => (ih.block _ (by omega)).bind fun _ => ?_
    exact (Spares.expectClosing o (by simp)).yields (by omega)
  · next hk =>
    exact (Spares.taken hk (by simp)).bind fun o => ih.forLoop o _ (by omega)
  · next hk =>
    refine (Spares.taken hk (by simp)).bind fun o => .peek fun _ _ => ?_
    have hbody := (ih.statements (r + 10) (by omega)).bind fun ss =>
      (Spares.expectClosing (k := .keyword .until) o (by simp)).bind fun _ =>
        (ih.expr 0 _ (by omega)).yields (f := fun cond => (ss, cond)) (Nat.le_refl _)
    exact hbody.inScope.yields (by omega)
  · next hk =>
    refine (Spares.taken hk (by simp)).bind fun o => Spares.expectName.bind fun x => ?_
    refine Spares.onScopes.bind fun root => (Spares.functionName d _ (by omega)).bind fun r => ?_
    exact (Spares.markTarget _).bind fun _ => (ih.funcBody o _ _ (by omega)).yields (by omega)
  · next hk =>
    exact (Spares.taken hk (by simp)).bind fun o => ih.localStat o _ (by omega)
  · next hk => exact (Spares.taken hk (by simp)).yields (by omega)
  · next hk =>
    exact (Spares.taken hk (by simp)).bind fun _ => Spares.expectName.yields (by omega)
  · next hk =>
    exact (Spares.taken hk (by simp)).bind fun _ => Spares.expectName.bind fun _ =>
      (Spares.expect (by simp)).yields (by omega)
  · exact (ih.exprStat r hr).weaken

/-- The word `for` is taken before, and the header takes more. -/
theorem forLoop_spared (ih : Spared d) (o : Token) : Spares d r Any (Parse.forLoop (d + 1) o) r := by
  rw [Parse.forLoop]
  refine Spares.expectName.bind fun x => Spares.onScopes.bind fun _ => Spares.accept (by simp) ?_ ?_
  · refine (ih.expr 0 _ (by omega)).bind fun _ => (Spares.expect (by simp)).bind fun _ => ?_
    refine (ih.expr 0 _ (by omega)).bind fun _ => ?_
    refine (Spares.after? (by simp) (ih.expr 0 _ (by omega)) (by omega)).bind fun _ => ?_
    exact Spares.onScopes.bind fun var => (ih.loopBody o [var] _ (by omega)).yields (by omega)
  · refine .check fun _ => .check fun _ => .ite (fun _ => ?_) fun _ => .fail (by simp)
    refine (Spares.after? (by simp) (Spares.names d (by omega)) (by omega)).bind fun _ => ?_
    refine (Spares.expect (by simp)).bind fun _ => (ih.exprs _ (by omega)).bind fun _ => ?_
    exact Spares.onScopes.bind fun ns => (ih.loopBody o ns _ (by omega)).yields (by omega)

theorem loopBody_spared (ih : Spared d) (o : Token) (ns : List Name) :
    Spares d r Any (Parse.loopBody (d + 1) o ns) r := by
  rw [Parse.loopBody]
  have hbody := Spares.onScopes.bind (d := d) (P := Any) (f := fun _ => Parse.block d)
    (p := Parse.activate ns) fun _ => ih.block (r + 10) (by omega)
  refine (Spares.expect (by simp)).bind fun _ => hbody.inScope.bind fun _ => ?_
  exact (Spares.expectClosing o (by simp)).yields (by omega)

theorem localStat_spared (ih : Spared d) (o : Token) (hr : 1 ≤ r) :
    Spares d r Any (Parse.localStat (d + 1) o) r := by
  rw [Parse.localStat]
  refine .checked ?_ ?_
  · refine (Spares.next fun t ht => by simp [ht]).bind fun word => ?_
    refine Spares.expectName.bind fun _ => Spares.onScopes.bind fun _ => Spares.onScopes.bind fun _ => ?_
    refine Spares.onScopes.bind fun _ => (ih.funcBody word _ _ (by omega)).yields (by omega)
  · refine Spares.onScopes.bind fun _ => (Spares.attributedNames d hr).bind fun _ => ?_
    refine (Spares.after? (by simp) (ih.exprs _ (by omega)) (by omega)).bind fun _ => ?_
    exact Spares.onScopes.bind fun _ => Spares.onScopes.yields (by omega)

/-- A statement without a word begins with an expression. -/
theorem exprStat_spared (ih : Spared d) (hr : 1 ≤ r) :
    Spares d r Any (Parse.exprStat (d + 1)) (r + 10) := by
  rw [Parse.exprStat]
  refine .peek fun first _ => (ih.suffixedExpr r hr).weaken.bind fun e => ?_
  refine .check fun _ => .check fun _ => .ite (fun _ => ?_) fun _ => ?_
  · refine (ih.moreTargets (r + 10) (by omega)).weaken.bind fun es => ?_
    refine (Spares.expect (by simp)).bind fun _ => (Spares.checkTargets first (e :: es)).bind fun _ => ?_
    exact (ih.exprs _ (by omega)).yields (by omega)
  · exact .ite (fun _ => .pure (by omega)) fun _ => .fail (by simp)

theorem funcBody_spared (ih : Spared d) (o : Token) (m : Bool) :
    Spares d r Any (Parse.funcBody (d + 1) o m) r := by
  rw [Parse.funcBody]
  refine (Spares.expect (by simp)).bind fun _ => Spares.onScopes.bind fun scope => ?_
  refine Spares.onScopes.bind fun self => ?_
  have hparams := Spares.parameters (r := r + 10) scope d (by omega)
  refine (Spares.before _ _ hparams (Nat.le_refl _)).bind fun params => ?_
  have hbody : Spares d (r + 10 + 10) Any (do
      Parse.onScopes fun σ => ((), σ.activateSelf self)
      Parse.activate params.1
      Parse.block d) (r + 10 + 10) :=
    Spares.onScopes.bind fun _ => Spares.onScopes.bind fun _ => ih.block _ (by omega)
  refine (Spares.expect (by simp)).bind fun _ => hbody.inScope.bind fun _ => ?_
  exact (Spares.expectClosing o (by simp)).yields (by omega)

/-- A simple expression is one token, or what stands behind one. -/
theorem simpleExpr_spared (ih : Spared d) (hr : 1 ≤ r) :
    Spares d r Any (Parse.simpleExpr (d + 1)) (r + 10) := by
  rw [Parse.simpleExpr]
  refine .peek fun t _ => ?_
  split
  · next hk => exact (Spares.taken hk (by simp)).yields (by omega)
  · next hk => exact (Spares.taken hk (by simp)).yields (by omega)
  · next hk => exact (Spares.taken hk (by simp)).yields (by omega)
  · next hk => exact (Spares.taken hk (by simp)).yields (by omega)
  · next hk => exact (Spares.taken hk (by simp)).yields (by omega)
  · next hk => exact (Spares.taken hk (by simp)).yields (by omega)
  · exact (ih.table r hr).weaken
  · next hk =>
    exact (Spares.taken hk (by simp)).bind fun _ => (ih.funcBody t _ _ (by omega)).yields (by omega)
  · exact (ih.suffixedExpr r hr).weaken

/-- An expression begins with a name or a parenthesis. -/
theorem suffixedExpr_spared (ih : Spared d) :
    Spares d r Any (Parse.suffixedExpr (d + 1)) (r + 10) := by
  rw [Parse.suffixedExpr]
  refine .peek fun t _ => ?_
  split
  · next hk =>
    exact (Spares.taken hk (by simp)).bind fun _ => Spares.onScopes.bind fun _ =>
      ih.suffixes _ _ (by omega)
  · next hk =>
    refine (Spares.taken hk (by simp)).bind fun _ => (ih.expr 0 _ (by omega)).bind fun _ => ?_
    exact (Spares.expectClosing t (by simp)).bind fun _ => (ih.suffixes _ _ (by omega)).mono (by omega)
  · exact .fail (by simp)

/-- Every suffix takes a token before it calls. -/
theorem suffixes_spared (ih : Spared d) (e : Expr) (hr : 2 ≤ r) :
    Spares d r Any (Parse.suffixes (d + 1) e) r := by
  have hcall := fun args =>
    (ih.suffixes (.call e.pos e args) (r + 10) (by omega)).mono (q := r) (by omega)
  rw [Parse.suffixes]
  refine .peek fun t _ => ?_
  split
  · next hk =>
    exact (Spares.taken hk (by simp)).bind fun _ => Spares.expectName.bind fun _ =>
      (ih.suffixes _ _ (by omega)).mono (by omega)
  · next hk =>
    refine (Spares.taken hk (by simp)).bind fun _ => (ih.expr 0 _ (by omega)).bind fun _ => ?_
    exact (Spares.expect (by simp)).bind fun _ => (ih.suffixes _ _ (by omega)).mono (by omega)
  · next hk =>
    refine (Spares.taken hk (by simp)).bind fun _ => Spares.expectName.bind fun _ => ?_
    exact (ih.callArgs _ (by omega)).bind fun _ => (ih.suffixes _ _ (by omega)).mono (by omega)
  · exact (ih.callArgs r hr).weaken.bind hcall
  · exact (ih.callArgs r hr).weaken.bind hcall
  · exact (ih.callArgs r hr).weaken.bind hcall
  · exact .pure (by omega)

/-- Arguments begin with a token of their own. -/
theorem callArgs_spared (ih : Spared d) (hr : 1 ≤ r) :
    Spares d r Any (Parse.callArgs (d + 1)) (r + 10) := by
  rw [Parse.callArgs]
  refine .peek fun t _ => ?_
  split
  · next hk => exact (Spares.taken hk (by simp)).yields (by omega)
  · exact (ih.table r hr).weaken.yields (by omega)
  · refine (Spares.expect (by simp)).bind fun o => ?_
    refine (Spares.before _ _ (ih.exprs _ (by omega)) (Nat.le_refl _)).bind fun _ => ?_
    exact (Spares.expectClosing o (by simp)).yields (by omega)

theorem field_spared (ih : Spared d) (hr : 3 ≤ r) :
    Spares d r Any (Parse.field (d + 1)) (r + 10) := by
  rw [Parse.field]
  refine .peek fun t _ => .peekNext fun u => ?_
  split
  · next _ hk =>
    refine (Spares.taken hk (by simp)).bind fun _ => (ih.expr 0 _ (by omega)).bind fun _ => ?_
    refine (Spares.expect (by simp)).bind fun _ => (Spares.expect (by simp)).bind fun _ => ?_
    exact (ih.expr 0 _ (by omega)).yields (by omega)
  · next hk _ =>
    refine (Spares.taken hk (by simp)).bind fun _ => Spares.skip.bind fun _ => ?_
    exact (ih.expr 0 _ (by omega)).yields (by omega)
  · exact (ih.expr 0 r hr).weaken.yields (by omega)

/-- An expression takes a token before its operators are read. -/
theorem expr_spared (ih : Spared d) (limit : Nat) (hr : 2 ≤ r) :
    Spares d r Any (Parse.expr (d + 1) limit) (r + 10) := by
  rw [Parse.expr]
  refine .peek fun t _ => ?_
  split
  · next op hop =>
    have ht : ∀ u, u = t → u.kind ≠ .eof := by
      rintro u rfl heof
      rw [heof] at hop
      cases hop
    refine (Spares.next ht).bind fun _ => (ih.expr _ _ (by omega)).bind fun e => ?_
    exact (ih.operators limit _ _ (by omega)).mono (by omega)
  · exact (ih.simpleExpr r hr).weaken.bind fun left => ih.operators limit left _ (by omega)

/-- An operator is a token, and gains the room for its operand. -/
theorem operators_spared (ih : Spared d) (limit : Nat) (left : Expr) :
    Spares d r Any (Parse.operators (d + 1) limit left) r := by
  rw [Parse.operators]
  refine .peek fun t _ => ?_
  split
  · exact .pure (by omega)
  · next op hop =>
    have ht : ∀ u, u = t → u.kind ≠ .eof := by
      rintro u rfl heof
      rw [heof] at hop
      cases hop
    refine .ite (fun _ => .pure (by omega)) fun _ => (Spares.next ht).bind fun _ => ?_
    exact (ih.expr _ _ (by omega)).bind fun right => (ih.operators limit _ _ (by omega)).mono (by omega)

/-- The word `return` is known to stand there, and gains the room for the values. -/
theorem returnStat_spared (ih : Spared d) :
    Spares d r (·.kind = .keyword .return) (Parse.returnStat (d + 1)) (r + 10) := by
  have hrest : ∀ (vs : List Expr) (t : Token), Spares d (r + 10) Any (do
      let _ ← Parse.accept (.symbol .semicolon)
      return Stmt.return t.pos vs) (r + 10) :=
    fun _ _ => Spares.acceptAny.yields (by omega)
  rw [Parse.returnStat]
  refine (Spares.next fun t ht => by simp [ht]).bind fun t => .blockFollow fun _ => .check fun _ => ?_
  refine .ite (fun _ => ?_) fun _ => ?_
  · exact (hrest [] _).weaken
  · exact (ih.exprs _ (by omega)).weaken.bind fun vs => hrest vs _

/-- **The reader has room enough,** with ten calls for every token. -/
theorem spared : ∀ d, Spared d
  | 0 => by constructor <;> intros <;> exact .exhausted (by omega)
  | d + 1 => by
    have ih := spared d
    exact {
      block := Spares.called 6 0 fun r hr => by
        rw [Parse.block]
        exact .peek fun _ _ => ((ih.statements r hr).inScope).yields (by omega)
      statements := Spares.called 5 0 fun r hr => by
        rw [Parse.statements]
        refine .blockFollow fun _ => .ite (fun _ => .pure (by omega)) fun _ => .checked ?_ ?_
        · exact (ih.returnStat r (by omega)).yields (by omega)
        · refine .accept (by simp) ((ih.statements _ (by omega)).mono (by omega)) ?_
          refine (ih.statement r (by omega)).bind fun _ => ?_
          exact (ih.statements _ (by omega)).yields (by omega)
      statement := Spares.called 2 10 fun r hr => statement_spared ih hr
      returnStat := Spares.called 0 10 fun r _ => returnStat_spared ih
      clause := fun t => Spares.called 3 0 fun r hr => by
        rw [Parse.clause]
        refine (ih.expr 0 r hr).bind fun _ => (Spares.expect (by simp)).bind fun _ => ?_
        exact (ih.block _ (by omega)).yields (by omega)
      elseClauses := Spares.called 0 0 fun r _ => by
        rw [Parse.elseClauses]
        refine .checked ((Spares.next fun t ht => by simp [ht]).bind fun t => ?_) (.pure (by omega))
        refine (ih.clause t _ (by omega)).bind fun _ => (ih.elseClauses _ (by omega)).yields (by omega)
      forLoop := fun o => Spares.called 0 0 fun r _ => forLoop_spared ih o
      loopBody := fun o ns => Spares.called 0 0 fun r _ => loopBody_spared ih o ns
      localStat := fun o => Spares.called 1 0 fun r hr => localStat_spared ih o hr
      exprStat := Spares.called 1 10 fun r hr => exprStat_spared ih hr
      moreTargets := Spares.called 0 0 fun r _ => by
        rw [Parse.moreTargets]
        refine .accept (by simp) ((ih.suffixedExpr _ (by omega)).bind fun _ => ?_) (.pure (by omega))
        exact (ih.moreTargets _ (by omega)).yields (by omega)
      funcBody := fun o m => Spares.called 0 0 fun r _ => funcBody_spared ih o m
      exprs := Spares.called 3 0 fun r hr => by
        rw [Parse.exprs]
        refine (ih.expr 0 r hr).bind fun _ => .accept (by simp) ?_ (.pure (by omega))
        exact (ih.exprs _ (by omega)).yields (by omega)
      expr := fun limit => Spares.called 2 10 fun r hr => expr_spared ih limit hr
      operators := fun limit left => Spares.called 0 0 fun r _ => operators_spared ih limit left
      simpleExpr := Spares.called 1 10 fun r hr => simpleExpr_spared ih hr
      suffixedExpr := Spares.called 0 10 fun r _ => suffixedExpr_spared ih
      suffixes := fun e => Spares.called 2 0 fun r hr => suffixes_spared ih e hr
      callArgs := Spares.called 1 10 fun r hr => callArgs_spared ih hr
      table := Spares.called 0 10 fun r _ => by
        rw [Parse.table]
        refine (Spares.expect (by simp)).bind fun o => (ih.fields _ (by omega)).bind fun _ => ?_
        exact (Spares.expectClosing o (by simp)).yields (by omega)
      fields := Spares.called 4 0 fun r hr => by
        rw [Parse.fields]
        refine .check fun _ => .ite (fun _ => .pure (by omega)) fun _ => ?_
        refine (ih.field r hr).weaken.bind fun _ => ?_
        refine Spares.acceptEither.bind fun _ => .ite (fun _ => ?_) fun _ => .pure (by omega)
        exact (ih.fields _ (by omega)).yields (by omega)
      field := Spares.called 3 10 fun r hr => field_spared ih hr }

end

/-- The reader does not refuse tokens for the depth of its calls. -/
theorem parseTokens_not_tooDeep {ts : List Token} (hended : Ended ts) {uri : Text} {e : SyntaxError}
    (h : parseTokens ts uri = .error e) : e.fault ≠ .tooDeep := by
  obtain ⟨t, us, rfl⟩ := List.exists_cons_of_ne_nil hended.ne_nil
  have hchunk : Spares (10 * (us.length + 2)) 20 Any (Parse.chunk (10 * (us.length + 2)) uri) 0 := by
    refine .peek fun _ _ => ((spared _).block 20 (by omega)).weaken.bind fun _ => ?_
    have hend : Spares (10 * (us.length + 2)) 20 Any (Parse.expect .eof) 20 :=
      .checked .skip (.fail (by simp))
    exact hend.bind fun _ s hs _ => ⟨by rintro _ ⟨⟩, by rintro _ _ ⟨⟩; exact hs.mono (Nat.zero_le _)⟩
  rw [parseTokens] at h
  split at h
  · cases h
  · next herror =>
    cases h
    exact (hchunk _ ⟨hended, by simp; omega⟩ trivial).1 e herror

/-! ## 4. Scanners -/

theorem codeEscape_not_tooDeep {cs : Text} {f : Fault} {n : Nat} (h : codeEscape cs = .error (f, n)) :
    f ≠ .tooDeep := by
  grind [codeEscape]

theorem escape_not_tooDeep {cs : Text} {f : Fault} {n : Nat} (h : escape cs = .error (f, n)) :
    f ≠ .tooDeep := by
  have hcode := @codeEscape_not_tooDeep
  cases cs <;> grind [escape]

theorem stringBody_not_tooDeep {quote : Code} {cs : Text} {f : Fault} {n : Nat}
    (h : stringBody quote cs = .error (.badEscape f, n)) : f ≠ .tooDeep := by
  have hescape := @escape_not_tooDeep
  fun_induction stringBody quote cs generalizing n <;> grind

/-- The scanners have no depth. -/
theorem lexeme_not_tooDeep {start : Pos} {c : Code} {rest : Text} {e : SyntaxError}
    (h : lexeme start c rest = .error e) : e.fault ≠ .tooDeep := by
  have hbody := @stringBody_not_tooDeep
  grind [lexeme]

theorem tokensFrom_not_tooDeep {pos : Pos} {cs : Text} {e : SyntaxError}
    (h : tokensFrom pos cs = .error e) : e.fault ≠ .tooDeep := by
  have hlexeme := @lexeme_not_tooDeep
  fun_induction tokensFrom pos cs <;> grind

/-- **A text is never refused for the depth of the calls of its reader.** -/
theorem parse_not_tooDeep {t uri : Text} {e : SyntaxError} (h : parse t uri = .error e) :
    e.fault ≠ .tooDeep := by
  rw [parse] at h
  split at h
  · next ts hts => exact parseTokens_not_tooDeep (tokenize_ended hts) h
  · next hlex =>
    cases h
    exact tokensFrom_not_tooDeep hlex

end LuaServer.Lua
