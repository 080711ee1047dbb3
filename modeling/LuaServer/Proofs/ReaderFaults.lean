/-
# Where and how the reader fails

A text is refused at one of its places, and the message shows nothing but literals, numerals and
stretches of the text, so that it can be shown if the text can.  For the scanners that is read off their
failures.  For the reader it is an invariant of its steps (`Keeps`): the tokens before it are tokens of
the text, and a step that fails does so at one of them (`Fair`).

Main result: `parse_error`.
-/
import LuaServer.Proofs.Places
import LuaServer.Proofs.ReaderSteps

namespace LuaServer.Lua

/-! ## 1. Messages -/

/-- The reader asks for fixed words and signs. -/
theorem clean_wanted : ∀ w : Wanted, Clean w.text
  | .name => clean_text _
  | .eof => clean_text _
  | .assignOrIn => clean_text _
  | .keyword k => clean_quoted.mpr (clean_text k.name)
  | .symbol s => clean_quoted.mpr (clean_text s.name)

/-- The texts that a message shows beside its own words. -/
def Fault.shows : Fault → List Text
  | .strayCode c => [[c]]
  | .malformedNumber near | .unfinishedString near | .expected _ near | .unexpectedSymbol near
  | .notAStatement near => [near]
  | .unknownEscape c => [c.toList]
  | .expectedToClose _ opener _ near => [opener, near]
  | .unknownAttribute name near => [name, near]
  | .constAssigned name => [name]
  | .unfinishedLong _ _ | .hexDigitExpected | .decimalEscapeTooLarge | .codeTooLarge
  | .unclosedCodeEscape | .tooDeep => []

/-- A message is made of fixed words and of what it shows. -/
theorem Fault.clean_message {f : Fault} (h : ∀ t ∈ f.shows, Clean t) : Clean f.message := by
  cases f <;> simp_all [shows, message, nearText, clean_wanted]

/-! ## 2. Steps of the reader -/

/-- The texts of a token can be shown. -/
structure Token.Shown (t : Token) : Prop where
  text : Clean t.text
  name : ∀ x, t.kind = .name x → Clean x

/-- A token as a message quotes it, which for the last one is a fixed word. -/
theorem Token.Shown.near {t : Token} (h : t.Shown) : Clean t.near := by
  rw [Token.near]
  split
  · exact clean_text _
  · exact h.text

/-- The value of a fixed word or sign. -/
theorem clean_value {t : Token} (h : (∃ k, t.kind = .keyword k) ∨ ∃ s, t.kind = .symbol s) :
    Clean t.value := by
  obtain ⟨k, hk⟩ | ⟨s, hs⟩ := h
  · rw [Token.value, hk]
    exact clean_text k.name
  · rw [Token.value, hs]
    exact clean_text s.name

/-- A fault at one of the tokens `ts`, with a message that can be shown if they can. -/
def Fair (ts : List Token) (e : SyntaxError) : Prop :=
  (∃ t ∈ ts, e.pos = t.pos) ∧ ((∀ t ∈ ts, t.Shown) → Clean e.fault.message)

/-- The reader stands before some of the tokens `ts`. -/
def Within (ts : List Token) (s : ParseState) : Prop := ∀ t ∈ s.tok :: s.rest, t ∈ ts

/-- A step that fails fairly, and else leaves the reader before some of the tokens.  `P` holds of the
current token before it, `Q` of its result. -/
def Keeps (ts : List Token) (P : Token → Prop) {α : Type} (p : Parse α) (Q : α → Prop) : Prop :=
  ∀ s, Within ts s → P s.tok →
    (∀ e, p s = .error e → Fair ts e) ∧ ∀ a s', p s = .ok (a, s') → Within ts s' ∧ Q a

/-- Anything. -/
def Any {α : Type} (_ : α) : Prop := True

section
variable {ts : List Token} {P : Token → Prop} {α β : Type} {Q : α → Prop} {R : β → Prop}

/-- The next token is one of the text. -/
theorem Within.advance {s : ParseState} (h : Within ts s) : Within ts s.advance := by
  rw [ParseState.advance]
  split
  · exact h
  · exact h
  · next hrest _ =>
    intro u hu
    refine h u (List.mem_cons_of_mem _ ?_)
    rw [hrest]
    exact hu

namespace Keeps

/-- Nothing is read. -/
theorem pure {a : α} (ha : Q a) : Keeps ts P (pure a : Parse α) Q := by
  refine fun s hs _ => ⟨by rintro _ ⟨⟩, ?_⟩
  rintro b s' ⟨⟩
  exact ⟨hs, ha⟩

/-- One step after another.  What the first one finds, the second may use; of the current token nothing is
kept. -/
theorem bind {p : Parse α} {f : α → Parse β} (hp : Keeps ts P p Q)
    (hf : ∀ a, Q a → Keeps ts Any (f a) R) : Keeps ts P (p >>= f) R := by
  intro s hs hP
  obtain ⟨herror, hok⟩ := hp s hs hP
  cases hrun : p s with
  | error e =>
    rw [Parse.bind_error hrun]
    refine ⟨?_, by rintro _ _ ⟨⟩⟩
    rintro _ ⟨⟩
    exact herror e hrun
  | ok r =>
    obtain ⟨hs', ha⟩ := hok r.1 r.2 hrun
    rw [Parse.bind_eq hrun]
    exact hf r.1 ha r.2 hs' trivial

/-- Less may be said of the result. -/
theorem mono {p : Parse α} {Q' : α → Prop} (hp : Keeps ts P p Q) (h : ∀ a, Q a → Q' a) :
    Keeps ts P p Q' :=
  fun s hs hP => ⟨(hp s hs hP).1, fun a s' hrun =>
    ⟨((hp s hs hP).2 a s' hrun).1, h a ((hp s hs hP).2 a s' hrun).2⟩⟩

theorem any {p : Parse α} (hp : Keeps ts P p Q) : Keeps ts P p Any := hp.mono fun _ _ => trivial

/-- More may be known of the current token. -/
theorem weaken {p : Parse α} (hp : Keeps ts Any p Q) : Keeps ts P p Q :=
  fun s hs _ => hp s hs trivial

/-- Either branch, under its condition. -/
theorem ite {c : Prop} [Decidable c] {p q : Parse α} (hp : c → Keeps ts P p Q)
    (hq : ¬c → Keeps ts P q Q) : Keeps ts P (if c then p else q) Q := by
  split
  · next h => exact hp h
  · next h => exact hq h

theorem map {p : Parse α} (f : α → β) (hp : Keeps ts P p Q) : Keeps ts P (f <$> p) Any := by
  rw [map_eq_pure_bind]
  exact hp.bind fun _ _ => pure trivial

/-- What is looked at is a token of the text, and stays the current one. -/
theorem peek {f : Token → Parse β} (hf : ∀ t ∈ ts, P t → Keeps ts (· = t) (f t) R) :
    Keeps ts P (Parse.peek >>= f) R := by
  intro s hs hP
  rw [Parse.peek_bind]
  exact hf s.tok (hs _ List.mem_cons_self) hP s hs rfl

/-- A look at the kind of the current token tells nothing about the text that was not known. -/
theorem check {k : Kind} {f : Bool → Parse β} (hf : ∀ b, Keeps ts P (f b) R) :
    Keeps ts P (Parse.check k >>= f) R := fun s hs hP => hf _ s hs hP

theorem blockFollow {f : Bool → Parse β} (hf : ∀ b, Keeps ts P (f b) R) :
    Keeps ts P (Parse.blockFollow >>= f) R := fun s hs hP => hf _ s hs hP

theorem peekNext {f : Token → Parse β} (hf : ∀ t, Keeps ts P (f t) R) :
    Keeps ts P (Parse.peekNext >>= f) R := fun s hs hP => hf _ s hs hP

/-- A check that decides what is taken. -/
theorem checked {k : Kind} {p q : Parse β} (hp : Keeps ts (fun t => P t ∧ t.kind = k) p R)
    (hq : Keeps ts P q R) :
    Keeps ts P (Parse.check k >>= fun b => if b = true then p else q) R := by
  intro s hs hP
  change (∀ e, (if decide (s.tok.kind = k) = true then p else q) s = .error e → _) ∧
    ∀ a s', (if decide (s.tok.kind = k) = true then p else q) s = .ok (a, s') → _
  by_cases hk : s.tok.kind = k
  · rw [decide_eq_true hk, if_pos rfl]
    exact hp s hs ⟨hP, hk⟩
  · rw [decide_eq_false hk, if_neg Bool.false_ne_true]
    exact hq s hs hP

/-- The token that is taken is one of the text. -/
theorem next : Keeps ts P Parse.next fun t => t ∈ ts ∧ P t := by
  refine fun s hs hP => ⟨by rintro _ ⟨⟩, ?_⟩
  rintro t s' ⟨⟩
  exact ⟨hs.advance, hs _ List.mem_cons_self, hP⟩

/-- What is done with the scopes does not fail, and reads nothing. -/
theorem onScopes {f : Scopes → α × Scopes} (hf : ∀ σ, Q (f σ).1) :
    Keeps ts P (Parse.onScopes f) Q := by
  refine fun s hs _ => ⟨by rintro _ ⟨⟩, ?_⟩
  rintro a s' ⟨⟩
  exact ⟨hs, hf s.scopes⟩

/-- A step that concerns variables only. -/
theorem anyScopes {f : Scopes → α × Scopes} : Keeps ts P (Parse.onScopes f) Any :=
  onScopes fun _ => trivial

/-- What is read in a scope of its own is read as anywhere else. -/
theorem inScope {p : Parse α} (hp : Keeps ts Any p Any) : Keeps ts P (Parse.inScope p) Any := by
  intro s hs hP
  have hhide : Keeps ts Any (Parse.onScopes fun σ => ((), { σ with active := s.scopes.active })) Any :=
    onScopes fun _ => trivial
  have hbody : Keeps ts Any (do
      let a ← p
      Parse.onScopes fun σ => ((), { σ with active := s.scopes.active })
      Pure.pure a : Parse α) Any :=
    hp.bind fun a _ => hhide.bind fun _ _ => pure trivial
  exact hbody s hs trivial

/-- A failure is fair at the place of a token, if its message can be shown where the tokens can. -/
theorem failAt {pos : Pos} {f : Fault} (hpos : ∃ t ∈ ts, pos = t.pos)
    (hf : (∀ t ∈ ts, t.Shown) → Clean f.message) :
    Keeps ts P (Parse.failAt pos f : Parse α) Q := by
  refine fun s hs _ => ⟨?_, by rintro _ _ ⟨⟩⟩
  rintro e ⟨⟩
  exact ⟨hpos, hf⟩

theorem accept (k : Kind) : Keeps ts P (Parse.accept k) Any :=
  check fun _ => ite (fun _ => next.bind fun _ _ => pure trivial) fun _ => pure trivial

theorem acceptEither (k l : Kind) : Keeps ts P (Parse.acceptEither k l) Any :=
  (accept k).bind fun _ _ => ite (fun _ => pure trivial) fun _ => accept l

theorem after? (k : Kind) {p : Parse α} (hp : Keeps ts Any p Q) :
    Keeps ts P (Parse.after? k p) Any :=
  (accept k).bind fun _ _ => ite (fun _ => hp.map some) fun _ => pure trivial

theorem before (k : Kind) (a : α) {p : Parse α} (hp : Keeps ts Any p Any) :
    Keeps ts P (Parse.before k a p) Any :=
  check fun _ => ite (fun _ => pure trivial) fun _ => hp.weaken

/-- A failure at the current token, which the message quotes. -/
theorem fail {f : Text → Fault} (hf : ∀ near, Clean near → Clean (f near).message) :
    Keeps ts P (Parse.fail f : Parse α) Q :=
  peek fun t ht _ => failAt ⟨t, ht, rfl⟩ fun hts => hf t.near (hts t ht).near

theorem tooDeep : Keeps ts P (Parse.tooDeep : Parse α) Q :=
  fail fun _ _ => Fault.clean_message (by simp [Fault.shows])

theorem failExpected (w : Wanted) : Keeps ts P (Parse.fail (.expected w) : Parse α) Q :=
  fail fun _ h => Fault.clean_message (by simpa [Fault.shows] using h)

/-- The token that is asked for is taken, or the failure stands at the one found instead. -/
theorem expect (k : Kind) : Keeps ts P (Parse.expect k) fun t => t ∈ ts ∧ t.kind = k :=
  checked (next.mono fun _ h => ⟨h.1, h.2.2⟩) (failExpected _)

/-- The message about a bracket that is not closed also shows the word that opened it. -/
theorem expectClosing (k : Kind) {opener : Token} (ho : Clean opener.value) :
    Keeps ts P (Parse.expectClosing k opener) Any := by
  refine check fun _ => ite (fun _ => next.any) fun _ => peek fun t ht _ => ite (fun _ => ?_) fun _ => ?_
  · exact fail fun _ h => Fault.clean_message (by simpa [Fault.shows] using ⟨ho, h⟩)
  · exact failExpected _

/-- An identifier that is taken was written by a token. -/
theorem expectName : Keeps ts P Parse.expectName fun x =>
    (∃ t ∈ ts, x.pos = t.pos) ∧ ((∀ t ∈ ts, t.Shown) → Clean x.name) := by
  refine peek fun t ht _ => ?_
  split
  · next x hx => exact next.bind fun _ _ => pure ⟨⟨t, ht, rfl⟩, fun hts => (hts t ht).name x hx⟩
  · exact failExpected _

/-! ## 3. Lists of names -/

/-- Names, each of them taken from a token. -/
theorem names : ∀ depth, Keeps ts Any (Parse.names depth) Any
  | 0 => tooDeep
  | depth + 1 => by
    refine expectName.bind fun _ _ => (accept _).bind fun _ _ => ite (fun _ => ?_) fun _ => ?_
    · exact (names depth).bind fun _ _ => pure trivial
    · exact pure trivial

theorem attribute? : Keeps ts P Parse.attribute? Any := by
  refine (accept _).bind fun _ _ => ite (fun _ => ?_) fun _ => pure trivial
  refine expectName.bind fun a ha => ?_
  split
  · exact failAt ha.1 fun hts => Fault.clean_message (by simpa [Fault.shows] using ha.2 hts)
  · exact (expect _).bind fun _ _ => pure trivial

theorem attributedNames : ∀ depth, Keeps ts Any (Parse.attributedNames depth) Any
  | 0 => tooDeep
  | depth + 1 => by
    refine expectName.bind fun _ _ => attribute?.bind fun _ _ => ?_
    refine (accept _).bind fun _ _ => ite (fun _ => ?_) fun _ => pure trivial
    exact (attributedNames depth).bind fun _ _ => pure trivial

/-- Parameters are declared on the way, which does not fail. -/
theorem parameters (scope : Nat) : ∀ depth, Keeps ts Any (Parse.parameters scope depth) Any
  | 0 => tooDeep
  | depth + 1 => by
    refine (accept _).bind fun _ _ => ite (fun _ => pure trivial) fun _ => ?_
    refine expectName.bind fun x _ => anyScopes.bind fun _ _ => ?_
    refine (accept _).bind fun _ _ => ite (fun _ => ?_) fun _ => pure trivial
    exact (parameters scope depth).bind fun _ _ => pure trivial

/-! ## 4. Targets -/

end Keeps

/-- An expression of which, if it is a variable, the name stands at a token and can be shown if the
tokens can. -/
def Targeted (ts : List Token) (e : Expr) : Prop :=
  ∀ n, e = .name n → (∃ t ∈ ts, n.pos = t.pos) ∧ ((∀ t ∈ ts, t.Shown) → Clean n.name)

/-- What is no variable has no name to be blamed. -/
theorem Targeted.other {e : Expr} (he : ∀ n, e ≠ .name n) : Targeted ts e :=
  fun n hn => absurd hn (he n)

namespace Keeps

/-- A store to a constant is refused at the token of the name. -/
theorem markWritten {n : Name} (hn : Targeted ts (.name n)) :
    Keeps ts P (Parse.markWritten n) Any := by
  obtain ⟨hpos, hname⟩ := hn n rfl
  intro s hs hP
  have hfail : Keeps ts P (Parse.failAt n.pos (.constAssigned n.name) : Parse Unit) Any :=
    failAt hpos fun hts => Fault.clean_message (by simpa [Fault.shows] using hname hts)
  have hget : (get : Parse ParseState) s = .ok (s, s) := rfl
  rw [Parse.markWritten, Parse.bind_eq hget]
  cases s.scopes.write? n with
  | some σ =>
    refine ⟨fun e he => ?_, ?_⟩
    · cases he
    · rintro _ _ ⟨⟩
      exact ⟨hs, trivial⟩
  | none => exact hfail s hs hP

/-- Only a variable can be a constant. -/
theorem markTarget {e : Expr} (he : Targeted ts e) : Keeps ts P (Parse.markTarget e) Any := by
  cases e with
  | name n => exact markWritten he
  | _ => exact pure trivial

/-- An identifier that is looked up keeps its name and its place. -/
theorem reference {x : Ident}
    (hx : (∃ t ∈ ts, x.pos = t.pos) ∧ ((∀ t ∈ ts, t.Shown) → Clean x.name)) :
    Keeps ts P (Parse.onScopes (·.reference x)) fun n => Targeted ts (.name n) := by
  refine onScopes fun σ => ?_
  rintro n hn
  cases hn
  exact hx

/-- The name of a function statement is a variable or a field. -/
theorem functionName : ∀ depth {e : Expr}, Targeted ts e →
    Keeps ts Any (Parse.functionName e depth) fun r => Targeted ts r.1
  | 0, _, _ => tooDeep
  | depth + 1, e, he => by
    refine check fun _ => check fun _ => ite (fun _ => ?_) fun _ => pure he
    refine next.bind fun _ _ => expectName.bind fun _ _ => ?_
    refine ite (fun _ => pure (.other (by simp))) fun _ => ?_
    exact functionName depth (.other (by simp))

/-- A target that nothing can be stored to is refused at the first token of the statement. -/
theorem checkTargets {first : Token} (hfirst : first ∈ ts) : ∀ es : List Expr,
    (∀ e ∈ es, Targeted ts e) → Keeps ts Any (Parse.checkTargets first es) Any
  | [], _ => pure trivial
  | .name n :: es, h =>
    (markWritten (h _ List.mem_cons_self)).bind fun _ _ =>
      checkTargets hfirst es fun e he => h e (List.mem_cons_of_mem _ he)
  | .index _ _ _ :: es, h => checkTargets hfirst es fun e he => h e (List.mem_cons_of_mem _ he)
  | .nil _ :: _, _ | .boolean _ _ :: _, _ | .number _ _ _ :: _, _ | .string _ _ :: _, _
  | .vararg _ :: _, _ | .function _ _ :: _, _ | .table _ _ :: _, _ | .binary _ _ _ _ :: _, _
  | .unary _ _ _ :: _, _ | .paren _ _ :: _, _ | .call _ _ _ :: _, _ | .methodCall _ _ _ _ :: _, _ =>
    failAt ⟨first, hfirst, rfl⟩ fun hts =>
      Fault.clean_message (by simpa [Fault.shows] using (hts first hfirst).near)

end Keeps

/-! ## 5. The grammar -/

/-- The functions of the reader, with calls up to a depth, keep to the tokens. -/
structure Kept (ts : List Token) (depth : Nat) : Prop where
  block : Keeps ts Any (Parse.block depth) Any
  statements : Keeps ts Any (Parse.statements depth) Any
  statement : Keeps ts Any (Parse.statement depth) Any
  returnStat : Keeps ts Any (Parse.returnStat depth) Any
  clause : ∀ t, Keeps ts Any (Parse.clause depth t) Any
  elseClauses : Keeps ts Any (Parse.elseClauses depth) Any
  forLoop : ∀ {o : Token}, Clean o.value → Keeps ts Any (Parse.forLoop depth o) Any
  loopBody : ∀ {o : Token} ns, Clean o.value → Keeps ts Any (Parse.loopBody depth o ns) Any
  localStat : ∀ o, Keeps ts Any (Parse.localStat depth o) Any
  exprStat : Keeps ts Any (Parse.exprStat depth) Any
  moreTargets : Keeps ts Any (Parse.moreTargets depth) fun es => ∀ e ∈ es, Targeted ts e
  funcBody : ∀ {o : Token} m, Clean o.value → Keeps ts Any (Parse.funcBody depth o m) Any
  exprs : Keeps ts Any (Parse.exprs depth) Any
  expr : ∀ limit, Keeps ts Any (Parse.expr depth limit) Any
  operators : ∀ limit e, Keeps ts Any (Parse.operators depth limit e) Any
  simpleExpr : Keeps ts Any (Parse.simpleExpr depth) Any
  suffixedExpr : Keeps ts Any (Parse.suffixedExpr depth) (Targeted ts)
  suffixes : ∀ {e : Expr}, Targeted ts e → Keeps ts Any (Parse.suffixes depth e) (Targeted ts)
  callArgs : Keeps ts Any (Parse.callArgs depth) Any
  table : Keeps ts Any (Parse.table depth) Any
  fields : Keeps ts Any (Parse.fields depth) Any
  field : Keeps ts Any (Parse.field depth) Any

section
variable {depth : Nat}

theorem statement_kept (ih : Kept ts depth) : Keeps ts Any (Parse.statement (depth + 1)) Any := by
  rw [Parse.statement]
  refine Keeps.peek fun t _ _ => ?_
  split
  · next hk =>
    refine Keeps.next.bind fun o ho => (ih.clause o).bind fun _ _ => ih.elseClauses.bind fun _ _ => ?_
    have ho : Clean o.value := clean_value (.inl ⟨_, ho.2 ▸ hk⟩)
    refine (Keeps.after? _ ih.block).bind fun _ _ => (Keeps.expectClosing _ ho).bind fun _ _ => ?_
    exact .pure trivial
  · next hk =>
    refine Keeps.next.bind fun o ho => (ih.expr 0).bind fun _ _ => (Keeps.expect _).bind fun _ _ => ?_
    have ho : Clean o.value := clean_value (.inl ⟨_, ho.2 ▸ hk⟩)
    exact ih.block.bind fun _ _ => (Keeps.expectClosing _ ho).bind fun _ _ => .pure trivial
  · next hk =>
    refine Keeps.next.bind fun o ho => ih.block.bind fun _ _ => ?_
    have ho : Clean o.value := clean_value (.inl ⟨_, ho.2 ▸ hk⟩)
    exact (Keeps.expectClosing _ ho).bind fun _ _ => .pure trivial
  · next hk =>
    refine Keeps.next.bind fun o ho => ih.forLoop (clean_value (.inl ⟨_, ho.2 ▸ hk⟩))
  · next hk =>
    refine Keeps.next.bind fun o ho => Keeps.peek fun _ _ _ => (Keeps.inScope ?_).bind fun _ _ => ?_
    · have ho : Clean o.value := clean_value (.inl ⟨_, ho.2 ▸ hk⟩)
      exact ih.statements.bind fun _ _ => (Keeps.expectClosing _ ho).bind fun _ _ =>
        (ih.expr 0).bind fun _ _ => .pure trivial
    · exact .pure trivial
  · next hk =>
    refine Keeps.next.bind fun o ho => Keeps.expectName.bind fun x hx => ?_
    refine (Keeps.reference hx).bind fun n hn => (Keeps.functionName depth hn).bind fun r hr => ?_
    have ho : Clean o.value := clean_value (.inl ⟨_, ho.2 ▸ hk⟩)
    refine (Keeps.markTarget hr).bind fun _ _ => (ih.funcBody _ ho).bind fun _ _ => .pure trivial
  · exact Keeps.next.bind fun o _ => ih.localStat o
  · exact Keeps.next.bind fun _ _ => .pure trivial
  · exact Keeps.next.bind fun _ _ => Keeps.expectName.bind fun _ _ => .pure trivial
  · exact Keeps.next.bind fun _ _ => Keeps.expectName.bind fun _ _ =>
      (Keeps.expect _).bind fun _ _ => .pure trivial
  · exact ih.exprStat.weaken

theorem forLoop_kept (ih : Kept ts depth) {o : Token} (ho : Clean o.value) :
    Keeps ts Any (Parse.forLoop (depth + 1) o) Any := by
  rw [Parse.forLoop]
  refine Keeps.expectName.bind fun x _ => Keeps.anyScopes.bind fun _ _ => ?_
  refine (Keeps.accept _).bind fun _ _ => .ite (fun _ => ?_) fun _ => ?_
  · refine (ih.expr 0).bind fun _ _ => (Keeps.expect _).bind fun _ _ => (ih.expr 0).bind fun _ _ => ?_
    refine (Keeps.after? _ (ih.expr 0)).bind fun _ _ => Keeps.anyScopes.bind fun _ _ => ?_
    exact (ih.loopBody _ ho).bind fun _ _ => .pure trivial
  · refine Keeps.check fun _ => Keeps.check fun _ => .ite (fun _ => ?_) fun _ => Keeps.failExpected _
    refine (Keeps.after? _ (Keeps.names depth)).bind fun _ _ => (Keeps.expect _).bind fun _ _ => ?_
    refine ih.exprs.bind fun _ _ => Keeps.anyScopes.bind fun _ _ => ?_
    exact (ih.loopBody _ ho).bind fun _ _ => .pure trivial

theorem loopBody_kept (ih : Kept ts depth) {o : Token} (ns : List Name) (ho : Clean o.value) :
    Keeps ts Any (Parse.loopBody (depth + 1) o ns) Any := by
  rw [Parse.loopBody]
  refine (Keeps.expect _).bind fun _ _ => (Keeps.inScope ?_).bind fun _ _ => ?_
  · exact Keeps.anyScopes.bind fun _ _ => ih.block
  · exact (Keeps.expectClosing _ ho).bind fun _ _ => .pure trivial

theorem localStat_kept (ih : Kept ts depth) (o : Token) :
    Keeps ts Any (Parse.localStat (depth + 1) o) Any := by
  rw [Parse.localStat]
  refine Keeps.checked ?_ ?_
  · refine Keeps.next.bind fun word hword => Keeps.expectName.bind fun _ _ => ?_
    refine Keeps.anyScopes.bind fun _ _ => Keeps.anyScopes.bind fun _ _ => ?_
    have hword : Clean word.value := clean_value (.inl ⟨_, hword.2.2⟩)
    exact Keeps.anyScopes.bind fun _ _ => (ih.funcBody _ hword).bind fun _ _ => .pure trivial
  · refine Keeps.anyScopes.bind fun _ _ => (Keeps.attributedNames depth).bind fun _ _ => ?_
    refine (Keeps.after? _ ih.exprs).bind fun _ _ => Keeps.anyScopes.bind fun _ _ => ?_
    exact Keeps.anyScopes.bind fun _ _ => .pure trivial

theorem exprStat_kept (ih : Kept ts depth) : Keeps ts Any (Parse.exprStat (depth + 1)) Any := by
  rw [Parse.exprStat]
  refine Keeps.peek fun first hfirst _ => ih.suffixedExpr.weaken.bind fun e he => ?_
  refine Keeps.check fun _ => Keeps.check fun _ => .ite (fun _ => ?_) fun _ => .ite (fun _ => ?_) fun _ => ?_
  · refine ih.moreTargets.bind fun es hes => (Keeps.expect _).bind fun _ _ => ?_
    have htargets := Keeps.checkTargets hfirst (e :: es) (List.forall_mem_cons.mpr ⟨he, hes⟩)
    exact htargets.bind fun _ _ => ih.exprs.bind fun _ _ => .pure trivial
  · exact .pure trivial
  · exact Keeps.fail fun _ h => Fault.clean_message (by simpa [Fault.shows] using h)

theorem funcBody_kept (ih : Kept ts depth) {o : Token} (m : Bool) (ho : Clean o.value) :
    Keeps ts Any (Parse.funcBody (depth + 1) o m) Any := by
  rw [Parse.funcBody]
  refine (Keeps.expect _).bind fun _ _ => Keeps.anyScopes.bind fun scope _ => ?_
  refine Keeps.anyScopes.bind fun _ _ => ?_
  refine (Keeps.before _ _ (Keeps.parameters scope depth)).bind fun _ _ => ?_
  refine (Keeps.expect _).bind fun _ _ => (Keeps.inScope ?_).bind fun _ _ => ?_
  · exact Keeps.anyScopes.bind fun _ _ => Keeps.anyScopes.bind fun _ _ => ih.block
  · exact (Keeps.expectClosing _ ho).bind fun _ _ => .pure trivial

theorem simpleExpr_kept (ih : Kept ts depth) : Keeps ts Any (Parse.simpleExpr (depth + 1)) Any := by
  rw [Parse.simpleExpr]
  refine Keeps.peek fun t _ _ => ?_
  split
  · exact Keeps.next.bind fun _ _ => .pure trivial
  · exact Keeps.next.bind fun _ _ => .pure trivial
  · exact Keeps.next.bind fun _ _ => .pure trivial
  · exact Keeps.next.bind fun _ _ => .pure trivial
  · exact Keeps.next.bind fun _ _ => .pure trivial
  · exact Keeps.next.bind fun _ _ => .pure trivial
  · exact ih.table.weaken
  · next hk =>
    have ht : Clean t.value := clean_value (.inl ⟨_, hk⟩)
    exact Keeps.next.bind fun _ _ => (ih.funcBody _ ht).bind fun _ _ => .pure trivial
  · exact ih.suffixedExpr.any.weaken

/-- An expression with suffixes is a variable only if it is its first token alone. -/
theorem suffixedExpr_kept (ih : Kept ts depth) :
    Keeps ts Any (Parse.suffixedExpr (depth + 1)) (Targeted ts) := by
  rw [Parse.suffixedExpr]
  refine Keeps.peek fun t ht _ => ?_
  split
  · next x hx =>
    refine Keeps.next.bind fun _ _ => ?_
    exact (Keeps.reference ⟨⟨t, ht, rfl⟩, fun hts => (hts t ht).name x hx⟩).bind fun _ hn => ih.suffixes hn
  · next hk =>
    have ht : Clean t.value := clean_value (.inr ⟨_, hk⟩)
    refine Keeps.next.bind fun _ _ => (ih.expr 0).bind fun _ _ => ?_
    exact (Keeps.expectClosing _ ht).bind fun _ _ => ih.suffixes (.other (by simp))
  · exact Keeps.fail fun _ h => Fault.clean_message (by simpa [Fault.shows] using h)

/-- What something is applied to is no variable any more. -/
theorem suffixes_kept (ih : Kept ts depth) {e : Expr} (he : Targeted ts e) :
    Keeps ts Any (Parse.suffixes (depth + 1) e) (Targeted ts) := by
  rw [Parse.suffixes]
  refine Keeps.peek fun t _ _ => ?_
  split
  · exact Keeps.next.bind fun _ _ => Keeps.expectName.bind fun _ _ => ih.suffixes (.other (by simp))
  · refine Keeps.next.bind fun _ _ => (ih.expr 0).bind fun _ _ => ?_
    exact (Keeps.expect _).bind fun _ _ => ih.suffixes (.other (by simp))
  · refine Keeps.next.bind fun _ _ => Keeps.expectName.bind fun _ _ => ?_
    exact ih.callArgs.bind fun _ _ => ih.suffixes (.other (by simp))
  · exact ih.callArgs.weaken.bind fun _ _ => ih.suffixes (.other (by simp))
  · exact ih.callArgs.weaken.bind fun _ _ => ih.suffixes (.other (by simp))
  · exact ih.callArgs.weaken.bind fun _ _ => ih.suffixes (.other (by simp))
  · exact .pure he

theorem callArgs_kept (ih : Kept ts depth) : Keeps ts Any (Parse.callArgs (depth + 1)) Any := by
  rw [Parse.callArgs]
  refine Keeps.peek fun t _ _ => ?_
  split
  · exact Keeps.next.bind fun _ _ => .pure trivial
  · exact ih.table.weaken.bind fun _ _ => .pure trivial
  · refine (Keeps.expect _).bind fun o ho => (Keeps.before _ _ ih.exprs).bind fun _ _ => ?_
    have ho : Clean o.value := clean_value (.inr ⟨_, ho.2⟩)
    exact (Keeps.expectClosing _ ho).bind fun _ _ => .pure trivial

theorem field_kept (ih : Kept ts depth) : Keeps ts Any (Parse.field (depth + 1)) Any := by
  rw [Parse.field]
  refine Keeps.peek fun t _ _ => Keeps.peekNext fun _ => ?_
  split
  · refine Keeps.next.bind fun _ _ => (ih.expr 0).bind fun _ _ => (Keeps.expect _).bind fun _ _ => ?_
    exact (Keeps.expect _).bind fun _ _ => (ih.expr 0).bind fun _ _ => .pure trivial
  · refine Keeps.next.bind fun _ _ => Keeps.next.bind fun _ _ => ?_
    exact (ih.expr 0).bind fun _ _ => .pure trivial
  · exact (ih.expr 0).weaken.bind fun _ _ => .pure trivial

/-- **The reader keeps to the tokens.** -/
theorem kept : ∀ depth, Kept ts depth
  | 0 => by constructor <;> intros <;> exact Keeps.tooDeep
  | depth + 1 => by
    have ih := kept depth
    exact {
      block := by
        rw [Parse.block]
        exact Keeps.peek fun _ _ _ => (Keeps.inScope ih.statements).bind fun _ _ => .pure trivial
      statements := by
        rw [Parse.statements]
        refine Keeps.blockFollow fun _ => .ite (fun _ => .pure trivial) fun _ => ?_
        refine Keeps.check fun _ => .ite (fun _ => ?_) fun _ => ?_
        · exact ih.returnStat.bind fun _ _ => .pure trivial
        · refine (Keeps.accept _).bind fun _ _ => .ite (fun _ => ih.statements) fun _ => ?_
          exact ih.statement.bind fun _ _ => ih.statements.bind fun _ _ => .pure trivial
      statement := statement_kept ih
      returnStat := by
        rw [Parse.returnStat]
        refine Keeps.next.bind fun _ _ => Keeps.blockFollow fun _ => Keeps.check fun _ => ?_
        have hrest : ∀ (vs : List Expr) (t : Token), Keeps ts Any (do
            let _ ← Parse.accept (.symbol .semicolon)
            return Stmt.return t.pos vs) Any :=
          fun _ _ => (Keeps.accept _).bind fun _ _ => .pure trivial
        refine .ite (fun _ => ?_) fun _ => ?_
        · exact hrest [] _
        · exact ih.exprs.bind fun vs _ => hrest vs _
      clause := by
        intro t
        rw [Parse.clause]
        refine (ih.expr 0).bind fun _ _ => (Keeps.expect _).bind fun _ _ => ?_
        exact ih.block.bind fun _ _ => .pure trivial
      elseClauses := by
        rw [Parse.elseClauses]
        refine Keeps.check fun _ => .ite (fun _ => ?_) fun _ => .pure trivial
        refine Keeps.next.bind fun t _ => (ih.clause t).bind fun _ _ => ?_
        exact ih.elseClauses.bind fun _ _ => .pure trivial
      forLoop := forLoop_kept ih
      loopBody := loopBody_kept ih
      localStat := localStat_kept ih
      exprStat := exprStat_kept ih
      moreTargets := by
        rw [Parse.moreTargets]
        refine (Keeps.accept _).bind fun _ _ => .ite (fun _ => ?_) fun _ => .pure (by simp)
        refine ih.suffixedExpr.bind fun _ he => ih.moreTargets.bind fun _ hes => ?_
        exact .pure (List.forall_mem_cons.mpr ⟨he, hes⟩)
      funcBody := funcBody_kept ih
      exprs := by
        rw [Parse.exprs]
        refine (ih.expr 0).bind fun _ _ => (Keeps.accept _).bind fun _ _ => .ite (fun _ => ?_) fun _ => ?_
        · exact ih.exprs.bind fun _ _ => .pure trivial
        · exact .pure trivial
      expr := by
        intro limit
        rw [Parse.expr]
        refine Keeps.peek fun t _ _ => ?_
        split
        · exact Keeps.next.bind fun _ _ => (ih.expr _).bind fun _ _ => ih.operators _ _
        · exact ih.simpleExpr.weaken.bind fun _ _ => ih.operators _ _
      operators := by
        intro limit e
        rw [Parse.operators]
        refine Keeps.peek fun t _ _ => ?_
        split
        · exact .pure trivial
        · refine .ite (fun _ => .pure trivial) fun _ => ?_
          exact Keeps.next.bind fun _ _ => (ih.expr _).bind fun _ _ => ih.operators _ _
      simpleExpr := simpleExpr_kept ih
      suffixedExpr := suffixedExpr_kept ih
      suffixes := suffixes_kept ih
      callArgs := callArgs_kept ih
      table := by
        rw [Parse.table]
        refine (Keeps.expect _).bind fun o ho => ih.fields.bind fun _ _ => ?_
        have ho : Clean o.value := clean_value (.inr ⟨_, ho.2⟩)
        exact (Keeps.expectClosing _ ho).bind fun _ _ => .pure trivial
      fields := by
        rw [Parse.fields]
        refine Keeps.check fun _ => .ite (fun _ => .pure trivial) fun _ => ih.field.weaken.bind fun _ _ => ?_
        refine (Keeps.acceptEither _ _).bind fun _ _ => .ite (fun _ => ?_) fun _ => .pure trivial
        exact ih.fields.bind fun _ _ => .pure trivial
      field := field_kept ih }

end

end

/-! ## 6. Scanners -/

/-- The messages about a code in braces show nothing of the text. -/
theorem codeEscape_fault {cs : Text} {f : Fault} {n : Nat} (h : codeEscape cs = .error (f, n)) :
    f.shows = [] := by
  rw [codeEscape] at h
  split at h
  · cases h
    rfl
  · split at h
    · cases h
      rfl
    · split at h
      · cases h
      · cases h
        rfl

/-- The message about an escape shows at most the character after the backslash. -/
theorem escape_fault {cs : Text} (hcs : Clean cs) {f : Fault} {n : Nat}
    (h : escape cs = .error (f, n)) : Clean f.message := by
  have hnothing : f.shows = [] → Clean f.message := fun hf => Fault.clean_message (by simp [hf])
  rw [escape.eq_def] at h
  split at h
  · cases h
    exact Fault.clean_message (by simp [Fault.shows])
  · next c rest =>
    split at h
    · cases h
    · split at h
      · cases h
      · split at h
        · dsimp only at h
          split at h
          · cases h
          · cases h
            exact hnothing rfl
        · split at h
          · dsimp only at h
            split at h
            · cases h
              exact hnothing rfl
            · cases h
          · split at h
            · split at h
              · cases h
              · next herror =>
                cases h
                exact hnothing (codeEscape_fault herror)
            · cases h
              exact Fault.clean_message (by simpa [Fault.shows] using (clean_cons.mp hcs).1)

/-- The same for the first bad escape of a string. -/
theorem stringBody_fault {quote : Code} {cs : Text} (hcs : Clean cs) {f : Fault} {n : Nat}
    (h : stringBody quote cs = .error (.badEscape f, n)) : Clean f.message := by
  fun_induction stringBody quote cs generalizing n with
  | case1 => cases h
  | case2 => cases h
  | case3 => cases h
  | case4 rest f' m herror _ _ =>
    cases h
    exact escape_fault (clean_cons.mp hcs).2 herror
  | case5 => cases h
  | case6 rest v k hescape g m hrest _ _ ih =>
    cases h
    exact ih ((clean_cons.mp hcs).2.drop k) hrest
  | case7 => cases h
  | case8 c rest _ _ _ g m hrest ih =>
    cases h
    exact ih (clean_cons.mp hcs).2 hrest

/-- A scanner of tokens fails at its start or inside the text. -/
theorem lexeme_fault {start : Pos} {c : Code} {rest : Text} {e : SyntaxError}
    (h : lexeme start c rest = .error e) :
    (∃ n, e.pos = start.advance ((c :: rest).take n)) ∧
      (Clean (c :: rest) → Clean e.fault.message) := by
  have hstart : ∃ n, start = start.advance ((c :: rest).take n) := ⟨0, rfl⟩
  rw [lexeme] at h
  split at h
  · cases h
  · split at h
    · dsimp only at h
      split at h
      · cases h
      · cases h
        refine ⟨hstart, fun hclean => Fault.clean_message ?_⟩
        simpa [Fault.shows] using hclean.take _
    · split at h
      · split at h
        · cases h
        · next n _ =>
          cases h
          refine ⟨hstart, fun hclean => Fault.clean_message ?_⟩
          have hshown := hclean.take (n + 1)
          simpa [Fault.shows] using hshown
        · next f n herror =>
          cases h
          exact ⟨⟨n + 1, rfl⟩, fun hclean => stringBody_fault (clean_cons.mp hclean).2 herror⟩
      · split at h
        · split at h
          · cases h
          · cases h
            refine ⟨⟨(c :: rest).length, by rw [List.take_length]⟩, fun _ => ?_⟩
            exact Fault.clean_message (by simp [Fault.shows])
        · split at h
          · cases h
          · cases h
            refine ⟨hstart, fun hclean => Fault.clean_message ?_⟩
            simpa [Fault.shows] using (clean_cons.mp hclean).1

/-- A text is refused inside it, with a message that shows parts of it. -/
theorem tokensFrom_fault {pos : Pos} {cs : Text} {e : SyntaxError}
    (h : tokensFrom pos cs = .error e) :
    (∃ k, e.pos = pos.advance (cs.take k)) ∧ (Clean cs → Clean e.fault.message) := by
  fun_induction tokensFrom pos cs with
  | case1 pos cs k hgap =>
    cases h
    exact ⟨⟨cs.length, by rw [List.take_length]⟩, fun _ => Fault.clean_message (by simp [Fault.shows])⟩
  | case2 => cases h
  | case3 pos cs k hgap start c rest hdrop e' hlexeme =>
    cases h
    obtain ⟨⟨n, hpos⟩, hmessage⟩ := lexeme_fault hlexeme
    refine ⟨⟨k + n, ?_⟩, fun hclean => hmessage (hdrop ▸ hclean.drop k)⟩
    rw [hpos, List.take_add, hdrop, Pos.advance_append]
  | case4 pos cs k hgap start c rest hdrop kind n hlexeme taken e' herror ih =>
    cases h
    obtain ⟨⟨m, hpos⟩, hmessage⟩ := ih herror
    have hrest : cs.drop (k + (n + 1)) = rest.drop n := by
      rw [← List.drop_drop, hdrop]
      rfl
    refine ⟨⟨k + (n + 1) + m, ?_⟩, fun hclean => hmessage (hrest ▸ hclean.drop _)⟩
    rw [hpos, List.take_add, hrest, List.take_add, hdrop, Pos.advance_append, Pos.advance_append]
    rfl
  | case5 => cases h

/-- Tokens are refused at one of them. -/
theorem parseTokens_fault {ts : List Token} (hne : ts ≠ []) {uri : Text} {e : SyntaxError}
    (h : parseTokens ts uri = .error e) : Fair ts e := by
  obtain ⟨t, us, rfl⟩ := List.exists_cons_of_ne_nil hne
  have hchunk : Keeps (t :: us) Any (Parse.chunk (10 * (us.length + 2)) uri) Any := by
    refine Keeps.peek fun _ _ _ => (kept _).block.weaken.bind fun _ _ => ?_
    refine (Keeps.expect _).bind fun _ _ => ?_
    exact fun s hs _ => ⟨by rintro _ ⟨⟩, by rintro _ _ ⟨⟩; exact ⟨hs, trivial⟩⟩
  rw [parseTokens] at h
  split at h
  · cases h
  · next herror =>
    cases h
    exact (hchunk _ (fun _ ht => ht) trivial).1 e herror

/-- **A text is refused at one of its places,** and the message can be shown if the text can. -/
theorem parse_error {t uri : Text} {e : SyntaxError} (h : parse t uri = .error e) :
    (∃ k, e.pos = placeAt t k) ∧ (Clean t → Clean e.fault.message) := by
  rw [parse] at h
  split at h
  · next ts hts =>
    have hlex := tokensFrom_iff.mp hts
    have hshown : Clean t → ∀ k ∈ ts, k.Shown := by
      intro ht k hk
      obtain ⟨o, hin⟩ := hlex.located k hk
      have htext := ht.subset hin.subset
      refine ⟨htext, ?_⟩
      intro x hx
      obtain ⟨heq, -⟩ := hlex.name_text k hk x hx
      exact heq ▸ htext
    obtain ⟨⟨k, hk, hpos⟩, hmessage⟩ := parseTokens_fault (tokenize_ended hts).ne_nil h
    obtain ⟨o, hin⟩ := hlex.located k hk
    exact ⟨⟨o, hpos.trans hin.pos⟩, hmessage ∘ hshown⟩
  · next hlex =>
    cases h
    exact tokensFrom_fault hlex

end LuaServer.Lua
