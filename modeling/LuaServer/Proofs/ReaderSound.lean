/-
# What the reader reads

Every successful run of the reader is a derivation in the grammar (`Reads`), and its effect on the
variables is the one that the tree alone determines (`bindBlock` and its companions).  The functions of
the reader call one another with a bound on the depth that goes down by one at each call, so the proof is
one induction on that bound: `Sound d` collects what is known of each function at the bound `d`, and each
lemma below goes from `Sound d` to one function at `d + 1`.

Main result: `parseTokens_sound`.
-/
import LuaServer.Proofs.ReaderSteps

namespace LuaServer.Lua

open Parse

/-! ## 1. Lists of names -/

namespace Scopes

/-- A declaration keeps the name and its place. -/
theorem ident_declare (x : Ident) (kind : BindingKind) (scope : Nat) (a : Option Attrib)
    (σ : Scopes) : (σ.declare x kind scope a).1.ident = x := rfl

/-- A name that a look-up gave is found again. -/
theorem useName_reference (x : Ident) (σ : Scopes) :
    σ.useName (σ.reference x).1 = some (σ.reference x).2 := by
  have hx : (σ.reference x).1.ident = x := rfl
  rw [useName, hx, if_pos rfl]

/-- Declaring identifiers gives names that, declared again, are given their own numbers. -/
theorem declareAll_spec (kind : BindingKind) (scope : Nat) :
    ∀ (xs : List (Ident × Option Attrib)) (σ : Scopes),
      (declareAll kind scope xs σ).1.map Name.ident = xs.map (·.1) ∧
      σ.declareNames kind scope ((declareAll kind scope xs σ).1.zip (xs.map (·.2)))
        = some (declareAll kind scope xs σ).2
  | [], σ => ⟨rfl, rfl⟩
  | (x, a) :: xs, σ => by
    obtain ⟨ih₁, ih₂⟩ := declareAll_spec kind scope xs (σ.declare x kind scope a).2
    refine ⟨?_, ?_⟩
    · simp only [declareAll, List.map_cons, ih₁, ident_declare]
    · simp only [declareAll, List.map_cons, List.zip_cons_cons, declareNames, ident_declare,
        if_true]
      exact ih₂

end Scopes

/-- A name of the tree is written by the token from which it was taken. -/
theorem Token.writes_of_ident {v : Token} {n : Name} {x : Text} (hv : v.kind = .name x)
    (hn : n.ident = ⟨x, v.pos⟩) : v.writes n := by
  obtain ⟨p, y, id⟩ := n
  cases hn
  exact ⟨hv, rfl⟩

/-- Names with no attributes, paired with that many times nothing. -/
theorem zip_none_eq_bare (ns : List Name) :
    ∀ xs : List Ident, ns.map Name.ident = xs →
      ns.zip (xs.map fun _ => (none : Option Attrib)) = bare ns := by
  intro xs h
  subst h
  induction ns with
  | nil => rfl
  | cons n ns ih => simpa [bare] using ih

/-- Names that were read stand separated by commas, whatever bindings they get later. -/
theorem names_sound : ∀ {d : Nat} {ts : List Token} {σ : Scopes} {xs : List Ident}
    {s' : ParseState}, Ended ts → names d (stateAt ts σ) = .ok (xs, s') →
    ∃ next, s' = stateAt next σ ∧ Ended next ∧
      ∀ ns : List Name, ns.map Name.ident = xs → ∃ ms, Names ns ts ms next
  | 0, _, _, _, _, _, h => absurd h tooDeep_ne
  | d + 1, ts, σ, xs, s', hE, h => by
    rw [names] at h
    obtain ⟨v, ts₁, x, rfl, hv, hE₁, h⟩ := of_expectName hE h
    obtain ⟨y, ts₂, rfl, hy, hE₂, h⟩ | ⟨hy, h⟩ := of_accept hE₁ (by simp) h
    · obtain ⟨xs', s₁, h₁, h⟩ := of_bind h
      obtain ⟨rfl, rfl⟩ := of_pure h
      obtain ⟨next, rfl, hE', hns⟩ := names_sound hE₂ h₁
      refine ⟨next, rfl, hE', ?_⟩
      intro ns hns'
      obtain ⟨n, ns, rfl, hn, hrest⟩ := List.map_eq_cons_iff.mp hns'
      obtain ⟨ms, hms⟩ := hns ns hrest
      have hw := Token.writes_of_ident hv hn
      exact ⟨_, .cons hw hy hms⟩
    · obtain ⟨rfl, rfl⟩ := of_pure h
      refine ⟨ts₁, rfl, hE₁, ?_⟩
      intro ns hns'
      obtain ⟨n, ns, rfl, hn, hrest⟩ := List.map_eq_cons_iff.mp hns'
      obtain rfl := List.map_eq_nil_iff.mp hrest
      have hw := Token.writes_of_ident hv hn
      exact ⟨_, .last hw hy⟩

/-- An attribute that was read is one of those that there are, between its signs. -/
theorem attribute_sound {ts : List Token} {σ : Scopes} {a : Option Attrib} {s' : ParseState}
    (hE : Ended ts) (h : attribute? (stateAt ts σ) = .ok (a, s')) :
    ∃ ms next, s' = stateAt next σ ∧ Ended next ∧ Attributes a ts ms next := by
  rw [attribute?] at h
  obtain ⟨t, ts₁, rfl, ht, hE₁, h⟩ | ⟨ht, h⟩ := of_accept hE (by simp) h
  · obtain ⟨w, ts₂, x, rfl, hw, hE₂, h⟩ := of_expectName hE₁ h
    cases ha : Attrib.ofText? x with
    | none =>
      simp only [ha] at h
      exact absurd h failAt_ne
    | some b =>
      simp only [ha] at h
      obtain ⟨z, ts₃, rfl, hz, hE₃, h⟩ := of_expect hE₂ (by simp) h
      obtain ⟨rfl, rfl⟩ := of_pure h
      exact ⟨_, ts₃, rfl, hE₃, .present ht hw ha hz⟩
  · obtain ⟨rfl, rfl⟩ := of_pure h
    exact ⟨_, ts, rfl, hE, .absent ht⟩

/-- Names with attributes that were read, before any of them is declared. -/
theorem attributedNames_sound : ∀ {d : Nat} {ts : List Token} {σ : Scopes}
    {xs : List (Ident × Option Attrib)} {s' : ParseState}, Ended ts →
    attributedNames d (stateAt ts σ) = .ok (xs, s') →
    ∃ next, s' = stateAt next σ ∧ Ended next ∧
      ∀ ns : List Name, ns.map Name.ident = xs.map (·.1) →
        ∃ ms, Locals (ns.zip (xs.map (·.2))) ts ms next
  | 0, _, _, _, _, _, h => absurd h tooDeep_ne
  | d + 1, ts, σ, xs, s', hE, h => by
    rw [attributedNames] at h
    obtain ⟨v, ts₁, x, rfl, hv, hE₁, h⟩ := of_expectName hE h
    obtain ⟨a, s₁, h₁, h⟩ := of_bind h
    obtain ⟨m₁, ts₂, rfl, hE₂, ha⟩ := attribute_sound hE₁ h₁
    obtain ⟨y, ts₃, rfl, hy, hE₃, h⟩ | ⟨hy, h⟩ := of_accept hE₂ (by simp) h
    · obtain ⟨xs', s₂, h₂, h⟩ := of_bind h
      obtain ⟨rfl, rfl⟩ := of_pure h
      obtain ⟨next, rfl, hE', hns⟩ := attributedNames_sound hE₃ h₂
      refine ⟨next, rfl, hE', ?_⟩
      intro ns hns'
      obtain ⟨n, ns, rfl, hn, hrest⟩ := List.map_eq_cons_iff.mp hns'
      obtain ⟨ms, hms⟩ := hns ns hrest
      have hw := Token.writes_of_ident hv hn
      exact ⟨_, .cons hw ha hy hms⟩
    · obtain ⟨rfl, rfl⟩ := of_pure h
      refine ⟨ts₂, rfl, hE₂, ?_⟩
      intro ns hns'
      obtain ⟨n, ns, rfl, hn, hrest⟩ := List.map_eq_cons_iff.mp hns'
      obtain rfl := List.map_eq_nil_iff.mp hrest
      have hw := Token.writes_of_ident hv hn
      exact ⟨_, .last hw ha hy⟩

/-- Parameters that were read were declared on the way, in their order. -/
theorem parameters_sound (scope : Nat) : ∀ {d : Nat} {ts : List Token} {σ : Scopes}
    {ns : List Name} {more : Bool} {s' : ParseState}, Ended ts →
    parameters scope d (stateAt ts σ) = .ok ((ns, more), s') →
    ∃ ms next τ, s' = stateAt next τ ∧ Ended next ∧ Params ns more ts ms next ∧
      σ.declareNames .param scope (bare ns) = some τ
  | 0, _, _, _, _, _, _, h => absurd h tooDeep_ne
  | d + 1, ts, σ, ns, more, s', hE, h => by
    rw [parameters] at h
    obtain ⟨t, ts₁, rfl, ht, hE₁, h⟩ | ⟨ht, h⟩ := of_accept hE (by simp) h
    · obtain ⟨heq, rfl⟩ := of_pure h
      cases heq
      exact ⟨_, ts₁, σ, rfl, hE₁, .ellipsis ht, rfl⟩
    · obtain ⟨v, ts₁, x, rfl, hv, hE₁, h⟩ := of_expectName hE h
      rw [onScopes_bind] at h
      obtain ⟨y, ts₂, rfl, hy, hE₂, h⟩ | ⟨hy, h⟩ := of_accept hE₁ (by simp) h
      · obtain ⟨⟨ns', more'⟩, s₁, h₁, h⟩ := of_bind h
        obtain ⟨heq, rfl⟩ := of_pure h
        cases heq
        obtain ⟨ms, next, τ, rfl, hE', hp, hb⟩ := parameters_sound scope hE₂ h₁
        refine ⟨_, next, τ, rfl, hE', .cons ⟨hv, rfl⟩ hy hp, ?_⟩
        simpa [bare, Scopes.declareNames, Scopes.ident_declare] using hb
      · obtain ⟨heq, rfl⟩ := of_pure h
        cases heq
        refine ⟨_, ts₁, _, rfl, hE₁, .last ⟨hv, rfl⟩ hy, ?_⟩
        simp [bare, Scopes.declareNames, Scopes.ident_declare]

/-- The fields that were read after the name of a function statement. -/
theorem functionName_sound : ∀ {d : Nat} {e r : Expr} {m : Bool} {ts : List Token} {σ : Scopes}
    {s' : ParseState}, Ended ts → functionName e d (stateAt ts σ) = .ok ((r, m), s') →
    ∃ ms next, s' = stateAt next σ ∧ Ended next ∧ Path e r m ts ms next
  | 0, _, _, _, _, _, _, _, h => absurd h tooDeep_ne
  | d + 1, e, r, m, ts, σ, s', hE, h => by
    rw [functionName, check_bind, check_bind] at h
    obtain ⟨t, ts₁, rfl⟩ := List.exists_cons_of_ne_nil hE.ne_nil
    rw [kindOf_cons] at h
    by_cases hm : t.kind = .symbol .colon
    · simp only [hm, decide_true, Bool.true_or, if_true] at h
      obtain ⟨hE₁, h⟩ := of_next hE (by simp [hm]) h
      obtain ⟨k, ts₂, x, rfl, hk, hE₂, h⟩ := of_expectName hE₁ h
      obtain ⟨heq, rfl⟩ := of_pure h
      cases heq
      exact ⟨_, ts₂, rfl, hE₂, .method hm hk⟩
    · by_cases hd : t.kind = .symbol .dot
      · simp only [hd, decide_true, Bool.or_true, if_true] at h
        obtain ⟨hE₁, h⟩ := of_next hE (by simp [hd]) h
        obtain ⟨k, ts₂, x, rfl, hk, hE₂, h⟩ := of_expectName hE₁ h
        simp only [reduceCtorEq, decide_false, Bool.false_eq_true, if_false, Kind.symbol.injEq] at h
        obtain ⟨ms, next, rfl, hE', hp⟩ := functionName_sound hE₂ h
        exact ⟨_, next, rfl, hE', .field hd hk hp⟩
      · simp only [hm, hd, decide_false, Bool.or_self, Bool.false_eq_true, if_false] at h
        obtain ⟨heq, rfl⟩ := of_pure h
        cases heq
        exact ⟨_, t :: ts₁, rfl, hE, .done hm hd⟩

/-- The fields of a function's name are constants, so they do nothing to the variables. -/
theorem Path.bindExpr_eq {e r : Expr} {m : Bool} {ts next : List Token} {ms : List Mark}
    (h : Path e r m ts ms next) (σ : Scopes) : bindExpr r σ = bindExpr e σ := by
  induction h with
  | done => rfl
  | method => simp [bindExpr]
  | field _ _ _ ih => rw [ih]; simp [bindExpr]

/-- The name of a function statement is a plain name or a field. -/
theorem Path.name_or_index {e r : Expr} {m : Bool} {ts next : List Token} {ms : List Mark}
    (h : Path e r m ts ms next) : r = e ∨ ∃ p o k, r = .index p o k := by
  induction h with
  | done => exact .inl rfl
  | method => exact .inr ⟨_, _, _, rfl⟩
  | field _ _ _ ih =>
    rcases ih with rfl | h
    · exact .inr ⟨_, _, _, rfl⟩
    · exact .inr h

/-- If the reader went on, all targets can be stored to, and the stores were counted. -/
theorem checkTargets_sound {first : Token} {ts : List Token} : ∀ {es : List Expr} {σ : Scopes}
    {u : Unit} {s' : ParseState}, checkTargets first es (stateAt ts σ) = .ok (u, s') →
    ∃ τ, s' = stateAt ts τ ∧ σ.writeTargets es = some τ ∧ es.all Expr.assignable = true
  | [], σ, _, _, h => by
    obtain ⟨-, rfl⟩ := of_pure h
    exact ⟨σ, rfl, rfl, rfl⟩
  | e :: es, σ, _, s', h => by
    cases e with
    | name n =>
      rw [checkTargets] at h
      obtain ⟨_, s₁, h₁, h⟩ := of_bind h
      obtain ⟨τ₁, hw, rfl⟩ := of_markWritten h₁
      obtain ⟨τ, rfl, hτ, hall⟩ := checkTargets_sound h
      exact ⟨τ, rfl, by simp [Scopes.writeTargets, hw, hτ], by simpa [Expr.assignable] using hall⟩
    | index p o k =>
      rw [checkTargets] at h
      obtain ⟨τ, rfl, hτ, hall⟩ := checkTargets_sound h
      exact ⟨τ, rfl, by simp [Scopes.writeTargets, hτ], by simpa [Expr.assignable] using hall⟩
    | _ =>
      simp only [checkTargets] at h
      exact absurd h failAt_ne

/-! ## 2. What is known of every function of the reader -/

/-- The reader went from before `ts` to a place after `item`, with the given effect on the variables. -/
def Outcome (item : Item) (bind : Scopes → Option Scopes) (ts : List Token) (σ : Scopes)
    (s' : ParseState) : Prop :=
  ∃ ms next τ, s' = stateAt next τ ∧ Ended next ∧ Reads item ts ms next ∧ bind σ = some τ

/-- The reader went on from an expression `left`, whose effect led to `σ`, to a larger one. -/
def Continuation (item : Item) (left e : Expr) (ts : List Token) (σ : Scopes) (s' : ParseState) :
    Prop :=
  ∃ ms next τ, s' = stateAt next τ ∧ Ended next ∧ Reads item ts ms next ∧
    ∀ ρ, bindExpr left ρ = some σ → bindExpr e ρ = some τ

/-- What the functions of the reader do when they succeed, at a bound on the depth. -/
structure Sound (d : Nat) : Prop where
  block {ts σ b s'} : Ended ts → block d (stateAt ts σ) = .ok (b, s') →
    Outcome (.block b) (bindBlock b) ts σ s'
  statements {ts σ ss s'} : Ended ts → statements d (stateAt ts σ) = .ok (ss, s') →
    Outcome (.stmts ss) (bindStmts ss) ts σ s'
  statement {ts σ s s'} : Ended ts → statement d (stateAt ts σ) = .ok (s, s') →
    Outcome (.stmt s) (bindStmt s) ts σ s'
  returnStat {t ts σ s s'} : Ended (t :: ts) → t.kind = .keyword .return →
    returnStat d (stateAt (t :: ts) σ) = .ok (s, s') →
    Outcome (.stmts [s]) (bindStmts [s]) (t :: ts) σ s'
  clause {o ts σ c s'} : Ended ts → clause d o (stateAt ts σ) = .ok (c, s') →
    (∃ e b, c = .mk o.pos e b) ∧ Outcome (.clause c) (bindClause c) ts σ s'
  elseClauses {ts σ cs s'} : Ended ts → elseClauses d (stateAt ts σ) = .ok (cs, s') →
    Outcome (.elses cs) (bindClauses cs) ts σ s'
  forLoop {o ts σ s s'} : Ended ts → o.kind = .keyword .for →
    forLoop d o (stateAt ts σ) = .ok (s, s') → Outcome (.stmt s) (bindStmt s) (o :: ts) σ s'
  loopBody {o ns ts σ b s'} : Ended ts → loopBody d o ns (stateAt ts σ) = .ok (b, s') →
    ∃ y ts₁ ms z next τ, ts = y :: ts₁ ∧ y.kind = .keyword .do ∧ z.kind = .keyword .end ∧
      s' = stateAt next τ ∧ Ended next ∧ Reads (.block b) ts₁ ms (z :: next) ∧
      (bindBlock b (σ.activate ns)).map σ.hide = some τ
  localStat {o ts σ s s'} : Ended ts → o.kind = .keyword .local →
    localStat d o (stateAt ts σ) = .ok (s, s') → Outcome (.stmt s) (bindStmt s) (o :: ts) σ s'
  exprStat {ts σ s s'} : Ended ts → exprStat d (stateAt ts σ) = .ok (s, s') →
    Outcome (.stmt s) (bindStmt s) ts σ s'
  moreTargets {ts σ es s'} : Ended ts → moreTargets d (stateAt ts σ) = .ok (es, s') →
    Outcome (.targets es) (bindExprs es) ts σ s'
  funcBody {o m ts σ f s'} : Ended ts → funcBody d o m (stateAt ts σ) = .ok (f, s') →
    Outcome (.func f) (bindFunc m f) ts σ s'
  exprs {ts σ es s'} : Ended ts → exprs d (stateAt ts σ) = .ok (es, s') →
    Outcome (.exprs es) (bindExprs es) ts σ s'
  expr {limit ts σ e s'} : Ended ts → expr d limit (stateAt ts σ) = .ok (e, s') →
    Outcome (.expr limit e) (bindExpr e) ts σ s'
  operators {limit l ts σ e s'} : Ended ts → operators d limit l (stateAt ts σ) = .ok (e, s') →
    Continuation (.operators limit l e) l e ts σ s'
  simpleExpr {ts σ e s'} : Ended ts → simpleExpr d (stateAt ts σ) = .ok (e, s') →
    Outcome (.simple e) (bindExpr e) ts σ s'
  suffixedExpr {ts σ e s'} : Ended ts → suffixedExpr d (stateAt ts σ) = .ok (e, s') →
    Outcome (.suffixed e) (bindExpr e) ts σ s'
  suffixes {h ts σ e s'} : Ended ts → suffixes d h (stateAt ts σ) = .ok (e, s') →
    Continuation (.suffixes h e) h e ts σ s'
  callArgs {ts σ es s'} : Ended ts → callArgs d (stateAt ts σ) = .ok (es, s') →
    Outcome (.args es) (bindExprs es) ts σ s'
  table {ts σ e s'} : Ended ts → table d (stateAt ts σ) = .ok (e, s') →
    Outcome (.table e) (bindExpr e) ts σ s'
  fields {ts σ fs s'} : Ended ts → fields d (stateAt ts σ) = .ok (fs, s') →
    Outcome (.fields fs) (bindFields fs) ts σ s'
  field {ts σ f s'} : Ended ts → field d (stateAt ts σ) = .ok (f, s') →
    Outcome (.field f) (bindField f) ts σ s'

namespace Sound

variable {d : Nat}

/-! ## 3. Blocks and their parts -/

/-- A block hides at its end what it declared. -/
theorem block_succ (ih : Sound d) {ts : List Token} {σ : Scopes} {b : Block} {s' : ParseState}
    (hE : Ended ts) (h : Parse.block (d + 1) (stateAt ts σ) = .ok (b, s')) :
    Outcome (.block b) (bindBlock b) ts σ s' := by
  obtain ⟨t, ts, rfl⟩ := List.exists_cons_of_ne_nil hE.ne_nil
  rw [Parse.block, peek_bind] at h
  obtain ⟨ss, s₁, h₁, h⟩ := of_bind h
  obtain ⟨rfl, rfl⟩ := of_pure h
  obtain ⟨s₂, h₂, rfl⟩ := of_inScope h₁
  obtain ⟨ms, next, τ, rfl, hE', hr, hb⟩ := ih.statements hE h₂
  refine ⟨ms, next, σ.hide τ, ?_, hE', .block hr, ?_⟩
  · rw [stateAt_scopes, stateAt_scopes, stateAt_with_scopes]
  · rw [bindBlock, hb]
    rfl

/-- A `return` with or without values, and the sign that may end it. -/
theorem returnStat_succ (ih : Sound d) {t : Token} {ts : List Token} {σ : Scopes} {s : Stmt}
    {s' : ParseState} (hE : Ended (t :: ts)) (ht : t.kind = .keyword .return)
    (h : Parse.returnStat (d + 1) (stateAt (t :: ts) σ) = .ok (s, s')) :
    Outcome (.stmts [s]) (bindStmts [s]) (t :: ts) σ s' := by
  rw [Parse.returnStat] at h
  obtain ⟨hE₁, h⟩ := of_next hE (by simp [ht]) h
  rw [blockFollow_bind, check_bind] at h
  by_cases hdone : endsBlock (kindOf ts) = true ∨ kindOf ts = .symbol .semicolon
  · have hcond : (endsBlock (kindOf ts) || decide (kindOf ts = .symbol .semicolon)) = true := by
      simpa using hdone
    rw [if_pos hcond, bind_eq (pure_eq _ _)] at h
    obtain ⟨z, next, rfl, hz, hE', h⟩ | ⟨hz, h⟩ := of_accept hE₁ (by simp) h
    · obtain ⟨rfl, rfl⟩ := of_pure h
      exact ⟨_, next, σ, rfl, hE', .returnNone ht hdone (.present hz), rfl⟩
    · obtain ⟨rfl, rfl⟩ := of_pure h
      exact ⟨_, ts, σ, rfl, hE₁, .returnNone ht hdone (.absent hz), rfl⟩
  · obtain ⟨hend, hsemi⟩ := not_or.mp hdone
    have hcond : ¬ (endsBlock (kindOf ts) || decide (kindOf ts = .symbol .semicolon)) = true := by
      simpa using hdone
    rw [if_neg hcond] at h
    obtain ⟨vs, s₁, h₁, h⟩ := of_bind h
    obtain ⟨m₁, ts₁, τ, rfl, hE₂, hr, hb⟩ := ih.exprs hE₁ h₁
    have hbind : bindStmts [.return t.pos vs] σ = some τ := by rw [bindStmts_return, hb]
    have hend' := Bool.eq_false_iff.mpr hend
    obtain ⟨z, next, rfl, hz, hE', h⟩ | ⟨hz, h⟩ := of_accept hE₂ (by simp) h
    · obtain ⟨rfl, rfl⟩ := of_pure h
      exact ⟨_, next, τ, rfl, hE', .returnSome ht hend' hsemi hr (.present hz), hbind⟩
    · obtain ⟨rfl, rfl⟩ := of_pure h
      exact ⟨_, ts₁, τ, rfl, hE₂, .returnSome ht hend' hsemi hr (.absent hz), hbind⟩

/-- Statements up to a token that ends the block, or up to a `return`. -/
theorem statements_succ (ih : Sound d) {ts : List Token} {σ : Scopes} {ss : List Stmt}
    {s' : ParseState} (hE : Ended ts)
    (h : Parse.statements (d + 1) (stateAt ts σ) = .ok (ss, s')) :
    Outcome (.stmts ss) (bindStmts ss) ts σ s' := by
  rw [Parse.statements, blockFollow_bind] at h
  by_cases hend : endsBlock (kindOf ts) = true
  · rw [if_pos hend] at h
    obtain ⟨rfl, rfl⟩ := of_pure h
    exact ⟨[], ts, σ, rfl, hE, .stmtsEnd hend, rfl⟩
  rw [if_neg hend, check_bind] at h
  by_cases hret : kindOf ts = .keyword .return
  · rw [decide_eq_true hret, if_pos rfl] at h
    obtain ⟨t, ts, rfl⟩ := List.exists_cons_of_ne_nil hE.ne_nil
    obtain ⟨s, s₁, h₁, h⟩ := of_bind h
    obtain ⟨rfl, rfl⟩ := of_pure h
    exact ih.returnStat hE hret h₁
  rw [decide_eq_false hret, if_neg Bool.false_ne_true] at h
  obtain ⟨t, ts₁, rfl, ht, hE₁, h⟩ | ⟨hsemi, h⟩ := of_accept hE (by simp) h
  · obtain ⟨ms, next, τ, rfl, hE', hr, hb⟩ := ih.statements hE₁ h
    exact ⟨_, next, τ, rfl, hE', .stmtsSkip ht hr, hb⟩
  · rw [if_neg Bool.false_ne_true] at h
    obtain ⟨s, s₁, h₁, h⟩ := of_bind h
    obtain ⟨m₁, ts₁, τ₁, rfl, hE₁, hr₁, hb₁⟩ := ih.statement hE h₁
    obtain ⟨rest, s₂, h₂, h⟩ := of_bind h
    obtain ⟨rfl, rfl⟩ := of_pure h
    obtain ⟨m₂, next, τ, rfl, hE', hr₂, hb₂⟩ := ih.statements hE₁ h₂
    refine ⟨_, next, τ, rfl, hE', .stmtsCons ⟨?_, hret, hsemi⟩ hr₁ hr₂, ?_⟩
    · exact Bool.eq_false_iff.mpr hend
    · simp [bindStmts, hb₁, hb₂]

/-- A clause stands at the place that the reader was given for it. -/
theorem clause_succ (ih : Sound d) {o : Token} {ts : List Token} {σ : Scopes} {c : IfClause}
    {s' : ParseState} (hE : Ended ts) (h : Parse.clause (d + 1) o (stateAt ts σ) = .ok (c, s')) :
    (∃ e b, c = .mk o.pos e b) ∧ Outcome (.clause c) (bindClause c) ts σ s' := by
  rw [Parse.clause] at h
  obtain ⟨e, s₁, h₁, h⟩ := of_bind h
  obtain ⟨m₁, ts₁, τ₁, rfl, hE₁, hr₁, hb₁⟩ := ih.expr hE h₁
  obtain ⟨y, ts₂, rfl, hy, hE₂, h⟩ := of_expect hE₁ (by simp) h
  obtain ⟨b, s₂, h₂, h⟩ := of_bind h
  obtain ⟨rfl, rfl⟩ := of_pure h
  obtain ⟨m₂, next, τ, rfl, hE', hr₂, hb₂⟩ := ih.block hE₂ h₂
  refine ⟨⟨e, b, rfl⟩, _, next, τ, rfl, hE', .clause hr₁ hy hr₂, ?_⟩
  simp [bindClause, hb₁, hb₂]

/-- The clauses as long as `elseif` follows. -/
theorem elseClauses_succ (ih : Sound d) {ts : List Token} {σ : Scopes} {cs : List IfClause}
    {s' : ParseState} (hE : Ended ts)
    (h : Parse.elseClauses (d + 1) (stateAt ts σ) = .ok (cs, s')) :
    Outcome (.elses cs) (bindClauses cs) ts σ s' := by
  rw [Parse.elseClauses, check_bind] at h
  by_cases helse : kindOf ts = .keyword .elseif
  · rw [decide_eq_true helse, if_pos rfl] at h
    obtain ⟨t, ts, rfl⟩ := List.exists_cons_of_ne_nil hE.ne_nil
    have ht : t.kind = .keyword .elseif := helse
    obtain ⟨hE₁, h⟩ := of_next hE (by simp [ht]) h
    obtain ⟨c, s₁, h₁, h⟩ := of_bind h
    obtain ⟨⟨e, b, rfl⟩, m₁, ts₁, τ₁, rfl, hE₂, hr₁, hb₁⟩ := ih.clause hE₁ h₁
    obtain ⟨rest, s₂, h₂, h⟩ := of_bind h
    obtain ⟨rfl, rfl⟩ := of_pure h
    obtain ⟨m₂, next, τ, rfl, hE', hr₂, hb₂⟩ := ih.elseClauses hE₂ h₂
    refine ⟨_, next, τ, rfl, hE', .elsesCons ht hr₁ hr₂, ?_⟩
    simp [bindClauses, hb₁, hb₂]
  · rw [decide_eq_false helse, if_neg Bool.false_ne_true] at h
    obtain ⟨rfl, rfl⟩ := of_pure h
    exact ⟨[], ts, σ, rfl, hE, .elsesEnd helse, rfl⟩

/-! ## 4. Loops, functions and declarations -/

/-- The body of a loop stands between `do` and `end`, and its names are hidden after it. -/
theorem loopBody_succ (ih : Sound d) {o : Token} {ns : List Name} {ts : List Token} {σ : Scopes}
    {b : Block} {s' : ParseState} (hE : Ended ts)
    (h : Parse.loopBody (d + 1) o ns (stateAt ts σ) = .ok (b, s')) :
    ∃ y ts₁ ms z next τ, ts = y :: ts₁ ∧ y.kind = .keyword .do ∧ z.kind = .keyword .end ∧
      s' = stateAt next τ ∧ Ended next ∧ Reads (.block b) ts₁ ms (z :: next) ∧
      (bindBlock b (σ.activate ns)).map σ.hide = some τ := by
  rw [Parse.loopBody] at h
  obtain ⟨y, ts₁, rfl, hy, hE₁, h⟩ := of_expect hE (by simp) h
  obtain ⟨b', s₁, h₁, h⟩ := of_bind h
  obtain ⟨s₂, h₂, rfl⟩ := of_inScope h₁
  rw [activate_bind] at h₂
  obtain ⟨ms, ts₂, τ, rfl, hE₂, hr, hb⟩ := ih.block hE₁ h₂
  rw [stateAt_scopes, stateAt_scopes, stateAt_with_scopes] at h
  obtain ⟨z, next, rfl, hz, hE', h⟩ := of_expectClosing hE₂ (by simp) h
  obtain ⟨rfl, rfl⟩ := of_pure h
  refine ⟨y, ts₁, ms, z, next, σ.hide τ, rfl, hy, hz, rfl, hE', hr, ?_⟩
  rw [hb]
  rfl

/-- The reader tells the two loops apart by the token after the first name. -/
theorem forLoop_succ (ih : Sound d) {o : Token} {ts : List Token} {σ : Scopes} {s : Stmt}
    {s' : ParseState} (hE : Ended ts) (ho : o.kind = .keyword .for)
    (h : Parse.forLoop (d + 1) o (stateAt ts σ) = .ok (s, s')) :
    Outcome (.stmt s) (bindStmt s) (o :: ts) σ s' := by
  rw [Parse.forLoop] at h
  obtain ⟨v, ts₁, x, rfl, hv, hE₁, h⟩ := of_expectName hE h
  rw [onScopes_bind] at h
  obtain ⟨q, ts₂, rfl, hq, hE₂, h⟩ | ⟨hq, h⟩ := of_accept hE₁ (by simp) h
  · -- a numeric loop: the variable is declared after the header
    rw [if_pos rfl] at h
    obtain ⟨a, s₁, h₁, h⟩ := of_bind h
    obtain ⟨m₁, ts₃, τ₁, rfl, hE₃, hr₁, hb₁⟩ := ih.expr hE₂ h₁
    obtain ⟨y₁, ts₄, rfl, hy₁, hE₄, h⟩ := of_expect hE₃ (by simp) h
    obtain ⟨b, s₂, h₂, h⟩ := of_bind h
    obtain ⟨m₂, ts₅, τ₂, rfl, hE₅, hr₂, hb₂⟩ := ih.expr hE₄ h₂
    obtain ⟨c, s₃, h₃, h⟩ := of_bind h
    have hstep : Outcome (.step c) (bindExpr? c) ts₅ τ₂ s₃ := by
      obtain ⟨t, ts₆, e, rfl, ht, hE₆, rfl, hp⟩ | ⟨ht, rfl, rfl⟩ := of_after? hE₅ (by simp) h₃
      · obtain ⟨m₃, ts₇, τ₃, rfl, hE₇, hr₃, hb₃⟩ := ih.expr hE₆ hp
        exact ⟨_, ts₇, τ₃, rfl, hE₇, .stepSome ht hr₃, hb₃⟩
      · exact ⟨_, ts₅, τ₂, rfl, hE₅, .stepNone ht, rfl⟩
    obtain ⟨m₃, ts₆, τ₃, rfl, hE₆, hr₃, hb₃⟩ := hstep
    rw [onScopes_bind] at h
    obtain ⟨body, s₄, h₄, h⟩ := of_bind h
    obtain ⟨rfl, rfl⟩ := of_pure h
    obtain ⟨y₂, ts₇, m₄, z, next, τ, rfl, hy₂, hz, rfl, hE', hr₄, hb₄⟩ := ih.loopBody hE₆ h₄
    refine ⟨_, next, τ, rfl, hE',
      .numericFor ho ⟨hv, rfl⟩ hq hr₁ hy₁ hr₂ hr₃ hy₂ hr₄ hz, ?_⟩
    simp only [bindStmt, hb₁, hb₂, hb₃, Option.bind_some, bare, List.map_cons, List.map_nil,
      Scopes.declareNames, Scopes.ident_declare, if_true]
    exact hb₄
  · rw [if_neg Bool.false_ne_true, check_bind, check_bind] at h
    by_cases hin : kindOf ts₁ = .symbol .comma ∨ kindOf ts₁ = .keyword .in
    · have hcond : (decide (kindOf ts₁ = .symbol .comma) || decide (kindOf ts₁ = .keyword .in))
          = true := by simpa using hin
      rw [if_pos hcond] at h
      obtain ⟨xs, s₁, h₁, h⟩ := of_bind h
      -- the names become identifiers of the tree once they are declared
      have hnames : ∃ ts₂, s₁ = stateAt ts₂ σ.newScope.2 ∧ Ended ts₂ ∧ (kindOf ts₂ = .keyword .in →
          ∀ ns : List Name, ns.map Name.ident = ⟨x, v.pos⟩ :: xs.getD [] →
            ∃ ms, Names ns (v :: ts₁) ms ts₂) := by
        obtain ⟨y, ts₂, ys, rfl, hy, hE₂, rfl, hp⟩ | ⟨hy, rfl, rfl⟩ := of_after? hE₁ (by simp) h₁
        · obtain ⟨ts₃, rfl, hE₃, hns⟩ := names_sound hE₂ hp
          refine ⟨ts₃, rfl, hE₃, ?_⟩
          intro _ ns hns'
          obtain ⟨n, ns, rfl, hn, hrest⟩ := List.map_eq_cons_iff.mp hns'
          obtain ⟨ms, hms⟩ := hns ns hrest
          exact ⟨_, .cons (Token.writes_of_ident hv hn) hy hms⟩
        · refine ⟨ts₁, rfl, hE₁, ?_⟩
          intro _ ns hns'
          obtain ⟨n, ns, rfl, hn, hrest⟩ := List.map_eq_cons_iff.mp hns'
          obtain rfl := List.map_eq_nil_iff.mp hrest
          exact ⟨_, .last (Token.writes_of_ident hv hn) hy⟩
      obtain ⟨ts₂, rfl, hE₂, hns⟩ := hnames
      obtain ⟨y₁, ts₃, rfl, hy₁, hE₃, h⟩ := of_expect hE₂ (by simp) h
      obtain ⟨vs, s₂, h₂, h⟩ := of_bind h
      obtain ⟨m₂, ts₄, τ₂, rfl, hE₄, hr₂, hb₂⟩ := ih.exprs hE₃ h₂
      rw [onScopes_bind] at h
      obtain ⟨hident, hdecl⟩ := Scopes.declareAll_spec .loop σ.newScope.1
        ((⟨x, v.pos⟩ :: xs.getD []).map fun x => (x, none)) τ₂
      rw [List.map_map] at hident hdecl
      have hident' := hident.trans (List.map_id' _)
      rw [show ((fun p : Ident × Option Attrib => p.2) ∘ fun x : Ident => (x, none))
        = fun _ => none from rfl, zip_none_eq_bare _ _ hident'] at hdecl
      obtain ⟨m₁, hm₁⟩ := hns hy₁ _ hident'
      obtain ⟨body, s₃, h₃, h⟩ := of_bind h
      obtain ⟨rfl, rfl⟩ := of_pure h
      obtain ⟨y₂, ts₅, m₃, z, next, τ, rfl, hy₂, hz, rfl, hE', hr₃, hb₃⟩ := ih.loopBody hE₄ h₃
      refine ⟨_, next, τ, rfl, hE', .genericFor ho hm₁ hy₁ hr₂ hy₂ hr₃ hz, ?_⟩
      simp only [bindStmt, hb₂, Option.bind_some, hdecl]
      exact hb₃
    · have hcond : ¬ (decide (kindOf ts₁ = .symbol .comma) || decide (kindOf ts₁ = .keyword .in))
          = true := by simpa using hin
      rw [if_neg hcond] at h
      exact absurd h fail_ne

/-- The scope of the parameters is opened after the parenthesis. -/
theorem funcBody_succ (ih : Sound d) {o : Token} {m : Bool} {ts : List Token} {σ : Scopes}
    {f : FuncBody} {s' : ParseState} (hE : Ended ts)
    (h : Parse.funcBody (d + 1) o m (stateAt ts σ) = .ok (f, s')) :
    Outcome (.func f) (bindFunc m f) ts σ s' := by
  rw [Parse.funcBody] at h
  obtain ⟨t, ts₁, rfl, ht, hE₁, h⟩ := of_expect hE (by simp) h
  rw [onScopes_bind, onScopes_bind] at h
  obtain ⟨⟨ns, more⟩, s₁, h₁, h⟩ := of_bind h
  have hparams : ∃ m₁ ts₂ τ₁, s₁ = stateAt ts₂ τ₁ ∧ Ended ts₂ ∧ ParamList ns more ts₁ m₁ ts₂ ∧
      (σ.newScope.2.declareSelf m σ.newScope.1).2.declareNames .param σ.newScope.1 (bare ns)
        = some τ₁ := by
    obtain ⟨hz, heq, rfl⟩ | ⟨hz, h₁⟩ := of_before h₁
    · cases heq
      exact ⟨_, ts₁, _, rfl, hE₁, .empty hz, rfl⟩
    · obtain ⟨m₁, ts₂, τ₁, rfl, hE₂, hp, hb⟩ := parameters_sound _ hE₁ h₁
      exact ⟨m₁, ts₂, τ₁, rfl, hE₂, .some hz hp, hb⟩
  obtain ⟨m₁, ts₂, τ₁, rfl, hE₂, hp, hb₁⟩ := hparams
  obtain ⟨y, ts₃, rfl, hy, hE₃, h⟩ := of_expect hE₂ (by simp) h
  obtain ⟨b, s₂, h₂, h⟩ := of_bind h
  obtain ⟨s₃, h₃, rfl⟩ := of_inScope h₂
  rw [onScopes_bind, activate_bind] at h₃
  obtain ⟨m₂, ts₄, τ, rfl, hE₄, hr, hb₂⟩ := ih.block hE₃ h₃
  rw [stateAt_scopes, stateAt_scopes, stateAt_with_scopes] at h
  obtain ⟨z, next, rfl, hz, hE', h⟩ := of_expectClosing hE₄ (by simp) h
  obtain ⟨rfl, rfl⟩ := of_pure h
  refine ⟨_, next, τ₁.hide τ, rfl, hE', .func ht hp hy hr hz, ?_⟩
  simp only [bindFunc, hb₁, Option.bind_some, hb₂, Option.map_some]

/-- A local function or a list of names, as the token after the word tells. -/
theorem localStat_succ (ih : Sound d) {o : Token} {ts : List Token} {σ : Scopes} {s : Stmt}
    {s' : ParseState} (hE : Ended ts) (ho : o.kind = .keyword .local)
    (h : Parse.localStat (d + 1) o (stateAt ts σ) = .ok (s, s')) :
    Outcome (.stmt s) (bindStmt s) (o :: ts) σ s' := by
  rw [Parse.localStat, check_bind] at h
  by_cases hw : kindOf ts = .keyword .function
  · rw [decide_eq_true hw, if_pos rfl] at h
    obtain ⟨w, ts, rfl⟩ := List.exists_cons_of_ne_nil hE.ne_nil
    have hw' : w.kind = .keyword .function := hw
    obtain ⟨hE₁, h⟩ := of_next hE (by simp [hw']) h
    obtain ⟨v, ts₁, x, rfl, hv, hE₂, h⟩ := of_expectName hE₁ h
    rw [onScopes_bind, onScopes_bind, activate_bind] at h
    obtain ⟨f, s₁, h₁, h⟩ := of_bind h
    obtain ⟨rfl, rfl⟩ := of_pure h
    obtain ⟨ms, next, τ, rfl, hE', hr, hb⟩ := ih.funcBody hE₂ h₁
    refine ⟨_, next, τ, rfl, hE', .localFunction ho hw' ⟨hv, rfl⟩ hr, ?_⟩
    simpa [bindStmt, bare, Scopes.declareNames, Scopes.ident_declare] using hb
  · rw [decide_eq_false hw, if_neg Bool.false_ne_true, onScopes_bind] at h
    obtain ⟨xs, s₁, h₁, h⟩ := of_bind h
    obtain ⟨ts₁, rfl, hE₁, hns⟩ := attributedNames_sound hE h₁
    obtain ⟨vs, s₂, h₂, h⟩ := of_bind h
    have hvalues : Outcome (.initial (vs.getD [])) (bindExprs (vs.getD [])) ts₁ σ.newScope.2 s₂ := by
      obtain ⟨q, ts₂, es, rfl, hq, hE₂, rfl, hp⟩ | ⟨hq, rfl, rfl⟩ := of_after? hE₁ (by simp) h₂
      · obtain ⟨ms, next, τ, rfl, hE', hr, hb⟩ := ih.exprs hE₂ hp
        exact ⟨_, next, τ, rfl, hE', .initialSome hq hr, hb⟩
      · exact ⟨_, ts₁, _, rfl, hE₁, .initialNone hq, rfl⟩
    obtain ⟨m₂, next, τ, rfl, hE', hr, hb⟩ := hvalues
    rw [onScopes_bind, activate_bind] at h
    obtain ⟨rfl, rfl⟩ := of_pure h
    obtain ⟨hident, hdecl⟩ := Scopes.declareAll_spec .local σ.newScope.1 xs τ
    obtain ⟨m₁, hm₁⟩ := hns _ hident
    have hlen := congrArg List.length hident
    simp only [List.length_map] at hlen
    have hlocal := Reads.local ho hm₁ hr
    rw [List.map_fst_zip (by simp [hlen]), List.map_snd_zip (by simp [hlen])] at hlocal
    refine ⟨_, next, _, rfl, hE', hlocal, ?_⟩
    rw [← withAttribs_eq_zip (by simp [hlen])] at hdecl
    simp only [bindStmt, hb, Option.bind_some, hdecl, Option.map_some]

/-- Further targets as long as commas follow. -/
theorem moreTargets_succ (ih : Sound d) {ts : List Token} {σ : Scopes} {es : List Expr}
    {s' : ParseState} (hE : Ended ts)
    (h : Parse.moreTargets (d + 1) (stateAt ts σ) = .ok (es, s')) :
    Outcome (.targets es) (bindExprs es) ts σ s' := by
  rw [Parse.moreTargets] at h
  obtain ⟨t, ts₁, rfl, ht, hE₁, h⟩ | ⟨ht, h⟩ := of_accept hE (by simp) h
  · rw [if_pos rfl] at h
    obtain ⟨e, s₁, h₁, h⟩ := of_bind h
    obtain ⟨m₁, ts₂, τ₁, rfl, hE₂, hr₁, hb₁⟩ := ih.suffixedExpr hE₁ h₁
    obtain ⟨es, s₂, h₂, h⟩ := of_bind h
    obtain ⟨rfl, rfl⟩ := of_pure h
    obtain ⟨m₂, next, τ, rfl, hE', hr₂, hb₂⟩ := ih.moreTargets hE₂ h₂
    refine ⟨_, next, τ, rfl, hE', .targetsCons ht hr₁ hr₂, ?_⟩
    simp [bindExprs, hb₁, hb₂]
  · rw [if_neg Bool.false_ne_true] at h
    obtain ⟨rfl, rfl⟩ := of_pure h
    exact ⟨_, ts, σ, rfl, hE, .targetsEnd ht, rfl⟩

/-- An assignment or a call, as the token after the expression tells. -/
theorem exprStat_succ (ih : Sound d) {ts : List Token} {σ : Scopes} {s : Stmt} {s' : ParseState}
    (hE : Ended ts) (h : Parse.exprStat (d + 1) (stateAt ts σ) = .ok (s, s')) :
    Outcome (.stmt s) (bindStmt s) ts σ s' := by
  obtain ⟨t, ts, rfl⟩ := List.exists_cons_of_ne_nil hE.ne_nil
  rw [Parse.exprStat, peek_bind] at h
  obtain ⟨e, s₁, h₁, h⟩ := of_bind h
  obtain ⟨m₁, ts₁, τ₁, rfl, hE₁, hr₁, hb₁⟩ := ih.suffixedExpr hE h₁
  rw [check_bind, check_bind] at h
  by_cases hstore : kindOf ts₁ = .symbol .assign ∨ kindOf ts₁ = .symbol .comma
  · have hcond : (decide (kindOf ts₁ = .symbol .assign) || decide (kindOf ts₁ = .symbol .comma))
        = true := by simpa using hstore
    rw [if_pos hcond] at h
    obtain ⟨es, s₂, h₂, h⟩ := of_bind h
    obtain ⟨m₂, ts₂, τ₂, rfl, hE₂, hr₂, hb₂⟩ := ih.moreTargets hE₁ h₂
    obtain ⟨q, ts₃, rfl, hq, hE₃, h⟩ := of_expect hE₂ (by simp) h
    obtain ⟨u, s₃, h₃, h⟩ := of_bind h
    obtain ⟨τ₃, rfl, hw, hall⟩ := checkTargets_sound h₃
    obtain ⟨vs, s₄, h₄, h⟩ := of_bind h
    obtain ⟨rfl, rfl⟩ := of_pure h
    obtain ⟨m₃, next, τ, rfl, hE', hr₃, hb₃⟩ := ih.exprs hE₃ h₄
    refine ⟨_, next, τ, rfl, hE', .assign hr₁ hr₂ hq hall hr₃, ?_⟩
    simp [bindStmt, bindExprs, hb₁, hb₂, hw, hb₃]
  · have hcond : ¬ (decide (kindOf ts₁ = .symbol .assign) || decide (kindOf ts₁ = .symbol .comma))
        = true := by simpa using hstore
    obtain ⟨hassign, hcomma⟩ := not_or.mp hstore
    rw [if_neg hcond] at h
    by_cases hcall : e.isCall = true
    · rw [if_pos hcall] at h
      obtain ⟨rfl, rfl⟩ := of_pure h
      exact ⟨_, ts₁, τ₁, rfl, hE₁, .callStat hr₁ hcall hassign hcomma, hb₁⟩
    · rw [if_neg hcall] at h
      exact absurd h fail_ne

/-- The first clause, the others, and the block after `else`, up to the `end`. -/
theorem ifStat_sound (ih : Sound d) {o : Token} {ts : List Token} {σ : Scopes} {s : Stmt}
    {s' : ParseState} (hE : Ended ts) (ho : o.kind = .keyword .if)
    (h : (do
      let c ← Parse.clause d o
      let cs ← Parse.elseClauses d
      let orelse ← after? (.keyword .else) (Parse.block d)
      let _ ← expectClosing (.keyword .end) o
      return Stmt.if o.pos (c :: cs) orelse : Parse Stmt) (stateAt ts σ) = .ok (s, s')) :
    Outcome (.stmt s) (bindStmt s) (o :: ts) σ s' := by
  obtain ⟨c, s₁, h₁, h⟩ := of_bind h
  obtain ⟨⟨e, b, rfl⟩, m₁, ts₁, τ₁, rfl, hE₁, hr₁, hb₁⟩ := ih.clause hE h₁
  obtain ⟨cs, s₂, h₂, h⟩ := of_bind h
  obtain ⟨m₂, ts₂, τ₂, rfl, hE₂, hr₂, hb₂⟩ := ih.elseClauses hE₁ h₂
  obtain ⟨orelse, s₃, h₃, h⟩ := of_bind h
  have helse : Outcome (.orelse orelse) (bindBlock? orelse) ts₂ τ₂ s₃ := by
    obtain ⟨t, ts₃, b', rfl, ht, hE₃, rfl, hp⟩ | ⟨ht, rfl, rfl⟩ := of_after? hE₂ (by simp) h₃
    · obtain ⟨ms, next, τ, rfl, hE', hr, hb⟩ := ih.block hE₃ hp
      exact ⟨_, next, τ, rfl, hE', .orelseSome ht hr, hb⟩
    · exact ⟨_, ts₂, τ₂, rfl, hE₂, .orelseNone ht, rfl⟩
  obtain ⟨m₃, ts₃, τ₃, rfl, hE₃, hr₃, hb₃⟩ := helse
  obtain ⟨z, next, rfl, hz, hE', h⟩ := of_expectClosing hE₃ (by simp) h
  obtain ⟨rfl, rfl⟩ := of_pure h
  refine ⟨_, next, τ₃, rfl, hE', .if ho hr₁ hr₂ hr₃ hz, ?_⟩
  simp [bindStmt, bindClauses, hb₁, hb₂, hb₃]

/-- The condition is resolved with the names of the body, which are hidden after it. -/
theorem repeatStat_sound (ih : Sound d) {o t : Token} {ts : List Token} {σ : Scopes}
    {ss : List Stmt} {c : Expr} {s' : ParseState} (hE : Ended (t :: ts))
    (ho : o.kind = .keyword .repeat)
    (h : inScope (do
      let ss ← Parse.statements d
      let _ ← expectClosing (.keyword .until) o
      let cond ← Parse.expr d 0
      return (ss, cond) : Parse (List Stmt × Expr)) (stateAt (t :: ts) σ) = .ok ((ss, c), s')) :
    Outcome (.stmt (.repeat o.pos (.mk t.pos ss) c)) (bindStmt (.repeat o.pos (.mk t.pos ss) c))
      (o :: t :: ts) σ s' := by
  obtain ⟨s₁, h₀, rfl⟩ := of_inScope h
  obtain ⟨ss', s₂, h₁, h⟩ := of_bind h₀
  obtain ⟨m₁, ts₁, τ₁, rfl, hE₁, hr₁, hb₁⟩ := ih.statements hE h₁
  obtain ⟨y, ts₂, rfl, hy, hE₂, h⟩ := of_expectClosing hE₁ (by simp) h
  obtain ⟨e, s₃, h₂, h⟩ := of_bind h
  obtain ⟨heq, rfl⟩ := of_pure h
  cases heq
  obtain ⟨m₂, next, τ, rfl, hE', hr₂, hb₂⟩ := ih.expr hE₂ h₂
  refine ⟨_, next, σ.hide τ, ?_, hE', .repeat ho hr₁ hy hr₂, ?_⟩
  · rw [stateAt_scopes, stateAt_scopes, stateAt_with_scopes]
  · simp [bindStmt, hb₁, hb₂]

/-- The name of a function statement is looked up, extended by its fields and stored to. -/
theorem functionStat_sound (ih : Sound d) {o : Token} {ts : List Token} {σ : Scopes} {s : Stmt}
    {s' : ParseState} (hE : Ended ts) (ho : o.kind = .keyword .function)
    (h : (do
      let x ← expectName
      let root ← onScopes (·.reference x)
      let (target, isMethod) ← functionName (.name root) d
      markTarget target
      let f ← Parse.funcBody d o isMethod
      return Stmt.function o.pos target f isMethod : Parse Stmt) (stateAt ts σ) = .ok (s, s')) :
    Outcome (.stmt s) (bindStmt s) (o :: ts) σ s' := by
  obtain ⟨v, ts₁, x, rfl, hv, hE₁, h⟩ := of_expectName hE h
  rw [onScopes_bind] at h
  obtain ⟨⟨target, m⟩, s₁, h₁, h⟩ := of_bind h
  obtain ⟨m₁, ts₂, rfl, hE₂, hp⟩ := functionName_sound hE₁ h₁
  obtain ⟨_, s₂, h₂, h⟩ := of_bind h
  have hassign : target.assignable = true := by
    obtain rfl | ⟨p, o, k, rfl⟩ := hp.name_or_index
    · rfl
    · rfl
  obtain ⟨τ₂, hw, rfl⟩ := of_markTarget hassign h₂
  obtain ⟨f, s₃, h₃, h⟩ := of_bind h
  obtain ⟨rfl, rfl⟩ := of_pure h
  obtain ⟨m₂, next, τ, rfl, hE', hr, hb⟩ := ih.funcBody hE₂ h₃
  refine ⟨_, next, τ, rfl, hE', .functionStat ho ⟨hv, rfl⟩ hp hr, ?_⟩
  have htarget := hp.bindExpr_eq σ
  simp only [bindExpr, Scopes.useName_reference] at htarget
  simp [bindStmt, htarget, hw, hb]

/-- The reader tells a statement by its first token. -/
theorem statement_succ (ih : Sound d) {ts : List Token} {σ : Scopes} {s : Stmt} {s' : ParseState}
    (hE : Ended ts) (h : Parse.statement (d + 1) (stateAt ts σ) = .ok (s, s')) :
    Outcome (.stmt s) (bindStmt s) ts σ s' := by
  obtain ⟨t, ts, rfl⟩ := List.exists_cons_of_ne_nil hE.ne_nil
  rw [Parse.statement, peek_bind] at h
  simp only [stateAt_cons] at h
  generalize ht : t.kind = kind at h
  split at h
  case h_1 =>
    obtain ⟨hE₁, h⟩ := of_next hE (by simp [ht]) h
    exact ifStat_sound ih hE₁ ht h
  case h_2 =>
    obtain ⟨hE₁, h⟩ := of_next hE (by simp [ht]) h
    obtain ⟨c, s₁, h₁, h⟩ := of_bind h
    obtain ⟨m₁, ts₁, τ₁, rfl, hE₂, hr₁, hb₁⟩ := ih.expr hE₁ h₁
    obtain ⟨y, ts₂, rfl, hy, hE₃, h⟩ := of_expect hE₂ (by simp) h
    obtain ⟨b, s₂, h₂, h⟩ := of_bind h
    obtain ⟨m₂, ts₃, τ, rfl, hE₄, hr₂, hb₂⟩ := ih.block hE₃ h₂
    obtain ⟨z, next, rfl, hz, hE', h⟩ := of_expectClosing hE₄ (by simp) h
    obtain ⟨rfl, rfl⟩ := of_pure h
    refine ⟨_, next, τ, rfl, hE', .while ht hr₁ hy hr₂ hz, ?_⟩
    simp [bindStmt, hb₁, hb₂]
  case h_3 =>
    obtain ⟨hE₁, h⟩ := of_next hE (by simp [ht]) h
    obtain ⟨b, s₁, h₁, h⟩ := of_bind h
    obtain ⟨ms, ts₁, τ, rfl, hE₂, hr, hb⟩ := ih.block hE₁ h₁
    obtain ⟨z, next, rfl, hz, hE', h⟩ := of_expectClosing hE₂ (by simp) h
    obtain ⟨rfl, rfl⟩ := of_pure h
    exact ⟨_, next, τ, rfl, hE', .do ht hr hz, hb⟩
  case h_4 =>
    obtain ⟨hE₁, h⟩ := of_next hE (by simp [ht]) h
    exact ih.forLoop hE₁ ht h
  case h_5 =>
    obtain ⟨hE₁, h⟩ := of_next hE (by simp [ht]) h
    obtain ⟨u, us, rfl⟩ := List.exists_cons_of_ne_nil hE₁.ne_nil
    rw [peek_bind] at h
    obtain ⟨⟨ss, c⟩, s₁, h₁, h⟩ := of_bind h
    obtain ⟨rfl, rfl⟩ := of_pure h
    exact repeatStat_sound ih hE₁ ht h₁
  case h_6 =>
    obtain ⟨hE₁, h⟩ := of_next hE (by simp [ht]) h
    exact functionStat_sound ih hE₁ ht h
  case h_7 =>
    obtain ⟨hE₁, h⟩ := of_next hE (by simp [ht]) h
    exact ih.localStat hE₁ ht h
  case h_8 =>
    obtain ⟨hE₁, h⟩ := of_next hE (by simp [ht]) h
    obtain ⟨rfl, rfl⟩ := of_pure h
    exact ⟨_, ts, σ, rfl, hE₁, .break ht, rfl⟩
  case h_9 =>
    obtain ⟨hE₁, h⟩ := of_next hE (by simp [ht]) h
    obtain ⟨k, ts₁, x, rfl, hk, hE₂, h⟩ := of_expectName hE₁ h
    obtain ⟨rfl, rfl⟩ := of_pure h
    exact ⟨_, ts₁, σ, rfl, hE₂, .goto ht hk, rfl⟩
  case h_10 =>
    obtain ⟨hE₁, h⟩ := of_next hE (by simp [ht]) h
    obtain ⟨k, ts₁, x, rfl, hk, hE₂, h⟩ := of_expectName hE₁ h
    obtain ⟨z, ts₂, rfl, hz, hE₃, h⟩ := of_expect hE₂ (by simp) h
    obtain ⟨rfl, rfl⟩ := of_pure h
    exact ⟨_, ts₂, σ, rfl, hE₃, .label ht hk hz, rfl⟩
  case h_11 => exact ih.exprStat hE h

/-! ## 5. Expressions -/

/-- Expressions as long as commas follow. -/
theorem exprs_succ (ih : Sound d) {ts : List Token} {σ : Scopes} {es : List Expr}
    {s' : ParseState} (hE : Ended ts) (h : Parse.exprs (d + 1) (stateAt ts σ) = .ok (es, s')) :
    Outcome (.exprs es) (bindExprs es) ts σ s' := by
  rw [Parse.exprs] at h
  obtain ⟨e, s₁, h₁, h⟩ := of_bind h
  obtain ⟨m₁, ts₁, τ₁, rfl, hE₁, hr₁, hb₁⟩ := ih.expr hE h₁
  obtain ⟨y, ts₂, rfl, hy, hE₂, h⟩ | ⟨hy, h⟩ := of_accept hE₁ (by simp) h
  · rw [if_pos rfl] at h
    obtain ⟨es, s₂, h₂, h⟩ := of_bind h
    obtain ⟨rfl, rfl⟩ := of_pure h
    obtain ⟨m₂, next, τ, rfl, hE', hr₂, hb₂⟩ := ih.exprs hE₂ h₂
    refine ⟨_, next, τ, rfl, hE', .exprsCons hr₁ hy hr₂, ?_⟩
    simp [bindExprs, hb₁, hb₂]
  · rw [if_neg Bool.false_ne_true] at h
    obtain ⟨rfl, rfl⟩ := of_pure h
    refine ⟨_, ts₁, τ₁, rfl, hE₁, .exprsOne hr₁ hy, ?_⟩
    simp [bindExprs, hb₁]

/-- A sign before an operand is applied before the operators after it. -/
theorem expr_succ (ih : Sound d) {limit : Nat} {ts : List Token} {σ : Scopes} {e : Expr}
    {s' : ParseState} (hE : Ended ts)
    (h : Parse.expr (d + 1) limit (stateAt ts σ) = .ok (e, s')) :
    Outcome (.expr limit e) (bindExpr e) ts σ s' := by
  obtain ⟨t, ts, rfl⟩ := List.exists_cons_of_ne_nil hE.ne_nil
  rw [Parse.expr, peek_bind] at h
  simp only [stateAt_cons] at h
  cases hop : UnaryOp.ofKind? t.kind with
  | some op =>
    simp only [hop] at h
    have hne : t.kind ≠ .eof := by
      intro heof
      simp [heof, UnaryOp.ofKind?] at hop
    obtain ⟨hE₁, h⟩ := of_next hE hne h
    obtain ⟨i, s₁, h₁, h⟩ := of_bind h
    obtain ⟨m₁, ts₁, τ₁, rfl, hE₂, hr₁, hb₁⟩ := ih.expr hE₁ h₁
    obtain ⟨m₂, next, τ, rfl, hE', hr₂, hb₂⟩ := ih.operators hE₂ h
    exact ⟨_, next, τ, rfl, hE', .unary hop hr₁ hr₂, hb₂ σ hb₁⟩
  | none =>
    simp only [hop] at h
    obtain ⟨l, s₁, h₁, h⟩ := of_bind h
    obtain ⟨m₁, ts₁, τ₁, rfl, hE₂, hr₁, hb₁⟩ := ih.simpleExpr hE h₁
    obtain ⟨m₂, next, τ, rfl, hE', hr₂, hb₂⟩ := ih.operators hE₂ h
    exact ⟨_, next, τ, rfl, hE', .operand hop hr₁ hr₂, hb₂ σ hb₁⟩

/-- Operators as long as they hold their left operand more strongly than the limit. -/
theorem operators_succ (ih : Sound d) {limit : Nat} {l : Expr} {ts : List Token} {σ : Scopes}
    {e : Expr} {s' : ParseState} (hE : Ended ts)
    (h : Parse.operators (d + 1) limit l (stateAt ts σ) = .ok (e, s')) :
    Continuation (.operators limit l e) l e ts σ s' := by
  obtain ⟨t, ts, rfl⟩ := List.exists_cons_of_ne_nil hE.ne_nil
  rw [Parse.operators, peek_bind] at h
  simp only [stateAt_cons] at h
  cases hop : BinaryOp.ofKind? t.kind with
  | none =>
    simp only [hop] at h
    obtain ⟨rfl, rfl⟩ := of_pure h
    refine ⟨_, t :: ts, σ, rfl, hE, .operatorsEnd ?_, fun ρ hρ => hρ⟩
    simp [hop]
  | some op =>
    simp only [hop] at h
    by_cases hpow : op.leftPower ≤ limit
    · rw [if_pos hpow] at h
      obtain ⟨rfl, rfl⟩ := of_pure h
      refine ⟨_, t :: ts, σ, rfl, hE, .operatorsEnd ?_, fun ρ hρ => hρ⟩
      simpa [hop] using hpow
    · rw [if_neg hpow] at h
      have hne : t.kind ≠ .eof := by
        intro heof
        simp [heof, BinaryOp.ofKind?] at hop
      obtain ⟨hE₁, h⟩ := of_next hE hne h
      obtain ⟨r, s₁, h₁, h⟩ := of_bind h
      obtain ⟨m₁, ts₁, τ₁, rfl, hE₂, hr₁, hb₁⟩ := ih.expr hE₁ h₁
      obtain ⟨m₂, next, τ, rfl, hE', hr₂, hb₂⟩ := ih.operators hE₂ h
      refine ⟨_, next, τ, rfl, hE', .operator hop (Nat.lt_of_not_le hpow) hr₁ hr₂, ?_⟩
      intro ρ hρ
      exact hb₂ ρ (by simp [bindExpr, hρ, hb₁])

/-- The reader tells an operand by its first token. -/
theorem simpleExpr_succ (ih : Sound d) {ts : List Token} {σ : Scopes} {e : Expr} {s' : ParseState}
    (hE : Ended ts) (h : Parse.simpleExpr (d + 1) (stateAt ts σ) = .ok (e, s')) :
    Outcome (.simple e) (bindExpr e) ts σ s' := by
  obtain ⟨t, ts, rfl⟩ := List.exists_cons_of_ne_nil hE.ne_nil
  rw [Parse.simpleExpr, peek_bind] at h
  simp only [stateAt_cons] at h
  generalize ht : t.kind = kind at h
  split at h
  case h_1 a =>
    obtain ⟨hE₁, h⟩ := of_next hE (by simp [ht]) h
    obtain ⟨rfl, rfl⟩ := of_pure h
    exact ⟨_, ts, σ, rfl, hE₁, .number ht, rfl⟩
  case h_2 x =>
    obtain ⟨hE₁, h⟩ := of_next hE (by simp [ht]) h
    obtain ⟨rfl, rfl⟩ := of_pure h
    exact ⟨_, ts, σ, rfl, hE₁, .string ht, rfl⟩
  case h_3 =>
    obtain ⟨hE₁, h⟩ := of_next hE (by simp [ht]) h
    obtain ⟨rfl, rfl⟩ := of_pure h
    exact ⟨_, ts, σ, rfl, hE₁, .nil ht, rfl⟩
  case h_4 =>
    obtain ⟨hE₁, h⟩ := of_next hE (by simp [ht]) h
    obtain ⟨rfl, rfl⟩ := of_pure h
    exact ⟨_, ts, σ, rfl, hE₁, .true ht, rfl⟩
  case h_5 =>
    obtain ⟨hE₁, h⟩ := of_next hE (by simp [ht]) h
    obtain ⟨rfl, rfl⟩ := of_pure h
    exact ⟨_, ts, σ, rfl, hE₁, .false ht, rfl⟩
  case h_6 =>
    obtain ⟨hE₁, h⟩ := of_next hE (by simp [ht]) h
    obtain ⟨rfl, rfl⟩ := of_pure h
    exact ⟨_, ts, σ, rfl, hE₁, .vararg ht, rfl⟩
  case h_7 =>
    obtain ⟨ms, next, τ, rfl, hE', hr, hb⟩ := ih.table hE h
    exact ⟨_, next, τ, rfl, hE', .tableExpr hr, hb⟩
  case h_8 =>
    obtain ⟨hE₁, h⟩ := of_next hE (by simp [ht]) h
    obtain ⟨f, s₁, h₁, h⟩ := of_bind h
    obtain ⟨rfl, rfl⟩ := of_pure h
    obtain ⟨ms, next, τ, rfl, hE', hr, hb⟩ := ih.funcBody hE₁ h₁
    exact ⟨_, next, τ, rfl, hE', .functionExpr ht hr, hb⟩
  case h_9 =>
    obtain ⟨ms, next, τ, rfl, hE', hr, hb⟩ := ih.suffixedExpr hE h
    exact ⟨_, next, τ, rfl, hE', .suffixedExpr hr, hb⟩

/-- A name or an expression in parentheses, and what is applied to it. -/
theorem suffixedExpr_succ (ih : Sound d) {ts : List Token} {σ : Scopes} {e : Expr}
    {s' : ParseState} (hE : Ended ts)
    (h : Parse.suffixedExpr (d + 1) (stateAt ts σ) = .ok (e, s')) :
    Outcome (.suffixed e) (bindExpr e) ts σ s' := by
  obtain ⟨t, ts, rfl⟩ := List.exists_cons_of_ne_nil hE.ne_nil
  rw [Parse.suffixedExpr, peek_bind] at h
  simp only [stateAt_cons] at h
  generalize ht : t.kind = kind at h
  split at h
  case h_1 x =>
    obtain ⟨hE₁, h⟩ := of_next hE (by simp [ht]) h
    rw [onScopes_bind] at h
    obtain ⟨ms, next, τ, rfl, hE', hr, hb⟩ := ih.suffixes hE₁ h
    refine ⟨_, next, τ, rfl, hE', .name ⟨ht, rfl⟩ hr, hb σ ?_⟩
    rw [bindExpr, Scopes.useName_reference]
  case h_2 =>
    obtain ⟨hE₁, h⟩ := of_next hE (by simp [ht]) h
    obtain ⟨i, s₁, h₁, h⟩ := of_bind h
    obtain ⟨m₁, ts₁, τ₁, rfl, hE₂, hr₁, hb₁⟩ := ih.expr hE₁ h₁
    obtain ⟨z, ts₂, rfl, hz, hE₃, h⟩ := of_expectClosing hE₂ (by simp) h
    obtain ⟨m₂, next, τ, rfl, hE', hr₂, hb₂⟩ := ih.suffixes hE₃ h
    exact ⟨_, next, τ, rfl, hE', .paren ht hr₁ hz hr₂, hb₂ σ hb₁⟩
  case h_3 => exact absurd h fail_ne

/-- A call of `e` with arguments, and what is applied to its result. -/
theorem call_sound (ih : Sound d) {i : Expr} {ts : List Token} {σ : Scopes} {e : Expr}
    {s' : ParseState} (hE : Ended ts)
    (h : (Parse.callArgs d >>= fun args => Parse.suffixes d (.call i.pos i args)) (stateAt ts σ)
      = .ok (e, s')) : Continuation (.suffixes i e) i e ts σ s' := by
  obtain ⟨as, s₁, h₁, h⟩ := of_bind h
  obtain ⟨m₁, ts₁, τ₁, rfl, hE₁, hr₁, hb₁⟩ := ih.callArgs hE h₁
  obtain ⟨m₂, next, τ, rfl, hE', hr₂, hb₂⟩ := ih.suffixes hE₁ h
  refine ⟨_, next, τ, rfl, hE', .call hr₁ hr₂, ?_⟩
  intro ρ hρ
  exact hb₂ ρ (by simp [bindExpr, hρ, hb₁])

/-- What is applied to an expression as long as a suffix follows. -/
theorem suffixes_succ (ih : Sound d) {i : Expr} {ts : List Token} {σ : Scopes} {e : Expr}
    {s' : ParseState} (hE : Ended ts)
    (h : Parse.suffixes (d + 1) i (stateAt ts σ) = .ok (e, s')) :
    Continuation (.suffixes i e) i e ts σ s' := by
  obtain ⟨t, ts, rfl⟩ := List.exists_cons_of_ne_nil hE.ne_nil
  rw [Parse.suffixes, peek_bind] at h
  simp only [stateAt_cons] at h
  generalize ht : t.kind = kind at h
  split at h
  case h_1 =>
    obtain ⟨hE₁, h⟩ := of_next hE (by simp [ht]) h
    obtain ⟨k, ts₁, x, rfl, hk, hE₂, h⟩ := of_expectName hE₁ h
    obtain ⟨ms, next, τ, rfl, hE', hr, hb⟩ := ih.suffixes hE₂ h
    refine ⟨_, next, τ, rfl, hE', .dot ht hk hr, ?_⟩
    intro ρ hρ
    exact hb ρ (by simp [bindExpr, hρ])
  case h_2 =>
    obtain ⟨hE₁, h⟩ := of_next hE (by simp [ht]) h
    obtain ⟨k, s₁, h₁, h⟩ := of_bind h
    obtain ⟨m₁, ts₁, τ₁, rfl, hE₂, hr₁, hb₁⟩ := ih.expr hE₁ h₁
    obtain ⟨z, ts₂, rfl, hz, hE₃, h⟩ := of_expect hE₂ (by simp) h
    obtain ⟨m₂, next, τ, rfl, hE', hr₂, hb₂⟩ := ih.suffixes hE₃ h
    refine ⟨_, next, τ, rfl, hE', .bracket ht hr₁ hz hr₂, ?_⟩
    intro ρ hρ
    exact hb₂ ρ (by simp [bindExpr, hρ, hb₁])
  case h_3 =>
    obtain ⟨hE₁, h⟩ := of_next hE (by simp [ht]) h
    obtain ⟨k, ts₁, x, rfl, hk, hE₂, h⟩ := of_expectName hE₁ h
    obtain ⟨as, s₁, h₁, h⟩ := of_bind h
    obtain ⟨m₁, ts₂, τ₁, rfl, hE₃, hr₁, hb₁⟩ := ih.callArgs hE₂ h₁
    obtain ⟨m₂, next, τ, rfl, hE', hr₂, hb₂⟩ := ih.suffixes hE₃ h
    refine ⟨_, next, τ, rfl, hE', .method ht hk hr₁ hr₂, ?_⟩
    intro ρ hρ
    exact hb₂ ρ (by simp [bindExpr, hρ, hb₁])
  case h_4 => exact call_sound ih hE h
  case h_5 => exact call_sound ih hE h
  case h_6 => exact call_sound ih hE h
  case h_7 h₁ h₂ h₃ h₄ h₅ h₆ =>
    obtain ⟨rfl, rfl⟩ := of_pure h
    refine ⟨_, t :: ts, σ, rfl, hE, .suffixesEnd ?_, fun ρ hρ => hρ⟩
    rw [kindOf_cons, ht]
    unfold startsSuffix
    split <;> simp_all

/-- Arguments in one of their three forms. -/
theorem callArgs_succ (ih : Sound d) {ts : List Token} {σ : Scopes} {es : List Expr}
    {s' : ParseState} (hE : Ended ts)
    (h : Parse.callArgs (d + 1) (stateAt ts σ) = .ok (es, s')) :
    Outcome (.args es) (bindExprs es) ts σ s' := by
  obtain ⟨t, ts, rfl⟩ := List.exists_cons_of_ne_nil hE.ne_nil
  rw [Parse.callArgs, peek_bind] at h
  simp only [stateAt_cons] at h
  generalize ht : t.kind = kind at h
  split at h
  case h_1 x =>
    obtain ⟨hE₁, h⟩ := of_next hE (by simp [ht]) h
    obtain ⟨rfl, rfl⟩ := of_pure h
    exact ⟨_, ts, σ, rfl, hE₁, .argString ht, rfl⟩
  case h_2 =>
    obtain ⟨e, s₁, h₁, h⟩ := of_bind h
    obtain ⟨rfl, rfl⟩ := of_pure h
    obtain ⟨ms, next, τ, rfl, hE', hr, hb⟩ := ih.table hE h₁
    refine ⟨_, next, τ, rfl, hE', .argTable hr, ?_⟩
    simp [bindExprs, hb]
  case h_3 =>
    obtain ⟨o, ts₁, heq, ho, hE₁, h⟩ := of_expect hE (by simp) h
    obtain ⟨rfl, rfl⟩ := List.cons.inj heq
    obtain ⟨as, s₁, h₁, h⟩ := of_bind h
    obtain ⟨hz, rfl, rfl⟩ | ⟨hz, hp⟩ := of_before h₁
    · obtain ⟨z, ts₂, rfl, hz, hE₂, h⟩ := of_expectClosing hE₁ (by simp) h
      obtain ⟨rfl, rfl⟩ := of_pure h
      exact ⟨_, ts₂, σ, rfl, hE₂, .argsNone ho hz, rfl⟩
    · obtain ⟨ms, ts₂, τ, rfl, hE₂, hr, hb⟩ := ih.exprs hE₁ hp
      obtain ⟨z, ts₃, rfl, hz', hE₃, h⟩ := of_expectClosing hE₂ (by simp) h
      obtain ⟨rfl, rfl⟩ := of_pure h
      exact ⟨_, ts₃, τ, rfl, hE₃, .argsSome ho hz hr hz', hb⟩

theorem table_succ (ih : Sound d) {ts : List Token} {σ : Scopes} {e : Expr} {s' : ParseState}
    (hE : Ended ts) (h : Parse.table (d + 1) (stateAt ts σ) = .ok (e, s')) :
    Outcome (.table e) (bindExpr e) ts σ s' := by
  rw [Parse.table] at h
  obtain ⟨t, ts₁, rfl, ht, hE₁, h⟩ := of_expect hE (by simp) h
  obtain ⟨fs, s₁, h₁, h⟩ := of_bind h
  obtain ⟨ms, ts₂, τ, rfl, hE₂, hr, hb⟩ := ih.fields hE₁ h₁
  obtain ⟨z, next, rfl, hz, hE', h⟩ := of_expectClosing hE₂ (by simp) h
  obtain ⟨rfl, rfl⟩ := of_pure h
  exact ⟨_, next, τ, rfl, hE', .table ht hr hz, hb⟩

/-- Fields up to the end of the table, with a separator after each but perhaps the last. -/
theorem fields_succ (ih : Sound d) {ts : List Token} {σ : Scopes} {fs : List TableField}
    {s' : ParseState} (hE : Ended ts) (h : Parse.fields (d + 1) (stateAt ts σ) = .ok (fs, s')) :
    Outcome (.fields fs) (bindFields fs) ts σ s' := by
  rw [Parse.fields, check_bind] at h
  by_cases hz : kindOf ts = .symbol .braceClose
  · rw [decide_eq_true hz, if_pos rfl] at h
    obtain ⟨rfl, rfl⟩ := of_pure h
    exact ⟨_, ts, σ, rfl, hE, .fieldsEnd hz, rfl⟩
  · rw [decide_eq_false hz, if_neg Bool.false_ne_true] at h
    obtain ⟨f, s₁, h₁, h⟩ := of_bind h
    obtain ⟨m₁, ts₁, τ₁, rfl, hE₁, hr₁, hb₁⟩ := ih.field hE h₁
    obtain ⟨y, ts₂, rfl, hy, hE₂, h⟩ | ⟨hcomma, hsemi, h⟩ :=
      of_acceptEither hE₁ (by simp) (by simp) h
    · rw [if_pos rfl] at h
      obtain ⟨fs, s₂, h₂, h⟩ := of_bind h
      obtain ⟨rfl, rfl⟩ := of_pure h
      obtain ⟨m₂, next, τ, rfl, hE', hr₂, hb₂⟩ := ih.fields hE₂ h₂
      refine ⟨_, next, τ, rfl, hE', .fieldsCons hz hr₁ hy hr₂, ?_⟩
      simp [bindFields, hb₁, hb₂]
    · rw [if_neg Bool.false_ne_true] at h
      obtain ⟨rfl, rfl⟩ := of_pure h
      refine ⟨_, ts₁, τ₁, rfl, hE₁, .fieldsLast hz hr₁ hcomma hsemi, ?_⟩
      simp [bindFields, hb₁]

/-- The reader tells a key in brackets by the bracket, and a name as a key by the token after it. -/
theorem field_succ (ih : Sound d) {ts : List Token} {σ : Scopes} {f : TableField}
    {s' : ParseState} (hE : Ended ts) (h : Parse.field (d + 1) (stateAt ts σ) = .ok (f, s')) :
    Outcome (.field f) (bindField f) ts σ s' := by
  obtain ⟨t, ts, rfl⟩ := List.exists_cons_of_ne_nil hE.ne_nil
  rw [Parse.field, peek_bind, peekNext_bind] at h
  simp only [stateAt_cons] at h
  generalize ht : t.kind = kind at h
  generalize hq : (ts.head?.getD t).kind = kind' at h
  split at h
  case h_1 =>
    obtain ⟨hE₁, h⟩ := of_next hE (by simp [ht]) h
    obtain ⟨k, s₁, h₁, h⟩ := of_bind h
    obtain ⟨m₁, ts₁, τ₁, rfl, hE₂, hr₁, hb₁⟩ := ih.expr hE₁ h₁
    obtain ⟨y, ts₂, rfl, hy, hE₃, h⟩ := of_expect hE₂ (by simp) h
    obtain ⟨q, ts₃, rfl, hq, hE₄, h⟩ := of_expect hE₃ (by simp) h
    obtain ⟨e, s₂, h₂, h⟩ := of_bind h
    obtain ⟨rfl, rfl⟩ := of_pure h
    obtain ⟨m₂, next, τ, rfl, hE', hr₂, hb₂⟩ := ih.expr hE₄ h₂
    refine ⟨_, next, τ, rfl, hE', .fieldKeyed ht hr₁ hy hq hr₂, ?_⟩
    simp [bindField, bindExpr?, hb₁, hb₂]
  case h_2 x =>
    obtain ⟨hE₁, h⟩ := of_next hE (by simp [ht]) h
    obtain ⟨q, ts, rfl⟩ := List.exists_cons_of_ne_nil hE₁.ne_nil
    have hq : q.kind = .symbol .assign := hq
    obtain ⟨hE₂, h⟩ := of_next hE₁ (by simp [hq]) h
    obtain ⟨e, s₁, h₁, h⟩ := of_bind h
    obtain ⟨rfl, rfl⟩ := of_pure h
    obtain ⟨ms, next, τ, rfl, hE', hr, hb⟩ := ih.expr hE₂ h₁
    refine ⟨_, next, τ, rfl, hE', .fieldNamed ht hq hr, ?_⟩
    simp [bindField, bindExpr?, bindExpr, hb]
  case h_3 hbracket hname =>
    obtain ⟨e, s₁, h₁, h⟩ := of_bind h
    obtain ⟨rfl, rfl⟩ := of_pure h
    obtain ⟨ms, next, τ, rfl, hE', hr, hb⟩ := ih.expr hE h₁
    refine ⟨_, next, τ, rfl, hE', .fieldPlain ?_ ?_ hr, ?_⟩
    · exact fun hb => hbracket (ht.symm.trans hb)
    · intro x hx hassign
      cases ts with
      | nil => simp [kindOf] at hassign
      | cons q ts => exact hname x (ht.symm.trans hx) (hq.symm.trans hassign)
    · simp [bindField, bindExpr?, hb]

end Sound

/-- Every function of the reader, at every bound on the depth. -/
theorem sound (d : Nat) : Sound d := by
  induction d with
  | zero =>
    constructor <;> intros <;> exact absurd ‹_ = Except.ok _› tooDeep_ne
  | succ d ih =>
    exact {
      block := ih.block_succ
      statements := ih.statements_succ
      statement := ih.statement_succ
      returnStat := ih.returnStat_succ
      clause := ih.clause_succ
      elseClauses := ih.elseClauses_succ
      forLoop := ih.forLoop_succ
      loopBody := ih.loopBody_succ
      localStat := ih.localStat_succ
      exprStat := ih.exprStat_succ
      moreTargets := ih.moreTargets_succ
      funcBody := ih.funcBody_succ
      exprs := ih.exprs_succ
      expr := ih.expr_succ
      operators := ih.operators_succ
      simpleExpr := ih.simpleExpr_succ
      suffixedExpr := ih.suffixedExpr_succ
      suffixes := ih.suffixes_succ
      callArgs := ih.callArgs_succ
      table := ih.table_succ
      fields := ih.fields_succ
      field := ih.field_succ }

/-- **What the reader accepts.**  A tree that comes out of a list of tokens is derived from them in
the grammar, up to the end of the text, and its bindings are those that the tree determines. -/
theorem parseTokens_sound {tokens : List Token} {uri : Text} {c : Chunk} (hE : Ended tokens)
    (h : parseTokens tokens uri = .ok c) :
    ∃ t ts ms next σ, tokens = t :: ts ∧ Reads (.block c.body) tokens ms next ∧
      next ≠ [] ∧ kindOf next = .eof ∧ bindBlock c.body {} = some σ ∧
      c = ⟨t.pos, c.body, uri, σ.bindings⟩ := by
  obtain ⟨t, ts, rfl⟩ := List.exists_cons_of_ne_nil hE.ne_nil
  rw [parseTokens] at h
  generalize hrun : (Parse.chunk (10 * (ts.length + 2)) uri).run { tok := t, rest := ts } = run at h
  cases run with
  | error e => cases h
  | ok r =>
    obtain ⟨c', s'⟩ := r
    cases h
    have hrun : Parse.chunk (10 * (ts.length + 2)) uri (stateAt (t :: ts) {}) = .ok (c, s') := hrun
    rw [Parse.chunk, peek_bind] at hrun
    obtain ⟨b, s₁, h₁, h⟩ := of_bind hrun
    obtain ⟨ms, next, σ, rfl, hE', hr, hb⟩ := (sound _).block hE h₁
    obtain ⟨u, s₂, h₂, h⟩ := of_bind h
    rw [expect, check_bind] at h₂
    by_cases heof : kindOf next = .eof
    · rw [decide_eq_true heof, if_pos rfl] at h₂
      cases h₂
      cases h
      refine ⟨t, ts, ms, next, σ, rfl, hr, hE'.ne_nil, heof, hb, ?_⟩
      obtain ⟨u, us, rfl⟩ := List.exists_cons_of_ne_nil hE'.ne_nil
      have hu : u.kind = .eof := heof
      simp [ParseState.advance, hu]
    · rw [decide_eq_false heof, if_neg Bool.false_ne_true] at h₂
      exact absurd h₂ fail_ne

end LuaServer.Lua
