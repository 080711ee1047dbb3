/-
# Everything in the grammar is read

The converse of `Proofs/ReaderSound.lean`: the reader goes through every derivation, as long as the
effect of its tree on the variables is defined.  The proof is an induction on the derivation.  What each
function of the reader does on it is `Completes`, which also says how deep calls go: between two tokens
there are at most five, so ten for each token is enough, and a small number for what is called before
the first one.

Main result: `parseTokens_complete`.
-/
import LuaServer.Proofs.ReaderSound

namespace LuaServer.Lua

open Parse

/-! ## 1. Lists of names -/

namespace Scopes

/-- Names that keep their numbers when they are declared again are what declaring them gives. -/
theorem declareAll_of_declareNames {kind : BindingKind} {scope : Nat} {τ : Scopes} :
    ∀ {xs : List (Name × Option Attrib)} {σ : Scopes}, σ.declareNames kind scope xs = some τ →
      declareAll kind scope (xs.map fun x => (x.1.ident, x.2)) σ = (xs.map (·.1), τ)
  | [], σ, h => by
    cases h
    rfl
  | (n, a) :: xs, σ, h => by
    obtain ⟨b, -, hdeclare, -, h⟩ := declareNames_cons h
    have ih := declareAll_of_declareNames h
    simp [declareAll, hdeclare, ih]

/-- Names that were read one by one are declared as the pass over the tree declares them together. -/
theorem declareAll_of_bare {kind : BindingKind} {scope : Nat} {ns : List Name} {σ τ : Scopes}
    (h : σ.declareNames kind scope (bare ns) = some τ) :
    declareAll kind scope ((ns.map Name.ident).map fun x => (x, none)) σ = (ns, τ) := by
  have hall := declareAll_of_declareNames h
  simpa [bare, Function.comp_def] using hall

/-- A list of one name is one declaration. -/
theorem declare_of_declareNames_one {kind : BindingKind} {scope : Nat} {n : Name}
    {a : Option Attrib} {σ τ : Scopes} (h : σ.declareNames kind scope [(n, a)] = some τ) :
    σ.declare n.ident kind scope a = (n, τ) := by
  obtain ⟨b, -, hn, -, h⟩ := declareNames_cons h
  cases h
  exact hn

end Scopes

/-- The name that the reader takes from a token, which has no binding yet, is that of the tree without its
binding. -/
theorem Token.writes.ident {v : Token} {n : Name} (h : v.writes n) :
    (⟨n.name, v.pos⟩ : Ident) = n.ident := by
  rw [Name.ident, h.2]

/-- A token that writes a name is no sign. -/
theorem Token.writes.kindOf_ne {v : Token} {n : Name} (h : v.writes n) (s : Symbol)
    (ts : List Token) : kindOf (v :: ts) ≠ .symbol s := by
  simp [h.1]

section

variable {ts next : List Token} {ms : List Mark} {σ τ : Scopes}

/-- What is read before something is something too. -/
theorem ne_nil_of_tokens (h : ts = tokensOf ms ++ next) (hnext : next ≠ []) : ts ≠ [] := by
  rw [h]
  simp [hnext]

/-- Names separated by commas, with fuel for each of their tokens. -/
theorem Names.complete {ns : List Name} (h : Names ns ts ms next) (hnext : next ≠ []) {d : Nat}
    (hd : ms.length ≤ d) : names d (stateAt ts σ) = .ok (ns.map Name.ident, stateAt next σ) := by
  induction h generalizing d with
  | last hv hcomma =>
    cases d with
    | zero => simp at hd
    | succ d =>
      rw [names, bind_eq (expectName_yes hv.1 hnext), bind_eq (accept_no hcomma), hv.ident]
      rfl
  | cons hv hy htail ih =>
    cases d with
    | zero => simp at hd
    | succ d =>
      simp only [List.length_cons] at hd
      have hrest := ih hnext (show _ ≤ d by omega)
      rw [names, bind_eq (expectName_yes hv.1 (List.cons_ne_nil _ _)),
        bind_eq (accept_yes hy (by simp) (ne_nil_of_tokens htail.tokens hnext)), if_pos rfl,
        bind_eq hrest, hv.ident]
      rfl

/-- The attribute after a name, if one is written. -/
theorem Attributes.complete {a : Option Attrib} (h : Attributes a ts ms next) (hnext : next ≠ []) :
    attribute? (stateAt ts σ) = .ok (a, stateAt next σ) := by
  cases h with
  | absent hlt =>
    rw [attribute?, bind_eq (accept_no hlt)]
    rfl
  | present ht hw ha hz =>
    rw [attribute?, bind_eq (accept_yes ht (by simp) (List.cons_ne_nil _ _)), if_pos rfl,
      bind_eq (expectName_yes hw (List.cons_ne_nil _ _))]
    simp only [ha]
    rw [bind_eq (expect_yes hz (by simp) hnext)]
    rfl

/-- The names of a `local` statement with their attributes.  They are read before any of them is declared.
-/
theorem Locals.complete {xs : List (Name × Option Attrib)} (h : Locals xs ts ms next)
    (hnext : next ≠ []) {d : Nat} (hd : ms.length ≤ d) :
    attributedNames d (stateAt ts σ)
      = .ok (xs.map fun x => (x.1.ident, x.2), stateAt next σ) := by
  induction h generalizing d with
  | last hv ha hcomma =>
    cases d with
    | zero => simp at hd
    | succ d =>
      rw [attributedNames, bind_eq (expectName_yes hv.1 (ne_nil_of_tokens ha.tokens hnext)),
        bind_eq (ha.complete hnext), bind_eq (accept_no hcomma), hv.ident]
      rfl
  | cons hv ha hy htail ih =>
    cases d with
    | zero => simp at hd
    | succ d =>
      simp only [List.length_cons, List.length_append] at hd
      have hrest := ih hnext (show _ ≤ d by omega)
      rw [attributedNames,
        bind_eq (expectName_yes hv.1 (ne_nil_of_tokens ha.tokens (List.cons_ne_nil _ _))),
        bind_eq (ha.complete (List.cons_ne_nil _ _)),
        bind_eq (accept_yes hy (by simp) (ne_nil_of_tokens htail.tokens hnext)), if_pos rfl,
        bind_eq hrest, hv.ident]
      rfl

/-- Parameters are declared while they are read, from left to right. -/
theorem Params.complete {ns : List Name} {more : Bool} (h : Params ns more ts ms next)
    (hnext : next ≠ []) {d scope : Nat} (hd : ms.length ≤ d)
    (hb : σ.declareNames .param scope (bare ns) = some τ) :
    parameters scope d (stateAt ts σ) = .ok ((ns, more), stateAt next τ) := by
  induction h generalizing d σ with
  | ellipsis ht =>
    cases d with
    | zero => simp at hd
    | succ d =>
      cases hb
      rw [parameters, bind_eq (accept_yes ht (by simp) hnext)]
      rfl
  | last hv hcomma =>
    cases d with
    | zero => simp at hd
    | succ d =>
      have hn := Scopes.declare_of_declareNames_one hb
      rw [parameters, bind_eq (accept_no (hv.kindOf_ne _ _)), if_neg Bool.false_ne_true,
        bind_eq (expectName_yes hv.1 hnext), hv.ident, onScopes_bind, hn,
        bind_eq (accept_no hcomma)]
      rfl
  | cons hv hy htail ih =>
    cases d with
    | zero => simp at hd
    | succ d =>
      simp only [List.length_cons] at hd
      obtain ⟨b, -, hn, -, hb⟩ := Scopes.declareNames_cons hb
      have hrest := ih hnext (show _ ≤ d by omega) hb
      rw [parameters, bind_eq (accept_no (hv.kindOf_ne _ _)), if_neg Bool.false_ne_true,
        bind_eq (expectName_yes hv.1 (List.cons_ne_nil _ _)), hv.ident, onScopes_bind, hn,
        bind_eq (accept_yes hy (by simp) (ne_nil_of_tokens htail.tokens hnext)), if_pos rfl,
        bind_eq hrest]
      rfl

/-- Where the parenthesis closes at once, there are no parameters. -/
theorem ParamList.complete {ns : List Name} {more : Bool} (h : ParamList ns more ts ms next)
    (hnext : next ≠ []) {d scope : Nat} (hd : ms.length ≤ d)
    (hb : σ.declareNames .param scope (bare ns) = Option.some τ) :
    before (.symbol .parenClose) ([], false) (parameters scope d) (stateAt ts σ)
      = .ok ((ns, more), stateAt next τ) := by
  cases h with
  | empty hz =>
    cases hb
    exact before_yes hz
  | some hz h =>
    rw [before_no hz]
    exact h.complete hnext hd hb

/-- The fields after the name in a function statement. -/
theorem Path.complete {e r : Expr} {m : Bool} (h : Path e r m ts ms next) (hnext : next ≠ [])
    {d : Nat} (hd : ms.length < d) :
    functionName e d (stateAt ts σ) = .ok ((r, m), stateAt next σ) := by
  induction h generalizing d with
  | done hcolon hdot =>
    obtain ⟨d, rfl⟩ : ∃ d', d = d' + 1 := ⟨d - 1, by omega⟩
    rw [functionName, check_bind, check_bind, decide_eq_false hcolon, decide_eq_false hdot]
    rfl
  | method ht hk =>
    obtain ⟨d, rfl⟩ : ∃ d', d = d' + 1 := ⟨d - 1, by omega⟩
    rw [functionName, check_bind, check_bind, decide_eq_true (show kindOf (_ :: _) = _ from ht)]
    simp only [Bool.true_or, if_true]
    rw [bind_eq (next_stateAt (by simp [ht]) (List.cons_ne_nil _ _)),
      bind_eq (expectName_yes hk hnext)]
    rfl
  | field ht hk hrest ih =>
    obtain ⟨d, rfl⟩ : ∃ d', d = d' + 1 := ⟨d - 1, by omega⟩
    simp only [List.length_cons] at hd
    rw [functionName, check_bind, check_bind,
      decide_eq_false (show kindOf (_ :: _) ≠ _ by simp [ht]),
      decide_eq_true (show kindOf (_ :: _) = _ from ht)]
    simp only [Bool.or_true, if_true]
    rw [bind_eq (next_stateAt (by simp [ht]) (List.cons_ne_nil _ _)),
      bind_eq (expectName_yes hk (ne_nil_of_tokens hrest.tokens hnext))]
    exact ih hnext (by omega)

end

/-! ## 2. What the reader does on a derivation -/

/-- A step that goes through `a`, with the effect `bind`, when calls may go as deep as ten for each
token and `k` more. -/
def Runs {α : Type} (p : Nat → Parse α) (k : Nat) (a : α) (bind : Scopes → Option Scopes)
    (ts : List Token) (ms : List Mark) (next : List Token) : Prop :=
  ∀ {d : Nat} {σ τ : Scopes}, next ≠ [] → 10 * ms.length + k ≤ d → bind σ = some τ →
    p d (stateAt ts σ) = .ok (a, stateAt next τ)

/-- The same for a step that goes on from an expression `left`. -/
def Continues (p : Nat → Parse Expr) (k : Nat) (left e : Expr) (ts : List Token) (ms : List Mark)
    (next : List Token) : Prop :=
  ∀ {d : Nat} {ρ τ : Scopes}, next ≠ [] → 10 * ms.length + k ≤ d → bindExpr e ρ = some τ →
    ∃ σ, bindExpr left ρ = some σ ∧ p d (stateAt ts σ) = .ok (e, stateAt next τ)

/-- What the reader does on a part of a program. -/
def Completes (ts : List Token) (ms : List Mark) (next : List Token) : Item → Prop
  | .block b => Runs block 4 b (bindBlock b) ts ms next
  | .stmts ss => Runs statements 3 ss (bindStmts ss) ts ms next
  | .stmt s => Runs statement 2 s (bindStmt s) ts ms next
  | .clause (.mk p e b) => ∀ o : Token, o.pos = p →
    Runs (fun d => clause d o) 0 (.mk p e b) (bindClause (.mk p e b)) ts ms next
  | .elses cs => Runs elseClauses 1 cs (bindClauses cs) ts ms next
  | .orelse b => Runs (fun d => after? (.keyword .else) (block d)) 0 b (bindBlock? b) ts ms next
  | .step e => Runs (fun d => after? (.symbol .comma) (expr d 0)) 0 e (bindExpr? e) ts ms next
  | .initial vs => ∃ o : Option (List Expr), o.getD [] = vs ∧
    Runs (fun d => after? (.symbol .assign) (exprs d)) 0 o (bindExprs vs) ts ms next
  | .targets es => Runs moreTargets 1 es (bindExprs es) ts ms next
  | .func f => ∀ (o : Token) (m : Bool),
    Runs (fun d => funcBody d o m) 0 f (bindFunc m f) ts ms next
  | .exprs es => Runs exprs 3 es (bindExprs es) ts ms next
  | .expr limit e => Runs (fun d => expr d limit) 2 e (bindExpr e) ts ms next
  | .operators limit l e => Continues (fun d => operators d limit l) 1 l e ts ms next
  | .simple e => Runs simpleExpr 1 e (bindExpr e) ts ms next
  | .suffixed e => Runs suffixedExpr 0 e (bindExpr e) ts ms next
  | .suffixes l e => Continues (fun d => suffixes d l) 2 l e ts ms next
  | .args es => Runs callArgs 1 es (bindExprs es) ts ms next
  | .table e => Runs table 0 e (bindExpr e) ts ms next
  | .fields fs => Runs fields 4 fs (bindFields fs) ts ms next
  | .field f => Runs field 3 f (bindField f) ts ms next

/-- The parts of a program that have at least one token. -/
def Item.HasToken : Item → Prop
  | .block _ | .stmts _ | .elses _ | .orelse _ | .step _ | .initial _ | .targets _
  | .operators _ _ _ | .suffixes _ _ | .fields _ => False
  | _ => True

/-- Such a part is read from at least one token. -/
theorem Reads.length_pos {item : Item} {ts next : List Token} {ms : List Mark}
    (h : Reads item ts ms next) (hitem : item.HasToken) : 0 < ms.length := by
  induction h with
  -- these are read as another part that has a token
  | callStat _ _ _ _ ih | fieldPlain _ _ _ ih | exprsOne _ _ ih | tableExpr _ ih | suffixedExpr _ ih
  | argTable _ ih => exact ih trivial
  | operand _ _ _ ih _ =>
    have hpos := ih trivial
    simp only [List.length_append]
    omega
  | assign | clause | exprsCons =>
    simp only [List.length_append, List.length_cons]
    omega
  -- the others have no token, or begin with one of their own
  | _ => first
    | exact hitem.elim
    | exact Nat.succ_pos _

/-- A name or a parenthesis. -/
theorem Reads.suffixed_kindOf {e : Expr} {ts next : List Token} {ms : List Mark}
    (h : Reads (.suffixed e) ts ms next) :
    (∃ x, kindOf ts = .name x) ∨ kindOf ts = .symbol .parenOpen := by
  cases h with
  | name hv _ => exact .inl ⟨_, hv.1⟩
  | paren ht _ _ _ => exact .inr ht

/-- A table begins with its brace. -/
theorem Reads.table_kindOf {e : Expr} {ts next : List Token} {ms : List Mark}
    (h : Reads (.table e) ts ms next) : kindOf ts = .symbol .braceOpen := by
  cases h with
  | table ht _ _ => exact ht

/-- Arguments begin with a string, a brace or a parenthesis, by which the reader tells their form. -/
theorem Reads.args_kindOf {es : List Expr} {ts next : List Token} {ms : List Mark}
    (h : Reads (.args es) ts ms next) :
    (∃ x, kindOf ts = .string x) ∨ kindOf ts = .symbol .braceOpen ∨
      kindOf ts = .symbol .parenOpen := by
  cases h with
  | argString ht => exact .inl ⟨_, ht⟩
  | argTable h => exact .inr (.inl h.table_kindOf)
  | argsNone ht _ => exact .inr (.inr ht)
  | argsSome ht _ _ _ => exact .inr (.inr ht)

/-- The end of what may follow. -/
theorem Optional.complete {k : Kind} {ts next : List Token} {ms : List Mark}
    (h : Optional k ts ms next) (hk : k ≠ .eof) (hnext : next ≠ []) (σ : Scopes) :
    ∃ b, accept k (stateAt ts σ) = .ok (b, stateAt next σ) := by
  cases h with
  | absent hne => exact ⟨false, accept_no hne⟩
  | present ht => exact ⟨true, accept_yes ht hk hnext⟩

/-- A target that the pass may store to is counted as stored to, and nothing is read. -/
theorem markTarget_eq {e : Expr} {ts : List Token} {σ τ : Scopes}
    (h : σ.writeTargets [e] = some τ) : markTarget e (stateAt ts σ) = .ok ((), stateAt ts τ) := by
  cases e with
  | name n =>
    obtain ⟨ρ, hw, hρ⟩ := Option.bind_eq_some_iff.mp h
    cases hρ
    exact markWritten_eq hw
  | index p o k =>
    cases h
    rfl
  | _ => cases h

/-- The same for the targets of an assignment, which are checked when all have been read. -/
theorem checkTargets_eq {first : Token} {ts : List Token} {τ : Scopes} : ∀ {es : List Expr}
    {σ : Scopes}, σ.writeTargets es = some τ →
      checkTargets first es (stateAt ts σ) = .ok ((), stateAt ts τ)
  | [], σ, h => by
    cases h
    rfl
  | e :: es, σ, h => by
    cases e with
    | name n =>
      obtain ⟨ρ, hw, hρ⟩ := Option.bind_eq_some_iff.mp h
      rw [checkTargets, bind_eq (markWritten_eq hw)]
      exact checkTargets_eq hρ
    | index p o k =>
      have hes : σ.writeTargets es = some τ := h
      rw [checkTargets]
      exact checkTargets_eq hes
    | _ => cases h

/-- A statement that begins with a name or a parenthesis is a call or an assignment. -/
theorem statement_exprStat {ts : List Token} {σ : Scopes} {d : Nat}
    (h : (∃ x, kindOf ts = .name x) ∨ kindOf ts = .symbol .parenOpen) :
    statement (d + 1) (stateAt ts σ) = exprStat d (stateAt ts σ) := by
  rw [Parse.statement, peek_bind, stateAt_tok_kind]
  obtain ⟨x, hx⟩ | hx := h
  · simp only [hx]
  · simp only [hx]

namespace Completes

variable {t v w y y₁ y₂ z q k : Token} {ts ts₁ ts₂ ts₃ next : List Token}
  {ms m₁ m₂ m₃ m₄ : List Mark}

/-! ## 3. Blocks and statements -/

/-- What a block declared is hidden after it, by the pass and by the reader. -/
theorem block {ss : List Stmt} (ih : Completes (t :: ts) ms next (.stmts ss)) :
    Completes (t :: ts) ms next (.block (.mk t.pos ss)) := by
  intro d σ τ hnext hd hb
  obtain ⟨d, rfl⟩ : ∃ d', d = d' + 1 := ⟨d - 1, by omega⟩
  obtain ⟨ρ, hss, rfl⟩ := Option.map_eq_some_iff.mp hb
  rw [Parse.block, peek_bind, bind_eq (inScope_eq (ih hnext (by omega) hss))]
  rfl

theorem stmtsEnd (hend : endsBlock (kindOf next) = true) : Completes next [] next (.stmts []) := by
  intro d σ τ hnext hd hb
  obtain ⟨d, rfl⟩ : ∃ d', d = d' + 1 := ⟨d - 1, by omega⟩
  cases hb
  rw [statements, blockFollow_bind, hend, if_pos rfl, pure_eq]

/-- A `return`, with or without values. -/
theorem returnStat {vs : List Expr} (ht : t.kind = .keyword .return)
    (hvs : (vs = [] ∧ m₁ = [] ∧ ts₁ = ts ∧
        (endsBlock (kindOf ts) = true ∨ kindOf ts = .symbol .semicolon)) ∨
      (endsBlock (kindOf ts) = false ∧ kindOf ts ≠ .symbol .semicolon ∧
        Reads (.exprs vs) ts m₁ ts₁ ∧ Completes ts m₁ ts₁ (.exprs vs)))
    (ho : Optional (.symbol .semicolon) ts₁ m₂ next) :
    Completes (t :: ts) (.plain t :: (m₁ ++ m₂)) next (.stmts [.return t.pos vs]) := by
  intro d σ τ hnext hd hb
  simp only [List.length_cons, List.length_append] at hd
  obtain ⟨d, rfl⟩ : ∃ d', d = d' + 2 := ⟨d - 2, by omega⟩
  have hts₁ := ne_nil_of_tokens ho.tokens hnext
  have hb : bindExprs vs σ = some τ := by rwa [bindStmts_return] at hb
  have hend : endsBlock (kindOf (t :: ts)) = false := by simp [ht, endsBlock]
  have hret : kindOf (t :: ts) = .keyword .return := ht
  have hne : t.kind ≠ .eof := by simp [ht]
  rw [statements, blockFollow_bind, hend, if_neg Bool.false_ne_true, check_bind,
    decide_eq_true hret, if_pos rfl]
  have hrun : Parse.returnStat (d + 1) (stateAt (t :: ts) σ)
      = .ok (.return t.pos vs, stateAt next τ) := by
    obtain ⟨rfl, rfl, rfl, hdone⟩ | ⟨hend, hsemi, hr, ih⟩ := hvs
    · cases hb
      obtain ⟨b, haccept⟩ := ho.complete (by simp) hnext σ
      have hcond : (endsBlock (kindOf ts₁) || decide (kindOf ts₁ = .symbol .semicolon)) = true := by
        simpa using hdone
      rw [Parse.returnStat, bind_eq (next_stateAt hne hts₁), blockFollow_bind, check_bind,
        if_pos hcond, bind_eq (pure_eq _ _)]
      exact bind_eq haccept
    · obtain ⟨b, haccept⟩ := ho.complete (by simp) hnext τ
      have hcond : ¬ (endsBlock (kindOf ts) || decide (kindOf ts = .symbol .semicolon)) = true := by
        simp [hend, hsemi]
      have hts := ne_nil_of_tokens hr.tokens hts₁
      rw [Parse.returnStat, bind_eq (next_stateAt hne hts), blockFollow_bind, check_bind,
        if_neg hcond, bind_eq (ih hts₁ (by omega) hb)]
      exact bind_eq haccept
  rw [bind_eq hrun]
  rfl

theorem stmtsSkip {ss : List Stmt} (ht : t.kind = .symbol .semicolon)
    (hr : Reads (.stmts ss) ts ms next) (ih : Completes ts ms next (.stmts ss)) :
    Completes (t :: ts) (.plain t :: ms) next (.stmts ss) := by
  intro d σ τ hnext hd hb
  simp only [List.length_cons] at hd
  obtain ⟨d, rfl⟩ : ∃ d', d = d' + 1 := ⟨d - 1, by omega⟩
  have hend : endsBlock (kindOf (t :: ts)) = false := by simp [ht, endsBlock]
  have hret : kindOf (t :: ts) ≠ .keyword .return := by simp [ht]
  rw [statements, blockFollow_bind, hend, if_neg Bool.false_ne_true, check_bind,
    decide_eq_false hret, if_neg Bool.false_ne_true,
    bind_eq (accept_yes ht (by simp) (ne_nil_of_tokens hr.tokens hnext)), if_pos rfl]
  exact ih hnext (by omega) hb

/-- The fuel of a list of statements is that of the first one and of the others together. -/
theorem stmtsCons {s : Stmt} {ss : List Stmt} (hstart : startsStatement (kindOf ts))
    (hr₁ : Reads (.stmt s) ts m₁ ts₁) (hr₂ : Reads (.stmts ss) ts₁ m₂ next)
    (ih₁ : Completes ts m₁ ts₁ (.stmt s)) (ih₂ : Completes ts₁ m₂ next (.stmts ss)) :
    Completes ts (m₁ ++ m₂) next (.stmts (s :: ss)) := by
  intro d σ τ hnext hd hb
  have hpos := hr₁.length_pos trivial
  simp only [List.length_append] at hd
  obtain ⟨d, rfl⟩ : ∃ d', d = d' + 1 := ⟨d - 1, by omega⟩
  obtain ⟨hend, hret, hsemi⟩ := hstart
  obtain ⟨ρ, hs, hss⟩ := Option.bind_eq_some_iff.mp hb
  rw [statements, blockFollow_bind, hend, if_neg Bool.false_ne_true, check_bind,
    decide_eq_false hret, if_neg Bool.false_ne_true, bind_eq (accept_no hsemi),
    if_neg Bool.false_ne_true,
    bind_eq (ih₁ (ne_nil_of_tokens hr₂.tokens hnext) (by omega) hs),
    bind_eq (ih₂ hnext (by omega) hss)]
  rfl

/-- The clauses and the block after `else` are read in scopes of their own, and one `end` closes all of
them. -/
theorem ifStat {c : Expr} {b : Block} {cs : List IfClause} {o : Option Block}
    (ht : t.kind = .keyword .if) (hr₁ : Reads (.clause (.mk t.pos c b)) ts m₁ ts₁)
    (hr₂ : Reads (.elses cs) ts₁ m₂ ts₂) (hr₃ : Reads (.orelse o) ts₂ m₃ (z :: next))
    (hz : z.kind = .keyword .end) (ih₁ : Completes ts m₁ ts₁ (.clause (.mk t.pos c b)))
    (ih₂ : Completes ts₁ m₂ ts₂ (.elses cs)) (ih₃ : Completes ts₂ m₃ (z :: next) (.orelse o)) :
    Completes (t :: ts) (.plain t :: (m₁ ++ (m₂ ++ (m₃ ++ [.plain z])))) next
      (.stmt (.if t.pos (.mk t.pos c b :: cs) o)) := by
  intro d σ τ hnext hd hb
  simp only [List.length_cons, List.length_append, List.length_nil] at hd
  obtain ⟨d, rfl⟩ : ∃ d', d = d' + 1 := ⟨d - 1, by omega⟩
  have hts₂ := ne_nil_of_tokens hr₃.tokens (List.cons_ne_nil _ _)
  have hts₁ := ne_nil_of_tokens hr₂.tokens hts₂
  have hts := ne_nil_of_tokens hr₁.tokens hts₁
  obtain ⟨ρ₂, hcs, ho⟩ := Option.bind_eq_some_iff.mp hb
  obtain ⟨ρ₁, hc, hcs⟩ := Option.bind_eq_some_iff.mp hcs
  rw [Parse.statement, peek_bind]
  simp only [stateAt_tok, ht]
  rw [bind_eq (next_stateAt (by simp [ht]) hts), bind_eq (ih₁ t rfl hts₁ (by omega) hc),
    bind_eq (ih₂ hts₂ (by omega) hcs), bind_eq (ih₃ (List.cons_ne_nil _ _) (by omega) ho),
    bind_eq (expectClosing_yes hz (by simp) hnext)]
  rfl

theorem whileStat {c : Expr} {b : Block} (ht : t.kind = .keyword .while)
    (hr₁ : Reads (.expr 0 c) ts m₁ (y :: ts₁)) (hy : y.kind = .keyword .do)
    (hr₂ : Reads (.block b) ts₁ m₂ (z :: next)) (hz : z.kind = .keyword .end)
    (ih₁ : Completes ts m₁ (y :: ts₁) (.expr 0 c))
    (ih₂ : Completes ts₁ m₂ (z :: next) (.block b)) :
    Completes (t :: ts) (.plain t :: (m₁ ++ .plain y :: (m₂ ++ [.plain z]))) next
      (.stmt (.while t.pos c b)) := by
  intro d σ τ hnext hd hb
  simp only [List.length_cons, List.length_append, List.length_nil] at hd
  obtain ⟨d, rfl⟩ : ∃ d', d = d' + 1 := ⟨d - 1, by omega⟩
  have hts₁ := ne_nil_of_tokens hr₂.tokens (List.cons_ne_nil _ _)
  have hts := ne_nil_of_tokens hr₁.tokens (List.cons_ne_nil _ _)
  obtain ⟨ρ, hc, hbody⟩ := Option.bind_eq_some_iff.mp hb
  rw [Parse.statement, peek_bind]
  simp only [stateAt_tok, ht]
  rw [bind_eq (next_stateAt (by simp [ht]) hts),
    bind_eq (ih₁ (List.cons_ne_nil _ _) (by omega) hc), bind_eq (expect_yes hy (by simp) hts₁),
    bind_eq (ih₂ (List.cons_ne_nil _ _) (by omega) hbody),
    bind_eq (expectClosing_yes hz (by simp) hnext)]
  rfl

theorem doStat {b : Block} (ht : t.kind = .keyword .do) (hr : Reads (.block b) ts ms (z :: next))
    (hz : z.kind = .keyword .end) (ih : Completes ts ms (z :: next) (.block b)) :
    Completes (t :: ts) (.plain t :: (ms ++ [.plain z])) next (.stmt (.do t.pos b)) := by
  intro d σ τ hnext hd hb
  simp only [List.length_cons, List.length_append, List.length_nil] at hd
  obtain ⟨d, rfl⟩ : ∃ d', d = d' + 1 := ⟨d - 1, by omega⟩
  rw [Parse.statement, peek_bind]
  simp only [stateAt_tok, ht]
  rw [bind_eq (next_stateAt (by simp [ht]) (ne_nil_of_tokens hr.tokens (List.cons_ne_nil _ _))),
    bind_eq (ih (List.cons_ne_nil _ _) (by omega) hb),
    bind_eq (expectClosing_yes hz (by simp) hnext)]
  rfl

/-- The condition of a `repeat` is read before the locals of its body are hidden. -/
theorem repeatStat {ss : List Stmt} {c : Expr} (ht : t.kind = .keyword .repeat)
    (hy : y.kind = .keyword .until) (hr₂ : Reads (.expr 0 c) ts₁ m₂ next)
    (ih₁ : Completes (w :: ts) m₁ (y :: ts₁) (.stmts ss))
    (ih₂ : Completes ts₁ m₂ next (.expr 0 c)) :
    Completes (t :: w :: ts) (.plain t :: (m₁ ++ .plain y :: m₂)) next
      (.stmt (.repeat t.pos (.mk w.pos ss) c)) := by
  intro d σ τ hnext hd hb
  simp only [List.length_cons, List.length_append] at hd
  obtain ⟨d, rfl⟩ : ∃ d', d = d' + 1 := ⟨d - 1, by omega⟩
  have hts₁ := ne_nil_of_tokens hr₂.tokens hnext
  obtain ⟨ρ, hρ, rfl⟩ := Option.map_eq_some_iff.mp hb
  obtain ⟨ρ', hss, hc⟩ := Option.bind_eq_some_iff.mp hρ
  have hrun : (do
      let ss ← statements d
      let _ ← expectClosing (.keyword .until) t
      let cond ← expr d 0
      return (ss, cond) : Parse (List Stmt × Expr)) (stateAt (w :: ts) σ)
      = .ok ((ss, c), stateAt next ρ) := by
    rw [bind_eq (ih₁ (List.cons_ne_nil _ _) (by omega) hss),
      bind_eq (expectClosing_yes hy (by simp) hts₁), bind_eq (ih₂ hnext (by omega) hc)]
    rfl
  rw [Parse.statement, peek_bind]
  simp only [stateAt_tok, ht]
  rw [bind_eq (next_stateAt (by simp [ht]) (List.cons_ne_nil _ _)), peek_bind,
    bind_eq (inScope_eq hrun)]
  rfl

/-- The body of either loop, in which the variables of the loop are visible, up to its `end`. -/
theorem loopBody {body : Block} {ns : List Name} {σ τ : Scopes} {d : Nat} (o : Token)
    (hy : y.kind = .keyword .do) (hr : Reads (.block body) ts ms (z :: next))
    (hz : z.kind = .keyword .end) (ih : Completes ts ms (z :: next) (.block body))
    (hnext : next ≠ []) (hd : 10 * ms.length + 5 ≤ d)
    (hb : (bindBlock body (σ.activate ns)).map σ.hide = some τ) :
    Parse.loopBody d o ns (stateAt (y :: ts) σ) = .ok (body, stateAt next τ) := by
  obtain ⟨d, rfl⟩ : ∃ d', d = d' + 1 := ⟨d - 1, by omega⟩
  obtain ⟨ρ, hbody, rfl⟩ := Option.map_eq_some_iff.mp hb
  have hrun : (activate ns >>= fun _ => Parse.block d) (stateAt ts σ)
      = .ok (body, stateAt (z :: next) ρ) := by
    rw [activate_bind]
    exact ih (List.cons_ne_nil _ _) (by omega) hbody
  rw [Parse.loopBody,
    bind_eq (expect_yes hy (by simp) (ne_nil_of_tokens hr.tokens (List.cons_ne_nil _ _))),
    bind_eq (inScope_eq hrun), bind_eq (expectClosing_yes hz (by simp) hnext)]
  rfl

/-- The scope of the variable is opened first, and the variable is declared after the header was read. -/
theorem numericFor {n : Name} {a b : Expr} {o : Option Expr} {body : Block}
    (ht : t.kind = .keyword .for) (hv : v.writes n) (hq : q.kind = .symbol .assign)
    (hr₁ : Reads (.expr 0 a) ts m₁ (y₁ :: ts₁)) (hy₁ : y₁.kind = .symbol .comma)
    (hr₂ : Reads (.expr 0 b) ts₁ m₂ ts₂) (hr₃ : Reads (.step o) ts₂ m₃ (y₂ :: ts₃))
    (hy₂ : y₂.kind = .keyword .do) (hr₄ : Reads (.block body) ts₃ m₄ (z :: next))
    (hz : z.kind = .keyword .end) (ih₁ : Completes ts m₁ (y₁ :: ts₁) (.expr 0 a))
    (ih₂ : Completes ts₁ m₂ ts₂ (.expr 0 b)) (ih₃ : Completes ts₂ m₃ (y₂ :: ts₃) (.step o))
    (ih₄ : Completes ts₃ m₄ (z :: next) (.block body)) :
    Completes (t :: v :: q :: ts) (.plain t :: .named v n :: .plain q :: (m₁ ++ .plain y₁ ::
      (m₂ ++ (m₃ ++ .plain y₂ :: (m₄ ++ [.plain z]))))) next
      (.stmt (.numericFor t.pos n a b o body)) := by
  intro d σ τ hnext hd hb
  simp only [List.length_cons, List.length_append, List.length_nil] at hd
  obtain ⟨d, rfl⟩ : ∃ d', d = d' + 2 := ⟨d - 2, by omega⟩
  have hts₂ := ne_nil_of_tokens hr₃.tokens (List.cons_ne_nil _ _)
  have hts₁ := ne_nil_of_tokens hr₂.tokens hts₂
  have hts := ne_nil_of_tokens hr₁.tokens (List.cons_ne_nil _ _)
  obtain ⟨ρ₁, ha, hrest₁⟩ := Option.bind_eq_some_iff.mp hb
  obtain ⟨ρ₂, hstop, hrest₂⟩ := Option.bind_eq_some_iff.mp hrest₁
  obtain ⟨ρ₃, hstep, hrest₃⟩ := Option.bind_eq_some_iff.mp hrest₂
  obtain ⟨ρ₄, hn, hbody⟩ := Option.bind_eq_some_iff.mp hrest₃
  have hn := Scopes.declare_of_declareNames_one hn
  have hloop := loopBody t hy₂ hr₄ hz ih₄ hnext (show _ ≤ d by omega) hbody
  rw [Parse.statement, peek_bind]
  simp only [stateAt_tok, ht]
  rw [bind_eq (next_stateAt (by simp [ht]) (List.cons_ne_nil _ _)), Parse.forLoop,
    bind_eq (expectName_yes hv.1 (List.cons_ne_nil _ _)), onScopes_bind,
    bind_eq (accept_yes hq (by simp) hts), if_pos rfl,
    bind_eq (ih₁ (List.cons_ne_nil _ _) (by omega) ha), bind_eq (expect_yes hy₁ (by simp) hts₁),
    bind_eq (ih₂ hts₂ (by omega) hstop), bind_eq (ih₃ (List.cons_ne_nil _ _) (by omega) hstep),
    onScopes_bind, hv.ident, hn, bind_eq hloop]
  rfl

/-- The variables of a loop over an iterator are named before the header, and declared after it. -/
theorem genericFor {ns : List Name} {vs : List Expr} {body : Block} (ht : t.kind = .keyword .for)
    (hns : Names ns ts m₁ (y₁ :: ts₁)) (hy₁ : y₁.kind = .keyword .in)
    (hr₁ : Reads (.exprs vs) ts₁ m₂ (y₂ :: ts₂)) (hy₂ : y₂.kind = .keyword .do)
    (hr₂ : Reads (.block body) ts₂ m₃ (z :: next)) (hz : z.kind = .keyword .end)
    (ih₁ : Completes ts₁ m₂ (y₂ :: ts₂) (.exprs vs))
    (ih₂ : Completes ts₂ m₃ (z :: next) (.block body)) :
    Completes (t :: ts) (.plain t :: (m₁ ++ .plain y₁ :: (m₂ ++ .plain y₂ :: (m₃ ++ [.plain z]))))
      next (.stmt (.genericFor t.pos ns vs body)) := by
  intro d σ τ hnext hd hb
  simp only [List.length_cons, List.length_append, List.length_nil] at hd
  obtain ⟨d, rfl⟩ : ∃ d', d = d' + 2 := ⟨d - 2, by omega⟩
  have hts₁ := ne_nil_of_tokens hr₁.tokens (List.cons_ne_nil _ _)
  have hts := ne_nil_of_tokens hns.tokens (List.cons_ne_nil _ _)
  obtain ⟨ρ₁, hvs, hrest⟩ := Option.bind_eq_some_iff.mp hb
  obtain ⟨ρ₂, hdecl, hbody⟩ := Option.bind_eq_some_iff.mp hrest
  have hdecl := Scopes.declareAll_of_bare hdecl
  have hloop := loopBody t hy₂ hr₂ hz ih₂ hnext (show _ ≤ d by omega) hbody
  rw [Parse.statement, peek_bind]
  simp only [stateAt_tok, ht]
  rw [bind_eq (next_stateAt (by simp [ht]) hts), Parse.forLoop]
  cases hns with
  | last hv hcomma =>
    have hassign : kindOf (y₁ :: ts₁) ≠ .symbol .assign := by simp [hy₁]
    have hin : kindOf (y₁ :: ts₁) = .keyword .in := hy₁
    rw [bind_eq (expectName_yes hv.1 (List.cons_ne_nil _ _)), onScopes_bind,
      bind_eq (accept_no hassign), if_neg Bool.false_ne_true, check_bind, check_bind,
      decide_eq_true hin, Bool.or_true, if_pos rfl, bind_eq (after?_no hcomma),
      bind_eq (expect_yes hy₁ (by simp) hts₁), bind_eq (ih₁ (List.cons_ne_nil _ _) (by omega) hvs),
      onScopes_bind, hv.ident, Option.getD_none, ← List.map_singleton, hdecl, bind_eq hloop]
    rfl
  | @cons _ ts' ms' _ _ _ y' hv hy htail =>
    have hassign : kindOf (y' :: ts') ≠ .symbol .assign := by simp [hy]
    have hin : kindOf (y' :: ts') = .symbol .comma := hy
    have hlen : ms'.length ≤ d := by
      simp only [List.length_cons] at hd
      omega
    rw [bind_eq (expectName_yes hv.1 (List.cons_ne_nil _ _)), onScopes_bind,
      bind_eq (accept_no hassign), if_neg Bool.false_ne_true, check_bind, check_bind,
      decide_eq_true hin, Bool.true_or, if_pos rfl,
      bind_eq (after?_yes hy (by simp) (ne_nil_of_tokens htail.tokens (List.cons_ne_nil _ _))
        (htail.complete (List.cons_ne_nil _ _) hlen)),
      bind_eq (expect_yes hy₁ (by simp) hts₁), bind_eq (ih₁ (List.cons_ne_nil _ _) (by omega) hvs),
      onScopes_bind, hv.ident, Option.getD_some, ← List.map_cons, hdecl, bind_eq hloop]
    rfl

/-- The parameters are declared in a scope of their own, and are visible in the body. -/
theorem func {ns : List Name} {more : Bool} {b : Block} (ht : t.kind = .symbol .parenOpen)
    (hps : ParamList ns more ts m₁ (y :: ts₁)) (hy : y.kind = .symbol .parenClose)
    (hr : Reads (.block b) ts₁ m₂ (z :: next)) (hz : z.kind = .keyword .end)
    (ih : Completes ts₁ m₂ (z :: next) (.block b)) :
    Completes (t :: ts) (.plain t :: (m₁ ++ .plain y :: (m₂ ++ [.plain z]))) next
      (.func (.mk t.pos ns more b)) := by
  intro o m d σ τ hnext hd hb
  simp only [List.length_cons, List.length_append, List.length_nil] at hd
  obtain ⟨d, rfl⟩ : ∃ d', d = d' + 1 := ⟨d - 1, by omega⟩
  have hts₁ := ne_nil_of_tokens hr.tokens (List.cons_ne_nil _ _)
  have hts := ne_nil_of_tokens hps.tokens (List.cons_ne_nil _ _)
  rw [bindFunc] at hb
  obtain ⟨ρ, hparams, hrest⟩ := Option.bind_eq_some_iff.mp hb
  obtain ⟨ρ', hbody, rfl⟩ := Option.map_eq_some_iff.mp hrest
  have hrun : (do
      onScopes fun σ' => ((), σ'.activateSelf (σ.newScope.2.declareSelf m σ.newScope.1).1)
      activate ns
      Parse.block d) (stateAt ts₁ ρ) = .ok (b, stateAt (z :: next) ρ') := by
    rw [onScopes_bind, activate_bind]
    exact ih (List.cons_ne_nil _ _) (by omega) hbody
  have hlist := hps.complete (List.cons_ne_nil _ _) (show _ ≤ d by omega) hparams
  show Parse.funcBody (d + 1) o m (stateAt (t :: ts) σ) = _
  rw [Parse.funcBody, bind_eq (expect_yes ht (by simp) hts), onScopes_bind, onScopes_bind,
    bind_eq hlist]
  dsimp only
  rw [bind_eq (expect_yes hy (by simp) hts₁), bind_eq (inScope_eq hrun),
    bind_eq (expectClosing_yes hz (by simp) hnext)]
  rfl

/-- The name of a function statement is read as an expression, and counted as stored to before the body.
-/
theorem functionStat {n : Name} {target : Expr} {m : Bool} {f : FuncBody}
    (ht : t.kind = .keyword .function) (hv : v.writes n) (hp : Path (.name n) target m ts m₁ ts₁)
    (hr : Reads (.func f) ts₁ m₂ next) (ih : Completes ts₁ m₂ next (.func f)) :
    Completes (t :: v :: ts) (.plain t :: .named v n :: (m₁ ++ m₂)) next
      (.stmt (.function t.pos target f m)) := by
  intro d σ τ hnext hd hb
  simp only [List.length_cons, List.length_append] at hd
  obtain ⟨d, rfl⟩ : ∃ d', d = d' + 1 := ⟨d - 1, by omega⟩
  have hts₁ := ne_nil_of_tokens hr.tokens hnext
  have hts := ne_nil_of_tokens hp.tokens hts₁
  obtain ⟨ρ, htarget, hrest⟩ := Option.bind_eq_some_iff.mp hb
  obtain ⟨ρ', hwrite, hf⟩ := Option.bind_eq_some_iff.mp hrest
  rw [hp.bindExpr_eq, bindExpr] at htarget
  have href := Scopes.reference_of_useName htarget
  have hmark : markTarget target (stateAt ts₁ ρ) = .ok ((), stateAt ts₁ ρ') :=
    markTarget_eq hwrite
  rw [Parse.statement, peek_bind]
  simp only [stateAt_tok, ht]
  rw [bind_eq (next_stateAt (by simp [ht]) (List.cons_ne_nil _ _)),
    bind_eq (expectName_yes hv.1 hts), onScopes_bind, hv.ident, href,
    bind_eq (hp.complete hts₁ (show _ < d by omega))]
  dsimp only
  rw [bind_eq hmark, bind_eq (ih t m hnext (by omega) hf)]
  rfl

/-- The name of a local function is visible in its body. -/
theorem localFunction {n : Name} {f : FuncBody} (ht : t.kind = .keyword .local)
    (hw : w.kind = .keyword .function) (hv : v.writes n) (hr : Reads (.func f) ts ms next)
    (ih : Completes ts ms next (.func f)) :
    Completes (t :: w :: v :: ts) (.plain t :: .plain w :: .named v n :: ms) next
      (.stmt (.localFunction t.pos n f)) := by
  intro d σ τ hnext hd hb
  simp only [List.length_cons] at hd
  obtain ⟨d, rfl⟩ : ∃ d', d = d' + 2 := ⟨d - 2, by omega⟩
  obtain ⟨ρ, hn, hf⟩ := Option.bind_eq_some_iff.mp hb
  have hn := Scopes.declare_of_declareNames_one hn
  have hw' : kindOf (w :: v :: ts) = .keyword .function := hw
  rw [Parse.statement, peek_bind]
  simp only [stateAt_tok, ht]
  rw [bind_eq (next_stateAt (by simp [ht]) (List.cons_ne_nil _ _)), Parse.localStat, check_bind,
    decide_eq_true hw', if_pos rfl, bind_eq (next_stateAt (by simp [hw]) (List.cons_ne_nil _ _)),
    bind_eq (expectName_yes hv.1 (ne_nil_of_tokens hr.tokens hnext)), onScopes_bind,
    onScopes_bind, hv.ident, hn, activate_bind, bind_eq (ih w false hnext (by omega) hf)]
  rfl

/-- The values of a `local` statement are read before its names are declared. -/
theorem localStat {xs : List (Name × Option Attrib)} {vs : List Expr}
    (ht : t.kind = .keyword .local) (hxs : Locals xs ts m₁ ts₁)
    (hr : Reads (.initial vs) ts₁ m₂ next) (ih : Completes ts₁ m₂ next (.initial vs)) :
    Completes (t :: ts) (.plain t :: (m₁ ++ m₂)) next
      (.stmt (.local t.pos (xs.map (·.1)) (xs.map (·.2)) vs)) := by
  intro d σ τ hnext hd hb
  simp only [List.length_cons, List.length_append] at hd
  obtain ⟨d, rfl⟩ : ∃ d', d = d' + 2 := ⟨d - 2, by omega⟩
  have hts₁ := ne_nil_of_tokens hr.tokens hnext
  have hts := ne_nil_of_tokens hxs.tokens hts₁
  obtain ⟨ρ, hvs, hrest⟩ := Option.bind_eq_some_iff.mp hb
  obtain ⟨ρ', hdecl, rfl⟩ := Option.map_eq_some_iff.mp hrest
  rw [withAttribs_map] at hdecl
  have hdecl := Scopes.declareAll_of_declareNames hdecl
  obtain ⟨o, rfl, hrun⟩ := ih
  have hfunction : kindOf ts ≠ .keyword .function := by
    cases hxs with
    | last hv _ _ => simp [hv.1]
    | cons hv _ _ _ => simp [hv.1]
  rw [Parse.statement, peek_bind]
  simp only [stateAt_tok, ht]
  rw [bind_eq (next_stateAt (by simp [ht]) hts), Parse.localStat, check_bind,
    decide_eq_false hfunction, if_neg Bool.false_ne_true, onScopes_bind,
    bind_eq (hxs.complete hts₁ (show _ ≤ d by omega)), bind_eq (hrun hnext (by omega) hvs),
    onScopes_bind, hdecl, activate_bind]
  simp [pure_eq, Function.comp_def]

/-- The targets are counted as stored to before the values are read. -/
theorem assign {e : Expr} {es vs : List Expr} (hr₁ : Reads (.suffixed e) (t :: ts) m₁ ts₁)
    (hr₂ : Reads (.targets es) ts₁ m₂ (q :: ts₂)) (hq : q.kind = .symbol .assign)
    (hr₃ : Reads (.exprs vs) ts₂ m₃ next) (ih₁ : Completes (t :: ts) m₁ ts₁ (.suffixed e))
    (ih₂ : Completes ts₁ m₂ (q :: ts₂) (.targets es)) (ih₃ : Completes ts₂ m₃ next (.exprs vs)) :
    Completes (t :: ts) (m₁ ++ (m₂ ++ .plain q :: m₃)) next (.stmt (.assign t.pos (e :: es) vs)) := by
  intro d σ τ hnext hd hb
  have hpos := hr₁.length_pos trivial
  simp only [List.length_cons, List.length_append] at hd
  obtain ⟨d, rfl⟩ : ∃ d', d = d' + 2 := ⟨d - 2, by omega⟩
  have hts₂ := ne_nil_of_tokens hr₃.tokens hnext
  have hts₁ := ne_nil_of_tokens hr₂.tokens (List.cons_ne_nil _ _)
  obtain ⟨ρ₂, htargets, hrest⟩ := Option.bind_eq_some_iff.mp hb
  obtain ⟨ρ₃, hwrite, hvs⟩ := Option.bind_eq_some_iff.mp hrest
  obtain ⟨ρ₁, he, hes⟩ := Option.bind_eq_some_iff.mp htargets
  have hfollow : (decide (kindOf ts₁ = .symbol .assign) || decide (kindOf ts₁ = .symbol .comma))
      = true := by
    cases hr₂ with
    | targetsEnd _ => simp [hq]
    | targetsCons ht _ _ => simp [ht]
  rw [statement_exprStat hr₁.suffixed_kindOf, Parse.exprStat, peek_bind,
    bind_eq (ih₁ hts₁ (by omega) he), check_bind, check_bind, if_pos hfollow,
    bind_eq (ih₂ (List.cons_ne_nil _ _) (by omega) hes), bind_eq (expect_yes hq (by simp) hts₂),
    bind_eq (checkTargets_eq hwrite), bind_eq (ih₃ hnext (by omega) hvs)]
  rfl

/-- An expression is a statement where nothing is assigned and where it is a call. -/
theorem callStat {e : Expr} (hr : Reads (.suffixed e) (t :: ts) ms next) (hcall : e.isCall = true)
    (hassign : kindOf next ≠ .symbol .assign) (hcomma : kindOf next ≠ .symbol .comma)
    (ih : Completes (t :: ts) ms next (.suffixed e)) :
    Completes (t :: ts) ms next (.stmt (.call t.pos e)) := by
  intro d σ τ hnext hd hb
  obtain ⟨d, rfl⟩ : ∃ d', d = d' + 2 := ⟨d - 2, by omega⟩
  have hfollow : ¬ (decide (kindOf next = .symbol .assign) || decide (kindOf next = .symbol .comma))
      = true := by simp [hassign, hcomma]
  rw [statement_exprStat hr.suffixed_kindOf, Parse.exprStat, peek_bind,
    bind_eq (ih hnext (by omega) hb), check_bind, check_bind, if_neg hfollow, if_pos hcall]
  rfl

theorem clause {p : Pos} {c : Expr} {b : Block} (hy : y.kind = .keyword .then)
    (hr₂ : Reads (.block b) ts₁ m₂ next)
    (ih₁ : Completes ts m₁ (y :: ts₁) (.expr 0 c)) (ih₂ : Completes ts₁ m₂ next (.block b)) :
    Completes ts (m₁ ++ .plain y :: m₂) next (.clause (.mk p c b)) := by
  intro o ho d σ τ hnext hd hb
  simp only [List.length_cons, List.length_append] at hd
  obtain ⟨d, rfl⟩ : ∃ d', d = d' + 1 := ⟨d - 1, by omega⟩
  obtain ⟨ρ, hc, hbody⟩ := Option.bind_eq_some_iff.mp hb
  show Parse.clause (d + 1) o (stateAt ts σ) = _
  rw [Parse.clause, bind_eq (ih₁ (List.cons_ne_nil _ _) (by omega) hc),
    bind_eq (expect_yes hy (by simp) (ne_nil_of_tokens hr₂.tokens hnext)),
    bind_eq (ih₂ hnext (by omega) hbody), ho]
  rfl

theorem breakStat (ht : t.kind = .keyword .break) :
    Completes (t :: next) [.plain t] next (.stmt (.break t.pos)) := by
  intro d σ τ hnext hd hb
  obtain ⟨d, rfl⟩ : ∃ d', d = d' + 1 := ⟨d - 1, by omega⟩
  cases hb
  rw [Parse.statement, peek_bind]
  simp only [stateAt_tok, ht]
  rw [bind_eq (next_stateAt (by simp [ht]) hnext)]
  rfl

theorem gotoStat {x : Text} (ht : t.kind = .keyword .goto) (hk : k.kind = .name x) :
    Completes (t :: k :: next) [.plain t, .plain k] next (.stmt (.goto t.pos x)) := by
  intro d σ τ hnext hd hb
  obtain ⟨d, rfl⟩ : ∃ d', d = d' + 1 := ⟨d - 1, by omega⟩
  cases hb
  rw [Parse.statement, peek_bind]
  simp only [stateAt_tok, ht]
  rw [bind_eq (next_stateAt (by simp [ht]) (List.cons_ne_nil _ _)),
    bind_eq (expectName_yes hk hnext)]
  rfl

theorem labelStat {x : Text} (ht : t.kind = .symbol .colons) (hk : k.kind = .name x)
    (hz : z.kind = .symbol .colons) :
    Completes (t :: k :: z :: next) [.plain t, .plain k, .plain z] next
      (.stmt (.label t.pos x)) := by
  intro d σ τ hnext hd hb
  obtain ⟨d, rfl⟩ : ∃ d', d = d' + 1 := ⟨d - 1, by omega⟩
  cases hb
  rw [Parse.statement, peek_bind]
  simp only [stateAt_tok, ht]
  rw [bind_eq (next_stateAt (by simp [ht]) (List.cons_ne_nil _ _)),
    bind_eq (expectName_yes hk (List.cons_ne_nil _ _)), bind_eq (expect_yes hz (by simp) hnext)]
  rfl

theorem orelseNone (helse : kindOf next ≠ .keyword .else) :
    Completes next [] next (.orelse none) := by
  intro d σ τ hnext hd hb
  cases hb
  exact after?_no helse

theorem stepNone (hcomma : kindOf next ≠ .symbol .comma) : Completes next [] next (.step none) := by
  intro d σ τ hnext hd hb
  cases hb
  exact after?_no hcomma

theorem initialNone (hassign : kindOf next ≠ .symbol .assign) :
    Completes next [] next (.initial []) := by
  refine ⟨none, rfl, ?_⟩
  intro d σ τ hnext hd hb
  cases hb
  exact after?_no hassign

theorem elsesEnd (helse : kindOf next ≠ .keyword .elseif) :
    Completes next [] next (.elses []) := by
  intro d σ τ hnext hd hb
  obtain ⟨d, rfl⟩ : ∃ d', d = d' + 1 := ⟨d - 1, by omega⟩
  cases hb
  rw [elseClauses, check_bind, decide_eq_false helse]
  rfl

theorem elsesCons {c : Expr} {b : Block} {cs : List IfClause} (ht : t.kind = .keyword .elseif)
    (hr₁ : Reads (.clause (.mk t.pos c b)) ts m₁ ts₁) (hr₂ : Reads (.elses cs) ts₁ m₂ next)
    (ih₁ : Completes ts m₁ ts₁ (.clause (.mk t.pos c b)))
    (ih₂ : Completes ts₁ m₂ next (.elses cs)) :
    Completes (t :: ts) (.plain t :: (m₁ ++ m₂)) next (.elses (.mk t.pos c b :: cs)) := by
  intro d σ τ hnext hd hb
  simp only [List.length_cons, List.length_append] at hd
  obtain ⟨d, rfl⟩ : ∃ d', d = d' + 1 := ⟨d - 1, by omega⟩
  have hts₁ := ne_nil_of_tokens hr₂.tokens hnext
  have hts := ne_nil_of_tokens hr₁.tokens hts₁
  have helse : kindOf (t :: ts) = .keyword .elseif := ht
  obtain ⟨ρ, hc, hcs⟩ := Option.bind_eq_some_iff.mp hb
  rw [elseClauses, check_bind, decide_eq_true helse, if_pos rfl,
    bind_eq (next_stateAt (by simp [ht]) hts), bind_eq (ih₁ t rfl hts₁ (by omega) hc),
    bind_eq (ih₂ hnext (by omega) hcs)]
  rfl

theorem orelseSome {b : Block} (ht : t.kind = .keyword .else) (hr : Reads (.block b) ts ms next)
    (ih : Completes ts ms next (.block b)) :
    Completes (t :: ts) (.plain t :: ms) next (.orelse (some b)) := by
  intro d σ τ hnext hd hb
  simp only [List.length_cons] at hd
  exact after?_yes ht (by simp) (ne_nil_of_tokens hr.tokens hnext) (ih hnext (by omega) hb)

theorem stepSome {e : Expr} (ht : t.kind = .symbol .comma) (hr : Reads (.expr 0 e) ts ms next)
    (ih : Completes ts ms next (.expr 0 e)) :
    Completes (t :: ts) (.plain t :: ms) next (.step (some e)) := by
  intro d σ τ hnext hd hb
  simp only [List.length_cons] at hd
  exact after?_yes ht (by simp) (ne_nil_of_tokens hr.tokens hnext) (ih hnext (by omega) hb)

theorem initialSome {vs : List Expr} (ht : t.kind = .symbol .assign)
    (hr : Reads (.exprs vs) ts ms next) (ih : Completes ts ms next (.exprs vs)) :
    Completes (t :: ts) (.plain t :: ms) next (.initial vs) := by
  refine ⟨some vs, rfl, ?_⟩
  intro d σ τ hnext hd hb
  simp only [List.length_cons] at hd
  exact after?_yes ht (by simp) (ne_nil_of_tokens hr.tokens hnext) (ih hnext (by omega) hb)

theorem targetsEnd (hcomma : kindOf next ≠ .symbol .comma) :
    Completes next [] next (.targets []) := by
  intro d σ τ hnext hd hb
  obtain ⟨d, rfl⟩ : ∃ d', d = d' + 1 := ⟨d - 1, by omega⟩
  cases hb
  rw [moreTargets, bind_eq (accept_no hcomma)]
  rfl

theorem targetsCons {e : Expr} {es : List Expr} (ht : t.kind = .symbol .comma)
    (hr₁ : Reads (.suffixed e) ts m₁ ts₁) (hr₂ : Reads (.targets es) ts₁ m₂ next)
    (ih₁ : Completes ts m₁ ts₁ (.suffixed e)) (ih₂ : Completes ts₁ m₂ next (.targets es)) :
    Completes (t :: ts) (.plain t :: (m₁ ++ m₂)) next (.targets (e :: es)) := by
  intro d σ τ hnext hd hb
  simp only [List.length_cons, List.length_append] at hd
  obtain ⟨d, rfl⟩ : ∃ d', d = d' + 1 := ⟨d - 1, by omega⟩
  have hts₁ := ne_nil_of_tokens hr₂.tokens hnext
  have hts := ne_nil_of_tokens hr₁.tokens hts₁
  obtain ⟨ρ, he, hes⟩ := Option.bind_eq_some_iff.mp hb
  rw [moreTargets, bind_eq (accept_yes ht (by simp) hts), if_pos rfl,
    bind_eq (ih₁ hts₁ (by omega) he), bind_eq (ih₂ hnext (by omega) hes)]
  rfl

/-! ## 4. Expressions -/

theorem exprsOne {e : Expr} (hcomma : kindOf next ≠ .symbol .comma)
    (ih : Completes ts ms next (.expr 0 e)) : Completes ts ms next (.exprs [e]) := by
  intro d σ τ hnext hd hb
  obtain ⟨d, rfl⟩ : ∃ d', d = d' + 1 := ⟨d - 1, by omega⟩
  have hb : bindExpr e σ = some τ := by simpa [bindExprs] using hb
  rw [exprs, bind_eq (ih hnext (by omega) hb), bind_eq (accept_no hcomma)]
  rfl

theorem exprsCons {e : Expr} {es : List Expr} (hy : y.kind = .symbol .comma)
    (hr : Reads (.exprs es) ts₁ m₂ next) (ih₁ : Completes ts m₁ (y :: ts₁) (.expr 0 e))
    (ih₂ : Completes ts₁ m₂ next (.exprs es)) :
    Completes ts (m₁ ++ .plain y :: m₂) next (.exprs (e :: es)) := by
  intro d σ τ hnext hd hb
  simp only [List.length_cons, List.length_append] at hd
  obtain ⟨d, rfl⟩ : ∃ d', d = d' + 1 := ⟨d - 1, by omega⟩
  obtain ⟨ρ, he, hes⟩ := Option.bind_eq_some_iff.mp hb
  rw [exprs, bind_eq (ih₁ (List.cons_ne_nil _ _) (by omega) he),
    bind_eq (accept_yes hy (by simp) (ne_nil_of_tokens hr.tokens hnext)), if_pos rfl,
    bind_eq (ih₂ hnext (by omega) hes)]
  rfl

/-- The operand of a sign before an operand holds more strongly than any operator but the power. -/
theorem unary {op : UnaryOp} {e r : Expr} {limit : Nat} (hop : UnaryOp.ofKind? t.kind = some op)
    (hr₁ : Reads (.expr UnaryOp.power e) ts m₁ ts₁)
    (hr₂ : Reads (.operators limit (.unary t.pos op e) r) ts₁ m₂ next)
    (ih₁ : Completes ts m₁ ts₁ (.expr UnaryOp.power e))
    (ih₂ : Completes ts₁ m₂ next (.operators limit (.unary t.pos op e) r)) :
    Completes (t :: ts) (.plain t :: (m₁ ++ m₂)) next (.expr limit r) := by
  intro d σ τ hnext hd hb
  simp only [List.length_cons, List.length_append] at hd
  obtain ⟨d, rfl⟩ : ∃ d', d = d' + 1 := ⟨d - 1, by omega⟩
  have hts₁ := ne_nil_of_tokens hr₂.tokens hnext
  have hts := ne_nil_of_tokens hr₁.tokens hts₁
  have hne : t.kind ≠ .eof := by
    intro heof
    simp [heof, UnaryOp.ofKind?] at hop
  obtain ⟨ρ, he, hrun⟩ := ih₂ hnext (show _ ≤ d by omega) hb
  show Parse.expr (d + 1) limit (stateAt (t :: ts) σ) = _
  rw [Parse.expr, peek_bind]
  simp only [stateAt_tok, hop]
  rw [bind_eq (next_stateAt hne hts), bind_eq (ih₁ hts₁ (by omega) he)]
  exact hrun

/-- Without a sign before it an operand is followed by the operators that hold it strongly enough. -/
theorem operand {e r : Expr} {limit : Nat} (hop : UnaryOp.ofKind? (kindOf ts) = none)
    (hr₁ : Reads (.simple e) ts m₁ ts₁) (hr₂ : Reads (.operators limit e r) ts₁ m₂ next)
    (ih₁ : Completes ts m₁ ts₁ (.simple e))
    (ih₂ : Completes ts₁ m₂ next (.operators limit e r)) :
    Completes ts (m₁ ++ m₂) next (.expr limit r) := by
  intro d σ τ hnext hd hb
  have hpos := hr₁.length_pos trivial
  simp only [List.length_append] at hd
  obtain ⟨d, rfl⟩ : ∃ d', d = d' + 1 := ⟨d - 1, by omega⟩
  have hts₁ := ne_nil_of_tokens hr₂.tokens hnext
  obtain ⟨ρ, he, hrun⟩ := ih₂ hnext (show _ ≤ d by omega) hb
  show Parse.expr (d + 1) limit (stateAt ts σ) = _
  rw [Parse.expr, peek_bind]
  simp only [stateAt_tok_kind, hop]
  rw [bind_eq (ih₁ hts₁ (by omega) he)]
  exact hrun

/-- The reader stops before an operator that does not hold its left operand strongly enough. -/
theorem operatorsEnd {limit : Nat} {e : Expr}
    (hop : ∀ op, BinaryOp.ofKind? (kindOf next) = some op → op.leftPower ≤ limit) :
    Completes next [] next (.operators limit e e) := by
  intro d ρ τ hnext hd hb
  obtain ⟨d, rfl⟩ : ∃ d', d = d' + 1 := ⟨d - 1, by omega⟩
  refine ⟨τ, hb, ?_⟩
  show Parse.operators (d + 1) limit e (stateAt next τ) = _
  rw [Parse.operators, peek_bind]
  simp only [stateAt_tok_kind]
  cases hkind : BinaryOp.ofKind? (kindOf next) with
  | none => rfl
  | some op =>
    simp only [if_pos (hop op hkind)]
    rfl

/-- The right operand of an operator takes the operators after it that hold more strongly. -/
theorem operator {op : BinaryOp} {limit : Nat} {l r e : Expr}
    (hop : BinaryOp.ofKind? t.kind = some op) (hlimit : limit < op.leftPower)
    (hr₁ : Reads (.expr op.rightPower r) ts m₁ ts₁)
    (hr₂ : Reads (.operators limit (.binary t.pos op l r) e) ts₁ m₂ next)
    (ih₁ : Completes ts m₁ ts₁ (.expr op.rightPower r))
    (ih₂ : Completes ts₁ m₂ next (.operators limit (.binary t.pos op l r) e)) :
    Completes (t :: ts) (.plain t :: (m₁ ++ m₂)) next (.operators limit l e) := by
  intro d ρ τ hnext hd hb
  simp only [List.length_cons, List.length_append] at hd
  obtain ⟨d, rfl⟩ : ∃ d', d = d' + 1 := ⟨d - 1, by omega⟩
  have hts₁ := ne_nil_of_tokens hr₂.tokens hnext
  have hts := ne_nil_of_tokens hr₁.tokens hts₁
  have hne : t.kind ≠ .eof := by
    intro heof
    simp [heof, BinaryOp.ofKind?] at hop
  obtain ⟨σ', hbinary, hrun⟩ := ih₂ hnext (show _ ≤ d by omega) hb
  obtain ⟨σ, hl, hr⟩ := Option.bind_eq_some_iff.mp hbinary
  refine ⟨σ, hl, ?_⟩
  show Parse.operators (d + 1) limit l (stateAt (t :: ts) σ) = _
  rw [Parse.operators, peek_bind]
  simp only [stateAt_tok, hop]
  rw [if_neg (Nat.not_le.mpr hlimit), bind_eq (next_stateAt hne hts),
    bind_eq (ih₁ hts₁ (by omega) hr)]
  exact hrun

/-- An operand of one token. -/
theorem literal {e : Expr} (hne : t.kind ≠ .eof) (hb : ∀ σ, bindExpr e σ = some σ)
    (hrun : ∀ {d : Nat} {σ : Scopes}, simpleExpr (d + 1) (stateAt (t :: next) σ)
      = (Parse.next >>= fun _ => pure e) (stateAt (t :: next) σ)) :
    Completes (t :: next) [.plain t] next (.simple e) := by
  intro d σ τ hnext hd hτ
  simp only [List.length_cons, List.length_nil] at hd
  obtain ⟨d, rfl⟩ : ∃ d', d = d' + 1 := ⟨d - 1, by omega⟩
  obtain rfl := Option.some.inj ((hb σ).symm.trans hτ)
  rw [hrun, bind_eq (next_stateAt hne hnext)]
  rfl

theorem tableExpr {e : Expr} (hr : Reads (.table e) ts ms next)
    (ih : Completes ts ms next (.table e)) : Completes ts ms next (.simple e) := by
  intro d σ τ hnext hd hb
  obtain ⟨d, rfl⟩ : ∃ d', d = d' + 1 := ⟨d - 1, by omega⟩
  rw [simpleExpr, peek_bind]
  simp only [stateAt_tok_kind, hr.table_kindOf]
  exact ih hnext (by omega) hb

theorem functionExpr {f : FuncBody} (ht : t.kind = .keyword .function)
    (hr : Reads (.func f) ts ms next) (ih : Completes ts ms next (.func f)) :
    Completes (t :: ts) (.plain t :: ms) next (.simple (.function t.pos f)) := by
  intro d σ τ hnext hd hb
  simp only [List.length_cons] at hd
  obtain ⟨d, rfl⟩ : ∃ d', d = d' + 1 := ⟨d - 1, by omega⟩
  rw [simpleExpr, peek_bind]
  simp only [stateAt_tok, ht]
  rw [bind_eq (next_stateAt (by simp [ht]) (ne_nil_of_tokens hr.tokens hnext)),
    bind_eq (ih t false hnext (by omega) hb)]
  rfl

theorem suffixedExpr {e : Expr} (hr : Reads (.suffixed e) ts ms next)
    (ih : Completes ts ms next (.suffixed e)) : Completes ts ms next (.simple e) := by
  intro d σ τ hnext hd hb
  obtain ⟨d, rfl⟩ : ∃ d', d = d' + 1 := ⟨d - 1, by omega⟩
  have hrun := ih hnext (show _ ≤ d by omega) hb
  rw [simpleExpr, peek_bind]
  simp only [stateAt_tok_kind]
  obtain ⟨x, hx⟩ | hx := hr.suffixed_kindOf
  · simp only [hx]
    exact hrun
  · simp only [hx]
    exact hrun

/-- An expression that begins with a name uses its binding. -/
theorem name {n : Name} {e : Expr} (hv : v.writes n)
    (hr : Reads (.suffixes (.name n) e) ts ms next)
    (ih : Completes ts ms next (.suffixes (.name n) e)) :
    Completes (v :: ts) (.named v n :: ms) next (.suffixed e) := by
  intro d σ τ hnext hd hb
  simp only [List.length_cons] at hd
  obtain ⟨d, rfl⟩ : ∃ d', d = d' + 1 := ⟨d - 1, by omega⟩
  obtain ⟨ρ, hn, hrun⟩ := ih hnext (show _ ≤ d by omega) hb
  have href := Scopes.reference_of_useName hn
  rw [Parse.suffixedExpr, peek_bind]
  simp only [stateAt_tok, hv.1]
  rw [bind_eq (next_stateAt (by simp [hv.1]) (ne_nil_of_tokens hr.tokens hnext)), onScopes_bind,
    hv.ident, href]
  exact hrun

/-- What stands in parentheses is read afresh, whatever held it. -/
theorem paren {i e : Expr} (ht : t.kind = .symbol .parenOpen)
    (hr₁ : Reads (.expr 0 i) ts m₁ (z :: ts₁)) (hz : z.kind = .symbol .parenClose)
    (hr₂ : Reads (.suffixes (.paren t.pos i) e) ts₁ m₂ next)
    (ih₁ : Completes ts m₁ (z :: ts₁) (.expr 0 i))
    (ih₂ : Completes ts₁ m₂ next (.suffixes (.paren t.pos i) e)) :
    Completes (t :: ts) (.plain t :: (m₁ ++ .plain z :: m₂)) next (.suffixed e) := by
  intro d σ τ hnext hd hb
  simp only [List.length_cons, List.length_append] at hd
  obtain ⟨d, rfl⟩ : ∃ d', d = d' + 1 := ⟨d - 1, by omega⟩
  obtain ⟨ρ, hi, hrun⟩ := ih₂ hnext (show _ ≤ d by omega) hb
  rw [Parse.suffixedExpr, peek_bind]
  simp only [stateAt_tok, ht]
  rw [bind_eq (next_stateAt (by simp [ht]) (ne_nil_of_tokens hr₁.tokens (List.cons_ne_nil _ _))),
    bind_eq (ih₁ (List.cons_ne_nil _ _) (by omega) hi),
    bind_eq (expectClosing_yes hz (by simp) (ne_nil_of_tokens hr₂.tokens hnext))]
  exact hrun

/-- Nothing is applied to an expression before a token that begins no suffix. -/
theorem suffixesEnd {e : Expr} (hend : startsSuffix (kindOf next) = false) :
    Completes next [] next (.suffixes e e) := by
  intro d ρ τ hnext hd hb
  obtain ⟨d, rfl⟩ : ∃ d', d = d' + 1 := ⟨d - 1, by omega⟩
  refine ⟨τ, hb, ?_⟩
  show Parse.suffixes (d + 1) e (stateAt next τ) = _
  rw [Parse.suffixes, peek_bind, stateAt_tok_kind]
  generalize kindOf next = kind at hend
  split
  case h_7 => rfl
  all_goals cases hend

theorem dot {h e : Expr} {x : Text} (ht : t.kind = .symbol .dot) (hk : k.kind = .name x)
    (hr : Reads (.suffixes (.index h.pos h (.string k.pos x)) e) ts ms next)
    (ih : Completes ts ms next (.suffixes (.index h.pos h (.string k.pos x)) e)) :
    Completes (t :: k :: ts) (.plain t :: .plain k :: ms) next (.suffixes h e) := by
  intro d ρ τ hnext hd hb
  simp only [List.length_cons] at hd
  obtain ⟨d, rfl⟩ : ∃ d', d = d' + 1 := ⟨d - 1, by omega⟩
  obtain ⟨σ, hindex, hrun⟩ := ih hnext (show _ ≤ d by omega) hb
  refine ⟨σ, by simpa [bindExpr] using hindex, ?_⟩
  show Parse.suffixes (d + 1) h (stateAt (t :: k :: ts) σ) = _
  rw [Parse.suffixes, peek_bind]
  simp only [stateAt_tok, ht]
  rw [bind_eq (next_stateAt (by simp [ht]) (List.cons_ne_nil _ _)),
    bind_eq (expectName_yes hk (ne_nil_of_tokens hr.tokens hnext))]
  exact hrun

theorem bracket {h i e : Expr} (ht : t.kind = .symbol .bracketOpen)
    (hr₁ : Reads (.expr 0 i) ts m₁ (z :: ts₁)) (hz : z.kind = .symbol .bracketClose)
    (hr₂ : Reads (.suffixes (.index h.pos h i) e) ts₁ m₂ next)
    (ih₁ : Completes ts m₁ (z :: ts₁) (.expr 0 i))
    (ih₂ : Completes ts₁ m₂ next (.suffixes (.index h.pos h i) e)) :
    Completes (t :: ts) (.plain t :: (m₁ ++ .plain z :: m₂)) next (.suffixes h e) := by
  intro d ρ τ hnext hd hb
  simp only [List.length_cons, List.length_append] at hd
  obtain ⟨d, rfl⟩ : ∃ d', d = d' + 1 := ⟨d - 1, by omega⟩
  obtain ⟨σ', hindex, hrun⟩ := ih₂ hnext (show _ ≤ d by omega) hb
  obtain ⟨σ, hh, hi⟩ := Option.bind_eq_some_iff.mp hindex
  refine ⟨σ, hh, ?_⟩
  show Parse.suffixes (d + 1) h (stateAt (t :: ts) σ) = _
  rw [Parse.suffixes, peek_bind]
  simp only [stateAt_tok, ht]
  rw [bind_eq (next_stateAt (by simp [ht]) (ne_nil_of_tokens hr₁.tokens (List.cons_ne_nil _ _))),
    bind_eq (ih₁ (List.cons_ne_nil _ _) (by omega) hi),
    bind_eq (expect_yes hz (by simp) (ne_nil_of_tokens hr₂.tokens hnext))]
  exact hrun

theorem method {h e : Expr} {x : Text} {as : List Expr} (ht : t.kind = .symbol .colon)
    (hk : k.kind = .name x) (hr₁ : Reads (.args as) ts m₁ ts₁)
    (hr₂ : Reads (.suffixes (.methodCall h.pos h x as) e) ts₁ m₂ next)
    (ih₁ : Completes ts m₁ ts₁ (.args as))
    (ih₂ : Completes ts₁ m₂ next (.suffixes (.methodCall h.pos h x as) e)) :
    Completes (t :: k :: ts) (.plain t :: .plain k :: (m₁ ++ m₂)) next (.suffixes h e) := by
  intro d ρ τ hnext hd hb
  simp only [List.length_cons, List.length_append] at hd
  obtain ⟨d, rfl⟩ : ∃ d', d = d' + 1 := ⟨d - 1, by omega⟩
  have hts₁ := ne_nil_of_tokens hr₂.tokens hnext
  obtain ⟨σ', hcall, hrun⟩ := ih₂ hnext (show _ ≤ d by omega) hb
  obtain ⟨σ, hh, has⟩ := Option.bind_eq_some_iff.mp hcall
  refine ⟨σ, hh, ?_⟩
  show Parse.suffixes (d + 1) h (stateAt (t :: k :: ts) σ) = _
  rw [Parse.suffixes, peek_bind]
  simp only [stateAt_tok, ht]
  rw [bind_eq (next_stateAt (by simp [ht]) (List.cons_ne_nil _ _)),
    bind_eq (expectName_yes hk (ne_nil_of_tokens hr₁.tokens hts₁)),
    bind_eq (ih₁ hts₁ (by omega) has)]
  exact hrun

/-- A call without a method, whose arguments may be a string or a table alone. -/
theorem call {h e : Expr} {as : List Expr} (hr₁ : Reads (.args as) ts m₁ ts₁)
    (hr₂ : Reads (.suffixes (.call h.pos h as) e) ts₁ m₂ next)
    (ih₁ : Completes ts m₁ ts₁ (.args as))
    (ih₂ : Completes ts₁ m₂ next (.suffixes (.call h.pos h as) e)) :
    Completes ts (m₁ ++ m₂) next (.suffixes h e) := by
  intro d ρ τ hnext hd hb
  have hpos := hr₁.length_pos trivial
  simp only [List.length_append] at hd
  obtain ⟨d, rfl⟩ : ∃ d', d = d' + 1 := ⟨d - 1, by omega⟩
  have hts₁ := ne_nil_of_tokens hr₂.tokens hnext
  obtain ⟨σ', hcall, hrun⟩ := ih₂ hnext (show _ ≤ d by omega) hb
  obtain ⟨σ, hh, has⟩ := Option.bind_eq_some_iff.mp hcall
  refine ⟨σ, hh, ?_⟩
  have hargs := ih₁ hts₁ (show _ ≤ d by omega) has
  show Parse.suffixes (d + 1) h (stateAt ts σ) = _
  rw [Parse.suffixes, peek_bind, stateAt_tok_kind]
  obtain ⟨x, hx⟩ | hx | hx := hr₁.args_kindOf
  all_goals
    simp only [hx]
    rw [bind_eq hargs]
    exact hrun

theorem argString {x : Text} (ht : t.kind = .string x) :
    Completes (t :: next) [.plain t] next (.args [.string t.pos x]) := by
  intro d σ τ hnext hd hb
  simp only [List.length_cons, List.length_nil] at hd
  obtain ⟨d, rfl⟩ : ∃ d', d = d' + 1 := ⟨d - 1, by omega⟩
  cases hb
  rw [callArgs, peek_bind]
  simp only [stateAt_tok, ht]
  rw [bind_eq (next_stateAt (by simp [ht]) hnext)]
  rfl

theorem argTable {e : Expr} (hr : Reads (.table e) ts ms next)
    (ih : Completes ts ms next (.table e)) : Completes ts ms next (.args [e]) := by
  intro d σ τ hnext hd hb
  obtain ⟨d, rfl⟩ : ∃ d', d = d' + 1 := ⟨d - 1, by omega⟩
  have hb : bindExpr e σ = some τ := by simpa [bindExprs] using hb
  rw [callArgs, peek_bind]
  simp only [stateAt_tok_kind, hr.table_kindOf]
  rw [bind_eq (ih hnext (by omega) hb)]
  rfl

/-- Parentheses that close at once. -/
theorem argsNone (ht : t.kind = .symbol .parenOpen) (hz : z.kind = .symbol .parenClose) :
    Completes (t :: z :: next) [.plain t, .plain z] next (.args []) := by
  intro d σ τ hnext hd hb
  simp only [List.length_cons, List.length_nil] at hd
  obtain ⟨d, rfl⟩ : ∃ d', d = d' + 1 := ⟨d - 1, by omega⟩
  cases hb
  have hclose : kindOf (z :: next) = .symbol .parenClose := hz
  rw [callArgs, peek_bind]
  simp only [stateAt_tok, ht]
  rw [bind_eq (expect_yes ht (by simp) (List.cons_ne_nil _ _)), bind_eq (before_yes hclose),
    bind_eq (expectClosing_yes hz (by simp) hnext)]
  rfl

theorem argsSome {as : List Expr} (ht : t.kind = .symbol .parenOpen)
    (hclose : kindOf ts ≠ .symbol .parenClose) (hr : Reads (.exprs as) ts ms (z :: next))
    (hz : z.kind = .symbol .parenClose) (ih : Completes ts ms (z :: next) (.exprs as)) :
    Completes (t :: ts) (.plain t :: (ms ++ [.plain z])) next (.args as) := by
  intro d σ τ hnext hd hb
  simp only [List.length_cons, List.length_append, List.length_nil] at hd
  obtain ⟨d, rfl⟩ : ∃ d', d = d' + 1 := ⟨d - 1, by omega⟩
  have hrun := ih (List.cons_ne_nil _ _) (show _ ≤ d by omega) hb
  rw [callArgs, peek_bind]
  simp only [stateAt_tok, ht]
  rw [bind_eq (expect_yes ht (by simp) (ne_nil_of_tokens hr.tokens (List.cons_ne_nil _ _))),
    bind_eq ((before_no hclose).trans hrun), bind_eq (expectClosing_yes hz (by simp) hnext)]
  rfl

theorem table {fs : List TableField} (ht : t.kind = .symbol .braceOpen)
    (hr : Reads (.fields fs) ts ms (z :: next)) (hz : z.kind = .symbol .braceClose)
    (ih : Completes ts ms (z :: next) (.fields fs)) :
    Completes (t :: ts) (.plain t :: (ms ++ [.plain z])) next (.table (.table t.pos fs)) := by
  intro d σ τ hnext hd hb
  simp only [List.length_cons, List.length_append, List.length_nil] at hd
  obtain ⟨d, rfl⟩ : ∃ d', d = d' + 1 := ⟨d - 1, by omega⟩
  rw [Parse.table,
    bind_eq (expect_yes ht (by simp) (ne_nil_of_tokens hr.tokens (List.cons_ne_nil _ _))),
    bind_eq (ih (List.cons_ne_nil _ _) (by omega) hb),
    bind_eq (expectClosing_yes hz (by simp) hnext)]
  rfl

theorem fieldsEnd (hz : kindOf next = .symbol .braceClose) :
    Completes next [] next (.fields []) := by
  intro d σ τ hnext hd hb
  obtain ⟨d, rfl⟩ : ∃ d', d = d' + 1 := ⟨d - 1, by omega⟩
  cases hb
  rw [fields, check_bind, decide_eq_true hz]
  rfl

/-- After the last field, the sign that would separate it from another one may be missing. -/
theorem fieldsLast {f : TableField} (hz : kindOf ts ≠ .symbol .braceClose)
    (hcomma : kindOf next ≠ .symbol .comma) (hsemi : kindOf next ≠ .symbol .semicolon)
    (ih : Completes ts ms next (.field f)) : Completes ts ms next (.fields [f]) := by
  intro d σ τ hnext hd hb
  obtain ⟨d, rfl⟩ : ∃ d', d = d' + 1 := ⟨d - 1, by omega⟩
  have hb : bindField f σ = some τ := by simpa [bindFields] using hb
  rw [fields, check_bind, decide_eq_false hz, if_neg Bool.false_ne_true,
    bind_eq (ih hnext (by omega) hb), bind_eq (acceptEither_no hcomma hsemi)]
  rfl

/-- After a field and a sign there may be another field or the end of the table. -/
theorem fieldsCons {f : TableField} {fs : List TableField} (hz : kindOf ts ≠ .symbol .braceClose)
    (hy : y.kind = .symbol .comma ∨ y.kind = .symbol .semicolon)
    (hr : Reads (.fields fs) ts₁ m₂ next) (ih₁ : Completes ts m₁ (y :: ts₁) (.field f))
    (ih₂ : Completes ts₁ m₂ next (.fields fs)) :
    Completes ts (m₁ ++ .plain y :: m₂) next (.fields (f :: fs)) := by
  intro d σ τ hnext hd hb
  simp only [List.length_cons, List.length_append] at hd
  obtain ⟨d, rfl⟩ : ∃ d', d = d' + 1 := ⟨d - 1, by omega⟩
  obtain ⟨ρ, hf, hfs⟩ := Option.bind_eq_some_iff.mp hb
  rw [fields, check_bind, decide_eq_false hz, if_neg Bool.false_ne_true,
    bind_eq (ih₁ (List.cons_ne_nil _ _) (by omega) hf),
    bind_eq (acceptEither_yes hy (by simp) (by simp) (ne_nil_of_tokens hr.tokens hnext)),
    if_pos rfl, bind_eq (ih₂ hnext (by omega) hfs)]
  rfl

/-- A key in brackets is any expression. -/
theorem fieldKeyed {i e : Expr} (ht : t.kind = .symbol .bracketOpen)
    (hr₁ : Reads (.expr 0 i) ts m₁ (y :: q :: ts₁)) (hy : y.kind = .symbol .bracketClose)
    (hq : q.kind = .symbol .assign) (hr₂ : Reads (.expr 0 e) ts₁ m₂ next)
    (ih₁ : Completes ts m₁ (y :: q :: ts₁) (.expr 0 i))
    (ih₂ : Completes ts₁ m₂ next (.expr 0 e)) :
    Completes (t :: ts) (.plain t :: (m₁ ++ .plain y :: .plain q :: m₂)) next
      (.field (.mk t.pos (some i) e)) := by
  intro d σ τ hnext hd hb
  simp only [List.length_cons, List.length_append] at hd
  obtain ⟨d, rfl⟩ : ∃ d', d = d' + 1 := ⟨d - 1, by omega⟩
  obtain ⟨ρ, hi, he⟩ := Option.bind_eq_some_iff.mp hb
  rw [field, peek_bind, peekNext_bind]
  simp only [stateAt_tok, ht]
  rw [bind_eq (next_stateAt (by simp [ht]) (ne_nil_of_tokens hr₁.tokens (List.cons_ne_nil _ _))),
    bind_eq (ih₁ (List.cons_ne_nil _ _) (by omega) hi),
    bind_eq (expect_yes hy (by simp) (List.cons_ne_nil _ _)),
    bind_eq (expect_yes hq (by simp) (ne_nil_of_tokens hr₂.tokens hnext)),
    bind_eq (ih₂ hnext (by omega) he)]
  rfl

/-- A name before the sign of an assignment is a key, and uses no binding. -/
theorem fieldNamed {x : Text} {e : Expr} (hk : k.kind = .name x) (hq : q.kind = .symbol .assign)
    (hr : Reads (.expr 0 e) ts ms next) (ih : Completes ts ms next (.expr 0 e)) :
    Completes (k :: q :: ts) (.plain k :: .plain q :: ms) next
      (.field (.mk k.pos (some (.string k.pos x)) e)) := by
  intro d σ τ hnext hd hb
  simp only [List.length_cons] at hd
  obtain ⟨d, rfl⟩ : ∃ d', d = d' + 1 := ⟨d - 1, by omega⟩
  have hb : bindExpr e σ = some τ := by simpa [bindField, bindExpr?, bindExpr] using hb
  have hq' : ((stateAt (k :: q :: ts) σ).rest.head?.getD k).kind = .symbol .assign := hq
  rw [field, peek_bind, peekNext_bind]
  simp only [stateAt_tok, hk, hq']
  rw [bind_eq (next_stateAt (by simp [hk]) (List.cons_ne_nil _ _)),
    bind_eq (next_stateAt (by simp [hq]) (ne_nil_of_tokens hr.tokens hnext)),
    bind_eq (ih hnext (by omega) hb)]
  rfl

/-- A value alone begins neither with a bracket nor with a name and the sign of an assignment. -/
theorem fieldPlain {e : Expr} (hbracket : t.kind ≠ .symbol .bracketOpen)
    (hname : ∀ x, t.kind = .name x → kindOf ts ≠ .symbol .assign)
    (ih : Completes (t :: ts) ms next (.expr 0 e)) :
    Completes (t :: ts) ms next (.field (.mk t.pos none e)) := by
  intro d σ τ hnext hd hb
  obtain ⟨d, rfl⟩ : ∃ d', d = d' + 1 := ⟨d - 1, by omega⟩
  have hb : bindExpr e σ = some τ := by simpa [bindField, bindExpr?] using hb
  have hrun := ih hnext (show _ ≤ d by omega) hb
  rw [field, peek_bind, peekNext_bind]
  simp only [stateAt_tok]
  generalize ht : t.kind = kind
  generalize hq : ((stateAt (t :: ts) σ).rest.head?.getD t).kind = kind'
  split
  case h_1 => exact absurd ht hbracket
  case h_2 x =>
    cases ts with
    | nil => simp [ht] at hq
    | cons q ts => exact absurd hq (hname x ht)
  case h_3 =>
    rw [bind_eq hrun]
    rfl

end Completes

/-! ## 5. Whole documents -/

/-- The reader goes through every derivation. -/
theorem Reads.completes {item : Item} {ts next : List Token} {ms : List Mark}
    (h : Reads item ts ms next) : Completes ts ms next item := by
  induction h with
  | block _ ih => exact Completes.block ih
  | stmtsEnd hend => exact Completes.stmtsEnd hend
  | returnNone ht hdone ho => exact Completes.returnStat ht (.inl ⟨rfl, rfl, rfl, hdone⟩) ho
  | returnSome ht hend hsemi hr ho ih => exact Completes.returnStat ht (.inr ⟨hend, hsemi, hr, ih⟩) ho
  | stmtsSkip ht hr ih => exact Completes.stmtsSkip ht hr ih
  | stmtsCons hstart hr₁ hr₂ ih₁ ih₂ => exact Completes.stmtsCons hstart hr₁ hr₂ ih₁ ih₂
  | «if» ht hr₁ hr₂ hr₃ hz ih₁ ih₂ ih₃ => exact Completes.ifStat ht hr₁ hr₂ hr₃ hz ih₁ ih₂ ih₃
  | «while» ht hr₁ hy hr₂ hz ih₁ ih₂ => exact Completes.whileStat ht hr₁ hy hr₂ hz ih₁ ih₂
  | «do» ht hr hz ih => exact Completes.doStat ht hr hz ih
  | «repeat» ht _ hy hr₂ ih₁ ih₂ => exact Completes.repeatStat ht hy hr₂ ih₁ ih₂
  | numericFor ht hv hq hr₁ hy₁ hr₂ hr₃ hy₂ hr₄ hz ih₁ ih₂ ih₃ ih₄ =>
    exact Completes.numericFor ht hv hq hr₁ hy₁ hr₂ hr₃ hy₂ hr₄ hz ih₁ ih₂ ih₃ ih₄
  | genericFor ht hns hy₁ hr₁ hy₂ hr₂ hz ih₁ ih₂ =>
    exact Completes.genericFor ht hns hy₁ hr₁ hy₂ hr₂ hz ih₁ ih₂
  | functionStat ht hv hp hr ih => exact Completes.functionStat ht hv hp hr ih
  | localFunction ht hw hv hr ih => exact Completes.localFunction ht hw hv hr ih
  | «local» ht hxs hr ih => exact Completes.localStat ht hxs hr ih
  | «break» ht => exact Completes.breakStat ht
  | goto ht hk => exact Completes.gotoStat ht hk
  | label ht hk hz => exact Completes.labelStat ht hk hz
  | assign hr₁ hr₂ hq _ hr₃ ih₁ ih₂ ih₃ => exact Completes.assign hr₁ hr₂ hq hr₃ ih₁ ih₂ ih₃
  | callStat hr hcall hassign hcomma ih => exact Completes.callStat hr hcall hassign hcomma ih
  | clause _ hy hr₂ ih₁ ih₂ => exact Completes.clause hy hr₂ ih₁ ih₂
  | elsesEnd helse => exact Completes.elsesEnd helse
  | elsesCons ht hr₁ hr₂ ih₁ ih₂ => exact Completes.elsesCons ht hr₁ hr₂ ih₁ ih₂
  | orelseNone helse => exact Completes.orelseNone helse
  | orelseSome ht hr ih => exact Completes.orelseSome ht hr ih
  | stepNone hcomma => exact Completes.stepNone hcomma
  | stepSome ht hr ih => exact Completes.stepSome ht hr ih
  | initialNone hassign => exact Completes.initialNone hassign
  | initialSome ht hr ih => exact Completes.initialSome ht hr ih
  | targetsEnd hcomma => exact Completes.targetsEnd hcomma
  | targetsCons ht hr₁ hr₂ ih₁ ih₂ => exact Completes.targetsCons ht hr₁ hr₂ ih₁ ih₂
  | func ht hps hy hr hz ih => exact Completes.func ht hps hy hr hz ih
  | exprsOne _ hcomma ih => exact Completes.exprsOne hcomma ih
  | exprsCons _ hy hr ih₁ ih₂ => exact Completes.exprsCons hy hr ih₁ ih₂
  | unary hop hr₁ hr₂ ih₁ ih₂ => exact Completes.unary hop hr₁ hr₂ ih₁ ih₂
  | operand hop hr₁ hr₂ ih₁ ih₂ => exact Completes.operand hop hr₁ hr₂ ih₁ ih₂
  | operatorsEnd hop => exact Completes.operatorsEnd hop
  | operator hop hlimit hr₁ hr₂ ih₁ ih₂ => exact Completes.operator hop hlimit hr₁ hr₂ ih₁ ih₂
  | number ht => exact Completes.literal (by simp [ht]) (fun _ => rfl) (by simp [simpleExpr, peek_bind, ht])
  | string ht => exact Completes.literal (by simp [ht]) (fun _ => rfl) (by simp [simpleExpr, peek_bind, ht])
  | nil ht => exact Completes.literal (by simp [ht]) (fun _ => rfl) (by simp [simpleExpr, peek_bind, ht])
  | true ht => exact Completes.literal (by simp [ht]) (fun _ => rfl) (by simp [simpleExpr, peek_bind, ht])
  | false ht => exact Completes.literal (by simp [ht]) (fun _ => rfl) (by simp [simpleExpr, peek_bind, ht])
  | vararg ht => exact Completes.literal (by simp [ht]) (fun _ => rfl) (by simp [simpleExpr, peek_bind, ht])
  | tableExpr hr ih => exact Completes.tableExpr hr ih
  | functionExpr ht hr ih => exact Completes.functionExpr ht hr ih
  | suffixedExpr hr ih => exact Completes.suffixedExpr hr ih
  | name hv hr ih => exact Completes.name hv hr ih
  | paren ht hr₁ hz hr₂ ih₁ ih₂ => exact Completes.paren ht hr₁ hz hr₂ ih₁ ih₂
  | suffixesEnd hend => exact Completes.suffixesEnd hend
  | dot ht hk hr ih => exact Completes.dot ht hk hr ih
  | bracket ht hr₁ hz hr₂ ih₁ ih₂ => exact Completes.bracket ht hr₁ hz hr₂ ih₁ ih₂
  | method ht hk hr₁ hr₂ ih₁ ih₂ => exact Completes.method ht hk hr₁ hr₂ ih₁ ih₂
  | call hr₁ hr₂ ih₁ ih₂ => exact Completes.call hr₁ hr₂ ih₁ ih₂
  | argString ht => exact Completes.argString ht
  | argTable hr ih => exact Completes.argTable hr ih
  | argsNone ht hz => exact Completes.argsNone ht hz
  | argsSome ht hclose hr hz ih => exact Completes.argsSome ht hclose hr hz ih
  | table ht hr hz ih => exact Completes.table ht hr hz ih
  | fieldsEnd hz => exact Completes.fieldsEnd hz
  | fieldsLast hz _ hcomma hsemi ih => exact Completes.fieldsLast hz hcomma hsemi ih
  | fieldsCons hz _ hy hr ih₁ ih₂ => exact Completes.fieldsCons hz hy hr ih₁ ih₂
  | fieldKeyed ht hr₁ hy hq hr₂ ih₁ ih₂ => exact Completes.fieldKeyed ht hr₁ hy hq hr₂ ih₁ ih₂
  | fieldNamed hk hq hr ih => exact Completes.fieldNamed hk hq hr ih
  | fieldPlain hbracket hname _ ih => exact Completes.fieldPlain hbracket hname ih

/-- **What the reader must accept.**  A block that is derived from tokens up to the end of the text, and
whose effect on the variables is defined, is what the reader makes of these tokens. -/
theorem parseTokens_complete {t : Token} {ts next : List Token} {ms : List Mark} {b : Block}
    {σ : Scopes} (uri : Text) (hr : Reads (.block b) (t :: ts) ms next) (hnext : next ≠ [])
    (heof : kindOf next = .eof) (hb : bindBlock b {} = some σ) :
    parseTokens (t :: ts) uri = .ok ⟨t.pos, b, uri, σ.bindings⟩ := by
  have hlen : ms.length ≤ ts.length + 1 := by
    have htokens := congrArg List.length hr.tokens
    simp only [List.length_cons, List.length_append, tokensOf, List.length_map] at htokens
    omega
  have hblock : Parse.block (10 * (ts.length + 2)) (stateAt (t :: ts) {})
      = .ok (b, stateAt next σ) := hr.completes hnext (by omega) hb
  have hend : expect .eof (stateAt next σ) = .ok ((stateAt next σ).tok, stateAt next σ) := by
    rw [expect, check_bind, decide_eq_true heof, if_pos rfl, next_eq]
    obtain ⟨e, es, rfl⟩ := List.exists_cons_of_ne_nil hnext
    have he : e.kind = .eof := heof
    simp [ParseState.advance, he]
  have hrun : Parse.chunk (10 * (ts.length + 2)) uri (stateAt (t :: ts) {})
      = .ok (⟨t.pos, b, uri, σ.bindings⟩, stateAt next σ) := by
    rw [Parse.chunk, peek_bind, bind_eq hblock, bind_eq hend]
    show Except.ok _ = _
    rw [stateAt_scopes]
    rfl
  have hrun' : (Parse.chunk (10 * (ts.length + 2)) uri).run { tok := t, rest := ts }
      = .ok (⟨t.pos, b, uri, σ.bindings⟩, stateAt next σ) := hrun
  rw [parseTokens, hrun']

end LuaServer.Lua
