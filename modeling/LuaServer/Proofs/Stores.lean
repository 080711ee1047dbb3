/-
# Stores that are refused

The reader goes through every derivation, unless it refuses a store to a constant.  This module says to
which: to a plain target in the tree that means a declaration with an attribute where it stands, as the
pass of `Proofs/Scoping.lean` tells it.  The identifiers of that tree carry no bindings yet, since a reader
that stops gives none; so what is compared is the declarations in view (`Proofs/Progress.lean`), not
numbers.

The proof is an induction on the derivation.  `T.Passes` is what each function of the reader does on a
part of a program, with the depths of calls as in `Proofs/ReaderComplete.lean`.

Main result: `Reads.refused`.
-/
import LuaServer.Proofs.Progress

namespace LuaServer.Lua

open Parse

namespace Trial

/-! ## 1. Constants that are stored to -/

/-- The constants that nodes store to are blamed, going by what the pass says of their names. -/
def Within (T : Trial) (r : Scoping) (ns : List Node) : Prop :=
  ∀ n ∈ targetsOf ns, ∀ d, (n, .local d) ∈ r.uses → d.attrib ≠ none → T.blames n

section
variable {T : Trial} {env : Env} {r r' : Scoping} {ns ns' : List Node}

/-- A part of a program stores to no more. -/
theorem Within.mono (h : T.Within r ns) (hr : ∀ u ∈ r'.uses, u ∈ r.uses)
    (hns : ∀ n ∈ targetsOf ns', n ∈ targetsOf ns) : T.Within r' ns' :=
  fun n hn d hd hattrib => h n (hns n hn) d (hr _ hd) hattrib

/-- A plain target is one of the uses, and means what its name means where the statement stands. -/
theorem mem_uses_of_plainNames {es : List Expr} {n : Name} (hn : n ∈ plainNames es) :
    (n, env.target n.name) ∈ (scopeExprs env es).uses := by
  induction es with
  | nil => cases hn
  | cons e es ih =>
    rw [plainNames_cons] at hn
    simp only [scopeExprs, Scoping.uses_append]
    rcases List.mem_append.mp hn with hn | hn
    · cases e with
      | name m =>
        obtain rfl : n = m := by simpa [Expr.name?] using hn
        simp [scopeExpr]
      | _ => cases hn
    · exact List.mem_append_right _ (ih hn)

/-- The constants among the targets of a statement are blamed. -/
theorem Within.covers (h : T.Within r ns) {es : List Expr}
    (hr : ∀ u ∈ (scopeExprs env es).uses, u ∈ r.uses) (hns : ∀ n ∈ plainNames es, n ∈ targetsOf ns) :
    T.Covers env (plainNames es) := by
  intro n hn hattrib
  obtain ⟨d, htarget, hd⟩ := Env.target_of_attrib? hattrib
  exact h n (hns n hn) d (hr _ (htarget ▸ mem_uses_of_plainNames hn)) hd

/-- The left operand of what is read after it, or what things are applied to, stores to no more. -/
def Head (T : Trial) : Item → Prop
  | .operators _ l e | .suffixes l e => ∀ env,
    T.Within (scopeExpr env e) (walkExpr e) → T.Within (scopeExpr env l) (walkExpr l)
  | _ => True

/-- What was read before a suffix or an operator is a part of what they make up. -/
theorem head {item : Item} {ts next : List Token} {ms : List Mark} (h : Reads item ts ms next) :
    T.Head item := by
  induction h with
  | operatorsEnd _ | suffixesEnd _ => exact fun _ h => h
  | operator _ _ _ _ _ ih | dot _ _ _ ih | bracket _ _ _ _ _ ih | method _ _ _ _ _ ih | call _ _ _ ih =>
    intro env hw
    exact (ih env hw).mono (by simp +contextual [scopeExpr]) (by simp +contextual [walkExpr])
  | _ => trivial

end

/-! ## 2. What the reader does on a derivation -/

section
variable (T : Trial) (env env' : Env)

/-- The reader gets through `ms` when calls may go as deep as ten for each token and `k` more. -/
def Crosses {α : Type} (p : Nat → Parse α) (k : Nat) (Q : α → Scopes → Prop) (ts : List Token)
    (ms : List Mark) (next : List Token) : Prop :=
  ∀ ⦃d : Nat⦄ ⦃σ : Scopes⦄, 10 * ms.length + k ≤ d → T.Goes env σ (p d) Q ts next

/-- What stands after a sign that may be left out. -/
theorem Crosses.after {T : Trial} {env : Env} {α : Type} {p : Nat → Parse α} {k : Nat} {ts next : List Token}
    {ms : List Mark} (h : T.Crosses env p k Unsaid ts ms next) {t : Token} {l : Kind} (ht : t.kind = l)
    (hl : l ≠ .eof) (hk : k ≤ 10) :
    T.Crosses env (fun d => after? l (p d)) 0 Unsaid (t :: ts) (.plain t :: ms) next := by
  intro d σ hd
  simp only [List.length_cons] at hd
  exact (Course.Goes.after?_yes ht hl (h (by omega))).unsaid

/-- The same where the visible declarations become others. -/
def Shifts {α : Type} (p : Nat → Parse α) (k : Nat) (ts : List Token) (ms : List Mark)
    (next : List Token) : Prop :=
  ∀ ⦃d : Nat⦄ ⦃σ : Scopes⦄, 10 * ms.length + k ≤ d → T.Moves env env' σ (p d) ts next

end

/-- What the reader does on a part of a program whose constants are blamed where it stores to them. -/
def Passes (T : Trial) (ts : List Token) (ms : List Mark) (next : List Token) : Item → Prop
  | .block b => ∀ env, T.Within (scopeBlock env b) (walkBlock b) →
    T.Crosses env block 4 Unsaid ts ms next
  | .stmts ss => ∀ env, T.Within (scopeStmts env ss) (walkStmts ss) →
    T.Shifts env (env.after ss) statements 3 ts ms next
  | .stmt s => ∀ env, T.Within (scopeStmt env s) (walkStmt s) →
    T.Shifts env (env.extend s.declares) statement 2 ts ms next
  | .clause c => ∀ env, T.Within (scopeClause env c) (walkClauses [c]) → ∀ o,
    T.Crosses env (fun d => clause d o) 0 Unsaid ts ms next
  | .elses cs => ∀ env, T.Within (scopeClauses env cs) (walkClauses cs) →
    T.Crosses env elseClauses 1 Unsaid ts ms next
  | .orelse b => ∀ env, T.Within (scopeBlock? env b) (walkBlock? b) →
    T.Crosses env (fun d => after? (.keyword .else) (block d)) 0 Unsaid ts ms next
  | .step e => ∀ env, T.Within (scopeExpr? env e) (walkExpr? e) →
    T.Crosses env (fun d => after? (.symbol .comma) (expr d 0)) 0 Unsaid ts ms next
  | .initial vs => ∀ env, T.Within (scopeExprs env vs) (walkExprs vs) →
    T.Crosses env (fun d => after? (.symbol .assign) (exprs d)) 0 Unsaid ts ms next
  | .targets es => ∀ env, T.Within (scopeExprs env es) (walkExprs es) →
    T.Crosses env moreTargets 1 (fun es' τ => List.Forall₂ (fun e e' => Holds env e e' τ) es es')
      ts ms next
  | .func f => ∀ env m, T.Within (scopeFunc env m f) (walkFunc f) → ∀ o,
    T.Crosses env (fun d => funcBody d o m) 0 Unsaid ts ms next
  | .exprs es => ∀ env, T.Within (scopeExprs env es) (walkExprs es) →
    T.Crosses env exprs 3 Unsaid ts ms next
  | .expr limit e => ∀ env, T.Within (scopeExpr env e) (walkExpr e) →
    T.Crosses env (fun d => expr d limit) 2 Unsaid ts ms next
  | .operators limit _ e => ∀ env, T.Within (scopeExpr env e) (walkExpr e) → ∀ l,
    T.Crosses env (fun d => operators d limit l) 1 Unsaid ts ms next
  | .simple e => ∀ env, T.Within (scopeExpr env e) (walkExpr e) →
    T.Crosses env simpleExpr 1 Unsaid ts ms next
  | .suffixed e => ∀ env, T.Within (scopeExpr env e) (walkExpr e) →
    T.Crosses env suffixedExpr 0 (Holds env e) ts ms next
  | .suffixes h e => ∀ env, T.Within (scopeExpr env e) (walkExpr e) →
    ∀ ⦃d : Nat⦄ ⦃σ : Scopes⦄ ⦃h' : Expr⦄, 10 * ms.length + 2 ≤ d → Holds env h h' σ → T.Goes env σ (suffixes d h') (Holds env e) ts next
  | .args es => ∀ env, T.Within (scopeExprs env es) (walkExprs es) →
    T.Crosses env callArgs 1 Unsaid ts ms next
  | .table e => ∀ env, T.Within (scopeExpr env e) (walkExpr e) →
    T.Crosses env table 0 Unsaid ts ms next
  | .fields fs => ∀ env, T.Within (scopeFields env fs) (walkFields fs) →
    T.Crosses env fields 4 Unsaid ts ms next
  | .field f => ∀ env, T.Within (scopeField env f) (walkFields [f]) →
    T.Crosses env field 3 Unsaid ts ms next

namespace Passes

variable {T : Trial} {t v w y y₁ y₂ z q k : Token} {ts ts₁ ts₂ ts₃ next : List Token}
  {ms m₁ m₂ m₃ m₄ : List Mark}

/-! ## 3. Blocks and statements -/

/-- A block ends with the declarations in view that it began with. -/
theorem block {ss : List Stmt} (ih : T.Passes (t :: ts) ms next (.stmts ss)) :
    T.Passes (t :: ts) ms next (.block (.mk t.pos ss)) := by
  intro env hw d σ hd
  obtain ⟨d, rfl⟩ : ∃ d', d = d' + 1 := ⟨d - 1, by omega⟩
  have hss : T.Within (scopeStmts env ss) (walkStmts ss) :=
    hw.mono (by simp [scopeBlock]) (by simp [walkBlock])
  rw [Parse.block]
  exact .peek fun _ _ => ((ih env hss (by omega)).inScope _).done

/-- Nothing is stored to at the end of a block. -/
theorem stmtsEnd (hend : endsBlock (kindOf next) = true) : T.Passes next [] next (.stmts []) := by
  intro env _ d σ hd
  obtain ⟨d, rfl⟩ : ∃ d', d = d' + 1 := ⟨d - 1, by omega⟩
  rw [statements]
  refine fun hσ => .blockFollow ?_
  rw [hend]
  exact .pure hσ

/-- A `return`, with or without values. -/
theorem returnStat {vs : List Expr} (ht : t.kind = .keyword .return)
    (hvs : (vs = [] ∧ m₁ = [] ∧ ts₁ = ts ∧
        (endsBlock (kindOf ts) = true ∨ kindOf ts = .symbol .semicolon)) ∨
      (endsBlock (kindOf ts) = false ∧ kindOf ts ≠ .symbol .semicolon ∧ T.Passes ts m₁ ts₁ (.exprs vs)))
    (ho : Optional (.symbol .semicolon) ts₁ m₂ next) :
    T.Passes (t :: ts) (.plain t :: (m₁ ++ m₂)) next (.stmts [.return t.pos vs]) := by
  intro env hw d σ hd
  simp only [List.length_cons, List.length_append] at hd
  obtain ⟨d, rfl⟩ : ∃ d', d = d' + 2 := ⟨d - 2, by omega⟩
  -- the sign that may follow
  have hrest : ∀ {σ : Scopes} (s : Stmt),
      T.Goes env σ (do let _ ← accept (.symbol .semicolon); return s) Unsaid ts₁ next := by
    intro σ s
    cases ho with
    | absent hno => exact .accept_no hno (.pure trivial)
    | present hyes => exact .accept_yes hyes (by simp) (.pure trivial)
  have hstat : T.Goes env σ (Parse.returnStat (d + 1)) Unsaid (t :: ts) next := by
    rw [Parse.returnStat]
    refine (Course.Goes.next (by simp [ht])).bind fun _ _ _ _ => .blockFollow ?_
    obtain ⟨rfl, rfl, rfl, hdone⟩ | ⟨hend, hsemi, ih⟩ := hvs
    · by_cases hk : kindOf ts₁ = .symbol .semicolon
      · refine .check_yes hk ?_
        simp only [Bool.or_true, if_true]
        exact (Course.Goes.pure (Q := Unsaid) trivial).bind fun _ _ _ _ => hrest _
      · refine .check_no hk ?_
        simp only [hdone.resolve_right hk, Bool.true_or, if_true]
        exact (Course.Goes.pure (Q := Unsaid) trivial).bind fun _ _ _ _ => hrest _
    · refine .check_no hsemi ?_
      simp only [hend, Bool.or_self, if_neg Bool.false_ne_true]
      have hvs := ih env
        (hw.mono (by simp +contextual [scopeStmts, scopeStmt]) (by simp +contextual [walkStmts, walkStmt]))
      exact (hvs (by omega)).bind fun _ _ _ _ => hrest _
  rw [statements]
  refine fun hσ => .blockFollow ?_
  rw [kindOf_cons, ht]
  exact .check_yes ht (hstat.moves.done hσ)

theorem stmtsSkip {ss : List Stmt} (ht : t.kind = .symbol .semicolon)
    (ih : T.Passes ts ms next (.stmts ss)) : T.Passes (t :: ts) (.plain t :: ms) next (.stmts ss) := by
  intro env hw d σ hd
  simp only [List.length_cons] at hd
  obtain ⟨d, rfl⟩ : ∃ d', d = d' + 1 := ⟨d - 1, by omega⟩
  rw [statements]
  refine fun hσ => .blockFollow ?_
  rw [kindOf_cons, ht]
  exact .check_no (by simp [ht]) (.accept_yes ht (by simp) (ih env hw (by omega) hσ))

/-- What the first statement declares is in view in the others. -/
theorem stmtsCons {s : Stmt} {ss : List Stmt} (hstart : startsStatement (kindOf ts))
    (hr : Reads (.stmt s) ts m₁ ts₁) (ih₁ : T.Passes ts m₁ ts₁ (.stmt s))
    (ih₂ : T.Passes ts₁ m₂ next (.stmts ss)) : T.Passes ts (m₁ ++ m₂) next (.stmts (s :: ss)) := by
  intro env hw d σ hd
  have hpos := hr.length_pos trivial
  simp only [List.length_append] at hd
  obtain ⟨d, rfl⟩ : ∃ d', d = d' + 1 := ⟨d - 1, by omega⟩
  obtain ⟨hend, hret, hsemi⟩ := hstart
  have hs := ih₁ env (hw.mono (by simp +contextual [scopeStmts]) (by simp +contextual [walkStmts]))
  have hss := ih₂ (env.extend s.declares)
    (hw.mono (by simp +contextual [scopeStmts]) (by simp +contextual [walkStmts]))
  have hboth : T.Moves env (env.after (s :: ss)) σ (statement d >>= fun s => do
      let ss ← statements d
      return s :: ss) ts next :=
    (hs (by omega)).bind fun _ _ _ => (hss (by omega)).done
  rw [statements]
  refine fun hσ => .blockFollow ?_
  rw [hend]
  exact .check_no hret (.accept_no hsemi (hboth hσ))

/-- A statement that makes nothing visible. -/
theorem still {s : Stmt} (hs : s.declares = [])
    (h : ∀ env, T.Within (scopeStmt env s) (walkStmt s) → T.Crosses env statement 2 Unsaid ts ms next) :
    T.Passes ts ms next (.stmt s) := by
  intro env hw d σ hd
  rw [hs]
  exact (h env hw hd).moves

theorem ifStat {c : Expr} {b : Block} {cs : List IfClause} {o : Option Block}
    (ht : t.kind = .keyword .if) (hz : z.kind = .keyword .end)
    (ih₁ : T.Passes ts m₁ ts₁ (.clause (.mk t.pos c b))) (ih₂ : T.Passes ts₁ m₂ ts₂ (.elses cs))
    (ih₃ : T.Passes ts₂ m₃ (z :: next) (.orelse o)) :
    T.Passes (t :: ts) (.plain t :: (m₁ ++ (m₂ ++ (m₃ ++ [.plain z])))) next
      (.stmt (.if t.pos (.mk t.pos c b :: cs) o)) := by
  refine still rfl fun env hw d σ hd => ?_
  simp only [List.length_cons, List.length_append, List.length_nil] at hd
  obtain ⟨d, rfl⟩ : ∃ d', d = d' + 1 := ⟨d - 1, by omega⟩
  have hc := ih₁ env
    (hw.mono (by simp +contextual [scopeStmt, scopeClauses]) (by simp +contextual [walkStmt, walkClauses, or_imp]))
  have hcs := ih₂ env
    (hw.mono (by simp +contextual [scopeStmt, scopeClauses]) (by simp +contextual [walkStmt, walkClauses]))
  have ho := ih₃ env (hw.mono (by simp +contextual [scopeStmt]) (by simp +contextual [walkStmt]))
  rw [statement]
  refine .peek fun u hu => ?_
  simp only [hu, kindOf_cons, ht]
  refine (Course.Goes.next (by simp [ht])).bind fun opener _ _ _ => (hc opener (by omega)).bind fun _ _ _ _ => ?_
  refine (hcs (by omega)).bind fun _ _ _ _ => (ho (by omega)).bind fun _ _ _ _ => ?_
  exact (Course.Goes.expectClosing hz (by simp)).done

theorem whileStat {c : Expr} {b : Block} (ht : t.kind = .keyword .while) (hy : y.kind = .keyword .do)
    (hz : z.kind = .keyword .end) (ih₁ : T.Passes ts m₁ (y :: ts₁) (.expr 0 c))
    (ih₂ : T.Passes ts₁ m₂ (z :: next) (.block b)) :
    T.Passes (t :: ts) (.plain t :: (m₁ ++ .plain y :: (m₂ ++ [.plain z]))) next
      (.stmt (.while t.pos c b)) := by
  refine still rfl fun env hw d σ hd => ?_
  simp only [List.length_cons, List.length_append, List.length_nil] at hd
  obtain ⟨d, rfl⟩ : ∃ d', d = d' + 1 := ⟨d - 1, by omega⟩
  have hc := ih₁ env (hw.mono (by simp +contextual [scopeStmt]) (by simp +contextual [walkStmt]))
  have hb := ih₂ env (hw.mono (by simp +contextual [scopeStmt]) (by simp +contextual [walkStmt]))
  rw [statement]
  refine .peek fun u hu => ?_
  simp only [hu, kindOf_cons, ht]
  refine (Course.Goes.next (by simp [ht])).bind fun _ _ _ _ => (hc (by omega)).bind fun _ _ _ _ => ?_
  refine (Course.Goes.expect hy (by simp)).bind fun _ _ _ _ => (hb (by omega)).bind fun _ _ _ _ => ?_
  exact (Course.Goes.expectClosing hz (by simp)).done

theorem doStat {b : Block} (ht : t.kind = .keyword .do) (hz : z.kind = .keyword .end)
    (ih : T.Passes ts ms (z :: next) (.block b)) :
    T.Passes (t :: ts) (.plain t :: (ms ++ [.plain z])) next (.stmt (.do t.pos b)) := by
  refine still rfl fun env hw d σ hd => ?_
  simp only [List.length_cons, List.length_append, List.length_nil] at hd
  obtain ⟨d, rfl⟩ : ∃ d', d = d' + 1 := ⟨d - 1, by omega⟩
  have hb := ih env (hw.mono (by simp +contextual [scopeStmt]) (by simp +contextual [walkStmt]))
  rw [statement]
  refine .peek fun u hu => ?_
  simp only [hu, kindOf_cons, ht]
  refine (Course.Goes.next (by simp [ht])).bind fun _ _ _ _ => (hb (by omega)).bind fun _ _ _ _ => ?_
  exact (Course.Goes.expectClosing hz (by simp)).done

/-- What the body of a `repeat` declares is in view in its condition. -/
theorem repeatStat {ss : List Stmt} {c : Expr} (ht : t.kind = .keyword .repeat)
    (hy : y.kind = .keyword .until) (ih₁ : T.Passes (w :: ts) m₁ (y :: ts₁) (.stmts ss))
    (ih₂ : T.Passes ts₁ m₂ next (.expr 0 c)) :
    T.Passes (t :: w :: ts) (.plain t :: (m₁ ++ .plain y :: m₂)) next
      (.stmt (.repeat t.pos (.mk w.pos ss) c)) := by
  refine still rfl fun env hw d σ hd => ?_
  simp only [List.length_cons, List.length_append] at hd
  obtain ⟨d, rfl⟩ : ∃ d', d = d' + 1 := ⟨d - 1, by omega⟩
  have hss := ih₁ env (hw.mono (by simp +contextual [scopeStmt]) (by simp +contextual [walkStmt, walkBlock]))
  have hc := ih₂ (env.after ss) (hw.mono (by simp +contextual [scopeStmt]) (by simp +contextual [walkStmt]))
  rw [statement]
  refine .peek fun u hu => ?_
  simp only [hu, kindOf_cons, ht]
  refine (Course.Goes.next (by simp [ht])).bind fun opener _ _ _ => .peek fun _ _ => ?_
  refine (Moves.inScope (env.after ss) ?_).done
  refine (hss (by omega)).bind fun _ _ _ => Goes.moves (Q := Unsaid) ?_
  refine (Course.Goes.expectClosing hy (by simp)).bind fun _ _ _ _ => ?_
  exact (hc (by omega)).done

/-- The body of a loop, where the variables of the loop are in view. -/
theorem loopBody {env : Env} {ds : List Decl} {ns : List Name} {σ : Scopes} {d : Nat} {o : Token}
    (hy : y.kind = .keyword .do) (hz : z.kind = .keyword .end)
    (hb : T.Crosses (env.extend ds) Parse.block 4 Unsaid ts ms (z :: next))
    (hd : 10 * ms.length + 5 ≤ d) (hns : σ.KnowsAll ns ds) :
    T.Goes env σ (Parse.loopBody d o ns) Unsaid (y :: ts) next := by
  obtain ⟨d, rfl⟩ : ∃ d', d = d' + 1 := ⟨d - 1, by omega⟩
  rw [Parse.loopBody]
  refine (Course.Goes.expect hy (by simp)).bind fun _ _ hext _ => ?_
  refine (Moves.inScope (env.extend ds) ?_).bind fun _ _ _ _ => (Course.Goes.expectClosing hz (by simp)).done
  exact (Moves.activate (hns.extends hext)).bind fun _ _ _ => (hb (by omega)).moves

/-- No store is refused in the header, where the variable is not in view yet, that would not be refused
outside. -/
theorem numericFor {n : Name} {a b : Expr} {o : Option Expr} {body : Block}
    (ht : t.kind = .keyword .for) (hv : v.writes n) (hq : q.kind = .symbol .assign)
    (hy₁ : y₁.kind = .symbol .comma) (hy₂ : y₂.kind = .keyword .do) (hz : z.kind = .keyword .end)
    (ih₁ : T.Passes ts m₁ (y₁ :: ts₁) (.expr 0 a)) (ih₂ : T.Passes ts₁ m₂ ts₂ (.expr 0 b))
    (ih₃ : T.Passes ts₂ m₃ (y₂ :: ts₃) (.step o)) (ih₄ : T.Passes ts₃ m₄ (z :: next) (.block body)) :
    T.Passes (t :: v :: q :: ts) (.plain t :: .named v n :: .plain q :: (m₁ ++ .plain y₁ ::
      (m₂ ++ (m₃ ++ .plain y₂ :: (m₄ ++ [.plain z]))))) next
      (.stmt (.numericFor t.pos n a b o body)) := by
  refine still rfl fun env hw d σ hd => ?_
  simp only [List.length_cons, List.length_append, List.length_nil] at hd
  obtain ⟨d, rfl⟩ : ∃ d', d = d' + 2 := ⟨d - 2, by omega⟩
  have ha := ih₁ env (hw.mono (by simp +contextual [scopeStmt, Scoping.declare]) (by simp +contextual [walkStmt]))
  have hstop := ih₂ env
    (hw.mono (by simp +contextual [scopeStmt, Scoping.declare]) (by simp +contextual [walkStmt]))
  have hstep := ih₃ env
    (hw.mono (by simp +contextual [scopeStmt, Scoping.declare]) (by simp +contextual [walkStmt]))
  have hbody := ih₄ (env.extend ((bare [n]).map (.ofName .loop t.pos)))
    (hw.mono (by simp +contextual [scopeStmt]) (by simp +contextual [walkStmt]))
  rw [statement]
  refine .peek fun u hu => ?_
  simp only [hu, kindOf_cons, ht]
  refine (Course.Goes.next (by simp [ht])).bind fun opener _ _ _ => ?_
  rw [forLoop]
  refine (Course.Goes.expectName hv.1).bind fun x _ _ hx => Goes.newScope.bind fun scope _ _ _ => ?_
  subst hx
  refine .accept_yes hq (by simp) ((ha (by omega)).bind fun _ _ _ _ => ?_)
  refine (Course.Goes.expect hy₁ (by simp)).bind fun _ _ _ _ => (hstop (by omega)).bind fun _ _ _ _ => ?_
  refine (hstep (by omega)).bind fun _ _ _ _ => (Goes.declare _ .loop scope).bind fun _ _ _ hn => ?_
  exact (loopBody hy₂ hz hbody (by omega) (.cons hn .nil)).done

/-- The names of the loop are declared after its values have been read. -/
theorem genericFor {ns : List Name} {vs : List Expr} {body : Block} (ht : t.kind = .keyword .for)
    (hns : Names ns ts m₁ (y₁ :: ts₁)) (hy₁ : y₁.kind = .keyword .in) (hy₂ : y₂.kind = .keyword .do)
    (hz : z.kind = .keyword .end) (ih₁ : T.Passes ts₁ m₂ (y₂ :: ts₂) (.exprs vs))
    (ih₂ : T.Passes ts₂ m₃ (z :: next) (.block body)) :
    T.Passes (t :: ts) (.plain t :: (m₁ ++ .plain y₁ :: (m₂ ++ .plain y₂ :: (m₃ ++ [.plain z]))))
      next (.stmt (.genericFor t.pos ns vs body)) := by
  refine still rfl fun env hw d σ hd => ?_
  simp only [List.length_cons, List.length_append, List.length_nil] at hd
  obtain ⟨d, rfl⟩ : ∃ d', d = d' + 2 := ⟨d - 2, by omega⟩
  have hvs := ih₁ env (hw.mono (by simp +contextual [scopeStmt, Scoping.declare]) (by simp +contextual [walkStmt]))
  have hbody := ih₂ (env.extend ((bare ns).map (.ofName .loop t.pos)))
    (hw.mono (by simp +contextual [scopeStmt]) (by simp +contextual [walkStmt]))
  rw [statement]
  refine .peek fun u hu => ?_
  simp only [hu, kindOf_cons, ht]
  refine (Course.Goes.next (by simp [ht])).bind fun opener _ _ _ => ?_
  -- the values, the declaration of the names and the body, in whatever way the names were read
  have hrest : ∀ {σ : Scopes} {x : Ident} {scope : Nat} {xs : Option (List Ident)},
      x :: xs.getD [] = ns.map Name.ident → T.Goes env σ (do
        let _ ← expect (.keyword .in)
        let vs ← exprs d
        let ns ← onScopes (Scopes.declareAll .loop scope
          ((x :: xs.getD []).map fun x => (x, (none : Option Attrib))))
        let body ← Parse.loopBody d opener ns
        return Stmt.genericFor opener.pos ns vs body) Unsaid (y₁ :: ts₁) next := by
    intro σ x scope xs hxs
    refine (Course.Goes.expect hy₁ (by simp)).bind fun _ _ _ _ => (hvs (by omega)).bind fun _ _ _ _ => ?_
    refine (Goes.declareBare hxs .loop scope t.pos).bind fun _ _ _ hns => ?_
    exact (loopBody hy₂ hz hbody (by omega) hns).done
  rw [forLoop]
  cases hns with
  | last hv hcomma =>
    refine (Course.Goes.expectName hv.1).bind fun x _ _ hx => Goes.newScope.bind fun _ _ _ _ => ?_
    subst hx
    refine .accept_no (by simp [hy₁]) (.check_no (by simp [hy₁]) (.check_yes hy₁ ?_))
    refine (Course.Goes.after?_no hcomma).bind fun _ _ _ hxs => hrest ?_
    simp [hxs, hv.ident]
  | cons hv hy htail =>
    simp only [List.length_cons] at hd
    refine (Course.Goes.expectName hv.1).bind fun x _ _ hx => Goes.newScope.bind fun _ _ _ _ => ?_
    subst hx
    refine .accept_no (by simp [hy]) (.check_yes hy (.check_no (by simp [hy]) ?_))
    refine (Course.Goes.after?_yes hy (by simp) (htail.goes (by omega))).bind fun _ _ _ hxs => hrest ?_
    obtain ⟨xs, rfl, rfl⟩ := hxs
    simp [hv.ident]

/-- The parameters are in view in the body, and none of them is a constant. -/
theorem func {ns : List Name} {more : Bool} {b : Block} (ht : t.kind = .symbol .parenOpen)
    (hps : ParamList ns more ts m₁ (y :: ts₁)) (hy : y.kind = .symbol .parenClose)
    (hz : z.kind = .keyword .end) (ih : T.Passes ts₁ m₂ (z :: next) (.block b)) :
    T.Passes (t :: ts) (.plain t :: (m₁ ++ .plain y :: (m₂ ++ [.plain z]))) next
      (.func (.mk t.pos ns more b)) := by
  intro env m hw o d σ hd
  simp only [List.length_cons, List.length_append, List.length_nil] at hd
  obtain ⟨d, rfl⟩ : ∃ d', d = d' + 1 := ⟨d - 1, by omega⟩
  have hb := ih (env.extend (implicitSelf m t.pos ++ (bare ns).map (.ofName .param t.pos)))
    (hw.mono (by simp +contextual [scopeFunc]) (by simp +contextual [walkFunc]))
  rw [Env.extend_append] at hb
  show T.Goes env σ (funcBody (d + 1) o m) Unsaid (t :: ts) next
  rw [funcBody]
  refine (Course.Goes.expect ht (by simp)).bind fun _ _ _ _ => Goes.newScope.bind fun scope _ _ _ => ?_
  refine (Goes.declareSelf m scope t.pos).bind fun self _ _ hself => ?_
  refine (hps.goes t.pos (by omega)).bind fun r _ hext hr => ?_
  refine (Course.Goes.expect hy (by simp)).bind fun _ _ hext' _ => ?_
  refine (Moves.inScope ((env.extend (implicitSelf m t.pos)).extend ((bare ns).map (.ofName .param t.pos)))
    ?_).bind fun _ _ _ _ => (Course.Goes.expectClosing hz (by simp)).done
  refine (hself (hext.trans hext')).bind fun _ _ hext'' => ?_
  refine (Moves.activate (hr.extends (hext'.trans hext''))).bind fun _ _ _ => (hb (by omega)).moves

/-- A function statement: the name is stored to if nothing follows it. -/
theorem functionStat {n : Name} {target : Expr} {m : Bool} {f : FuncBody}
    (ht : t.kind = .keyword .function) (hv : v.writes n) (hp : Path (.name n) target m ts m₁ ts₁)
    (ih : T.Passes ts₁ m₂ next (.func f)) :
    T.Passes (t :: v :: ts) (.plain t :: .named v n :: (m₁ ++ m₂)) next
      (.stmt (.function t.pos target f m)) := by
  refine still rfl fun env hw d σ hd => ?_
  simp only [List.length_cons, List.length_append] at hd
  obtain ⟨d, rfl⟩ : ∃ d', d = d' + 1 := ⟨d - 1, by omega⟩
  have hf := ih env m (hw.mono (by simp +contextual [scopeStmt]) (by simp +contextual [walkStmt]))
  have hcovers : T.Covers env (plainNames [target]) :=
    hw.covers (by simp +contextual [scopeStmt, scopeExprs])
      (by simp +contextual [walkStmt, targetsOf_cons, Node.targets])
  rw [statement]
  refine .peek fun u hu => ?_
  simp only [hu, kindOf_cons, ht]
  refine (Course.Goes.next (by simp [ht])).bind fun opener _ _ _ => (Course.Goes.expectName hv.1).bind ?_
  rintro _ _ - rfl
  refine (Goes.reference _).bind fun root τ _ hroot => ?_
  have hholds : Holds env (.name n) (.name root) τ :=
    ⟨rfl, rfl, fun _ h => ⟨n, rfl, by cases h; exact hroot.1.trans hv.ident, by cases h; exact hroot.2⟩⟩
  refine (hp.goes (by omega) hholds).bind ?_
  rintro ⟨e, _⟩ _ _ ⟨he, rfl⟩
  exact (Goes.markTarget he hcovers).bind fun _ _ _ _ => (hf opener (by omega)).done

/-- A declaration after its word. -/
theorem declaration {s : Stmt} (ht : t.kind = .keyword .local)
    (h : ∀ env, T.Within (scopeStmt env s) (walkStmt s) → ∀ ⦃d : Nat⦄ ⦃σ : Scopes⦄,
      10 * ms.length + 1 ≤ d → ∀ o, T.Moves env (env.extend s.declares) σ (localStat d o) ts next) :
    T.Passes (t :: ts) (.plain t :: ms) next (.stmt s) := by
  intro env hw d σ hd
  simp only [List.length_cons] at hd
  obtain ⟨d, rfl⟩ : ∃ d', d = d' + 1 := ⟨d - 1, by omega⟩
  have hstat : ∀ τ o, T.Moves env (env.extend s.declares) τ (localStat d o) ts next :=
    fun _ o => h env hw (by omega) o
  rw [statement]
  refine fun hσ => Course.Goes.peek fun u hu => ?_
  simp only [hu, kindOf_cons, ht]
  exact Goes.then (Course.Goes.next (by simp [ht])) (fun o τ _ _ => hstat τ o) hσ

/-- The name of the function is in view in its body, and is no constant. -/
theorem localFunction {n : Name} {f : FuncBody} (ht : t.kind = .keyword .local)
    (hw : w.kind = .keyword .function) (hv : v.writes n) (ih : T.Passes ts ms next (.func f)) :
    T.Passes (t :: w :: v :: ts) (.plain t :: .plain w :: .named v n :: ms) next
      (.stmt (.localFunction t.pos n f)) := by
  refine declaration ht fun env hwithin d σ hd o => ?_
  simp only [List.length_cons] at hd
  obtain ⟨d, rfl⟩ : ∃ d', d = d' + 1 := ⟨d - 1, by omega⟩
  have hf := ih (env.extend ((bare [n]).map (.ofName .function t.pos))) false
    (hwithin.mono (by simp +contextual [scopeStmt]) (by simp +contextual [walkStmt]))
  rw [localStat]
  refine fun hσ => .check_yes hw (Goes.then (Course.Goes.next (by simp [hw])) ?_ hσ)
  refine fun word _ _ _ => Goes.then (Course.Goes.expectName hv.1) ?_
  rintro _ _ - rfl
  refine Goes.newScope.then fun scope _ _ _ => (Goes.declare _ .function scope).then fun x _ _ hx => ?_
  have hall : Scopes.KnowsAll _ [x] ((bare [n]).map (.ofName .function t.pos)) := .cons hx .nil
  exact (Moves.activate hall).bind fun _ _ _ => Goes.moves (Course.Goes.done (hf word (by omega)))

/-- The values are read before the names become visible. -/
theorem localStat {xs : List (Name × Option Attrib)} {vs : List Expr} (ht : t.kind = .keyword .local)
    (hxs : Locals xs ts m₁ ts₁) (ih : T.Passes ts₁ m₂ next (.initial vs)) :
    T.Passes (t :: ts) (.plain t :: (m₁ ++ m₂)) next
      (.stmt (.local t.pos (xs.map (·.1)) (xs.map (·.2)) vs)) := by
  refine declaration ht fun env hw d σ hd o => ?_
  simp only [List.length_append] at hd
  obtain ⟨d, rfl⟩ : ∃ d', d = d' + 1 := ⟨d - 1, by omega⟩
  have hvs := ih env (hw.mono (by simp +contextual [scopeStmt, Scoping.declare]) (by simp +contextual [walkStmt]))
  have hfunction : kindOf ts ≠ .keyword .function := by
    cases hxs with
    | last hv => simp [hv.1]
    | cons hv => simp [hv.1]
  rw [Stmt.declares, withAttribs_map, Parse.localStat]
  refine fun hσ hts => Course.Goes.check_no hfunction (Goes.then Goes.newScope ?_ hσ) hts
  have hall := hxs.declares hts.suffix
  refine fun scope _ _ _ => Goes.then (hxs.goes (by omega)) ?_
  rintro _ _ - rfl
  refine (hvs (by omega)).then fun _ _ _ _ => (Goes.declareAll .local scope t.pos hall).then fun ns _ _ hns => ?_
  exact (Moves.activate hns).done

theorem breakStat (ht : t.kind = .keyword .break) :
    T.Passes (t :: next) [.plain t] next (.stmt (.break t.pos)) := by
  refine still rfl fun env _ d σ hd => ?_
  obtain ⟨d, rfl⟩ : ∃ d', d = d' + 1 := ⟨d - 1, by omega⟩
  rw [statement]
  refine .peek fun u hu => ?_
  simp only [hu, kindOf_cons, ht]
  exact (Course.Goes.next (by simp [ht])).done

theorem gotoStat {x : Text} (ht : t.kind = .keyword .goto) (hk : k.kind = .name x) :
    T.Passes (t :: k :: next) [.plain t, .plain k] next (.stmt (.goto t.pos x)) := by
  refine still rfl fun env _ d σ hd => ?_
  obtain ⟨d, rfl⟩ : ∃ d', d = d' + 1 := ⟨d - 1, by omega⟩
  rw [statement]
  refine .peek fun u hu => ?_
  simp only [hu, kindOf_cons, ht]
  exact (Course.Goes.next (by simp [ht])).bind fun _ _ _ _ => (Course.Goes.expectName hk).done

theorem labelStat {x : Text} (ht : t.kind = .symbol .colons) (hk : k.kind = .name x)
    (hz : z.kind = .symbol .colons) :
    T.Passes (t :: k :: z :: next) [.plain t, .plain k, .plain z] next (.stmt (.label t.pos x)) := by
  refine still rfl fun env _ d σ hd => ?_
  obtain ⟨d, rfl⟩ : ∃ d', d = d' + 1 := ⟨d - 1, by omega⟩
  rw [statement]
  refine .peek fun u hu => ?_
  simp only [hu, kindOf_cons, ht]
  refine (Course.Goes.next (by simp [ht])).bind fun _ _ _ _ => (Course.Goes.expectName hk).bind fun _ _ _ _ => ?_
  exact (Course.Goes.expect hz (by simp)).done

/-- Here stores may be refused: the plain targets are checked from left to right once the last of them has
been read, and before the values. -/
theorem assign {e : Expr} {es vs : List Expr} (hr : Reads (.suffixed e) (t :: ts) m₁ ts₁)
    (hq : q.kind = .symbol .assign) (hall : (e :: es).all Expr.assignable = true)
    (hrest : Reads (.targets es) ts₁ m₂ (q :: ts₂))
    (ih₁ : T.Passes (t :: ts) m₁ ts₁ (.suffixed e)) (ih₂ : T.Passes ts₁ m₂ (q :: ts₂) (.targets es))
    (ih₃ : T.Passes ts₂ m₃ next (.exprs vs)) :
    T.Passes (t :: ts) (m₁ ++ (m₂ ++ .plain q :: m₃)) next (.stmt (.assign t.pos (e :: es) vs)) := by
  refine still rfl fun env hw d σ hd => ?_
  simp only [List.length_cons, List.length_append] at hd
  obtain ⟨d, rfl⟩ : ∃ d', d = d' + 2 := ⟨d - 2, by omega⟩
  have he := ih₁ env
    (hw.mono (by simp +contextual [scopeStmt, scopeExprs]) (by simp +contextual [walkStmt, walkExprs]))
  have hes := ih₂ env
    (hw.mono (by simp +contextual [scopeStmt, scopeExprs]) (by simp +contextual [walkStmt, walkExprs]))
  have hvs := ih₃ env (hw.mono (by simp +contextual [scopeStmt]) (by simp +contextual [walkStmt]))
  have hcovers : T.Covers env (plainNames (e :: es)) :=
    hw.covers (by simp +contextual [scopeStmt]) fun n hn => List.mem_append_left _ hn
  refine .congr (statement_exprStat hr.suffixed_kindOf) ?_
  rw [exprStat]
  refine .peek fun first _ => (he (by omega)).bind fun e' τ _ he' => ?_
  -- the targets and the values, whatever sign stands behind the first target
  have hboth : T.Goes env τ (do
      let ts ← moreTargets d
      let _ ← expect (.symbol .assign)
      checkTargets first (e' :: ts)
      let vs ← exprs d
      return Stmt.assign first.pos (e' :: ts) vs) Unsaid ts₁ next := by
    refine (hes (by omega)).bind fun es' _ hext hes' => (Course.Goes.expect hq (by simp)).bind fun _ _ hext' _ => ?_
    refine (Goes.checkTargets (.cons (he'.extends hext) hes') hext' hall hcovers).bind fun _ _ _ _ => ?_
    exact (hvs (by omega)).done
  cases hrest with
  | targetsEnd hcomma =>
    refine .check_yes hq (.check_no hcomma ?_)
    simpa using hboth
  | targetsCons ht =>
    refine .check_no (by simp [ht]) (.check_yes ht ?_)
    simpa using hboth

/-- A call stores to nothing. -/
theorem callStat {e : Expr} (hr : Reads (.suffixed e) (t :: ts) ms next) (hcall : e.isCall = true)
    (hassign : kindOf next ≠ .symbol .assign) (hcomma : kindOf next ≠ .symbol .comma)
    (ih : T.Passes (t :: ts) ms next (.suffixed e)) : T.Passes (t :: ts) ms next (.stmt (.call t.pos e)) := by
  refine still rfl fun env hw d σ hd => ?_
  obtain ⟨d, rfl⟩ : ∃ d', d = d' + 2 := ⟨d - 2, by omega⟩
  have he := ih env (hw.mono (by simp +contextual [scopeStmt]) (by simp +contextual [walkStmt]))
  refine .congr (statement_exprStat hr.suffixed_kindOf) ?_
  rw [exprStat]
  refine .peek fun first _ => (he (by omega)).bind fun e' τ _ he' => .check_no hassign (.check_no hcomma ?_)
  rw [if_neg (by simp), if_pos (he'.isCall.trans hcall)]
  exact .pure trivial

/-! Parts of statements. -/

theorem clause {c : Expr} {b : Block} {p : Pos} (hy : y.kind = .keyword .then)
    (ih₁ : T.Passes ts m₁ (y :: ts₁) (.expr 0 c)) (ih₂ : T.Passes ts₁ m₂ next (.block b)) :
    T.Passes ts (m₁ ++ .plain y :: m₂) next (.clause (.mk p c b)) := by
  intro env hw o d σ hd
  simp only [List.length_cons, List.length_append] at hd
  obtain ⟨d, rfl⟩ : ∃ d', d = d' + 1 := ⟨d - 1, by omega⟩
  have hc := ih₁ env (hw.mono (by simp +contextual [scopeClause]) (by simp +contextual [walkClauses]))
  have hb := ih₂ env (hw.mono (by simp +contextual [scopeClause]) (by simp +contextual [walkClauses]))
  show T.Goes env σ (Parse.clause (d + 1) o) Unsaid ts next
  rw [Parse.clause]
  refine (hc (by omega)).bind fun _ _ _ _ => (Course.Goes.expect hy (by simp)).bind fun _ _ _ _ => ?_
  exact (hb (by omega)).done

theorem elsesEnd (helse : kindOf next ≠ .keyword .elseif) : T.Passes next [] next (.elses []) := by
  intro env _ d σ hd
  obtain ⟨d, rfl⟩ : ∃ d', d = d' + 1 := ⟨d - 1, by omega⟩
  rw [elseClauses]
  exact .check_no helse (.pure trivial)

theorem elsesCons {c : IfClause} {cs : List IfClause} (ht : t.kind = .keyword .elseif)
    (ih₁ : T.Passes ts m₁ ts₁ (.clause c)) (ih₂ : T.Passes ts₁ m₂ next (.elses cs)) :
    T.Passes (t :: ts) (.plain t :: (m₁ ++ m₂)) next (.elses (c :: cs)) := by
  intro env hw d σ hd
  simp only [List.length_cons, List.length_append] at hd
  obtain ⟨d, rfl⟩ : ∃ d', d = d' + 1 := ⟨d - 1, by omega⟩
  obtain ⟨p, e, b⟩ := c
  have hc := ih₁ env (hw.mono (by simp +contextual [scopeClauses]) (by simp +contextual [walkClauses, or_imp]))
  have hcs := ih₂ env (hw.mono (by simp +contextual [scopeClauses]) (by simp +contextual [walkClauses]))
  rw [elseClauses]
  refine .check_yes ht ((Course.Goes.next (by simp [ht])).bind fun u _ _ _ => ?_)
  exact (hc u (by omega)).bind fun _ _ _ _ => (hcs (by omega)).done

theorem targetsEnd (hcomma : kindOf next ≠ .symbol .comma) : T.Passes next [] next (.targets []) := by
  intro env _ d σ hd
  obtain ⟨d, rfl⟩ : ∃ d', d = d' + 1 := ⟨d - 1, by omega⟩
  rw [moreTargets]
  exact .accept_no hcomma (.pure .nil)

/-- What stands for a target goes on standing for it while the others are read. -/
theorem targetsCons {e : Expr} {es : List Expr} (ht : t.kind = .symbol .comma)
    (ih₁ : T.Passes ts m₁ ts₁ (.suffixed e)) (ih₂ : T.Passes ts₁ m₂ next (.targets es)) :
    T.Passes (t :: ts) (.plain t :: (m₁ ++ m₂)) next (.targets (e :: es)) := by
  intro env hw d σ hd
  simp only [List.length_cons, List.length_append] at hd
  obtain ⟨d, rfl⟩ : ∃ d', d = d' + 1 := ⟨d - 1, by omega⟩
  have he := ih₁ env (hw.mono (by simp +contextual [scopeExprs]) (by simp +contextual [walkExprs]))
  have hes := ih₂ env (hw.mono (by simp +contextual [scopeExprs]) (by simp +contextual [walkExprs]))
  rw [moreTargets]
  refine .accept_yes ht (by simp) ((he (by omega)).bind fun e' _ _ he' => ?_)
  exact (hes (by omega)).bind fun es' _ hext hes' => .pure (.cons (he'.extends hext) hes')

/-! ## 4. Expressions -/

theorem exprsOne {e : Expr} (hcomma : kindOf next ≠ .symbol .comma)
    (ih : T.Passes ts ms next (.expr 0 e)) : T.Passes ts ms next (.exprs [e]) := by
  intro env hw d σ hd
  obtain ⟨d, rfl⟩ : ∃ d', d = d' + 1 := ⟨d - 1, by omega⟩
  have he := ih env (hw.mono (by simp +contextual [scopeExprs]) (by simp +contextual [walkExprs]))
  rw [exprs]
  exact (he (by omega)).bind fun _ _ _ _ => .accept_no hcomma (.pure trivial)

theorem exprsCons {e : Expr} {es : List Expr} (hy : y.kind = .symbol .comma)
    (ih₁ : T.Passes ts m₁ (y :: ts₁) (.expr 0 e)) (ih₂ : T.Passes ts₁ m₂ next (.exprs es)) :
    T.Passes ts (m₁ ++ .plain y :: m₂) next (.exprs (e :: es)) := by
  intro env hw d σ hd
  simp only [List.length_cons, List.length_append] at hd
  obtain ⟨d, rfl⟩ : ∃ d', d = d' + 1 := ⟨d - 1, by omega⟩
  have he := ih₁ env (hw.mono (by simp +contextual [scopeExprs]) (by simp +contextual [walkExprs]))
  have hes := ih₂ env (hw.mono (by simp +contextual [scopeExprs]) (by simp +contextual [walkExprs]))
  rw [exprs]
  exact (he (by omega)).bind fun _ _ _ _ => .accept_yes hy (by simp) (hes (by omega)).done

/-- An operator stores to no more than its operands do. -/
theorem unary {op : UnaryOp} {e r : Expr} {limit : Nat} (hop : UnaryOp.ofKind? t.kind = some op)
    (hr : Reads (.operators limit (.unary t.pos op e) r) ts₁ m₂ next)
    (ih₁ : T.Passes ts m₁ ts₁ (.expr UnaryOp.power e))
    (ih₂ : T.Passes ts₁ m₂ next (.operators limit (.unary t.pos op e) r)) :
    T.Passes (t :: ts) (.plain t :: (m₁ ++ m₂)) next (.expr limit r) := by
  intro env hw d σ hd
  simp only [List.length_cons, List.length_append] at hd
  obtain ⟨d, rfl⟩ : ∃ d', d = d' + 1 := ⟨d - 1, by omega⟩
  have he := ih₁ env ((T.head hr env hw).mono (by simp [scopeExpr]) (by simp [walkExpr]))
  have hr := ih₂ env hw
  have heof : t.kind ≠ .eof := fun h => by
    rw [h] at hop
    cases hop
  show T.Goes env σ (Parse.expr (d + 1) limit) Unsaid (t :: ts) next
  rw [Parse.expr]
  refine .peek fun u hu => ?_
  simp only [hu, kindOf_cons, hop]
  refine (Course.Goes.next heof).bind fun _ _ _ _ => (he (by omega)).bind fun _ _ _ _ => ?_
  exact hr _ (by omega)

/-- The operators are read after whatever their left operand was read to. -/
theorem operand {e r : Expr} {limit : Nat} (hop : UnaryOp.ofKind? (kindOf ts) = none)
    (hr₁ : Reads (.simple e) ts m₁ ts₁) (hr₂ : Reads (.operators limit e r) ts₁ m₂ next)
    (ih₁ : T.Passes ts m₁ ts₁ (.simple e)) (ih₂ : T.Passes ts₁ m₂ next (.operators limit e r)) :
    T.Passes ts (m₁ ++ m₂) next (.expr limit r) := by
  intro env hw d σ hd
  have hpos := hr₁.length_pos trivial
  simp only [List.length_append] at hd
  obtain ⟨d, rfl⟩ : ∃ d', d = d' + 1 := ⟨d - 1, by omega⟩
  have he := ih₁ env (T.head hr₂ env hw)
  have hr := ih₂ env hw
  show T.Goes env σ (Parse.expr (d + 1) limit) Unsaid ts next
  rw [Parse.expr]
  refine .peek fun u hu => ?_
  simp only [hu, hop]
  exact (he (by omega)).bind fun l _ _ _ => hr l (by omega)

/-- Where the operators end, nothing is read. -/
theorem operatorsEnd {e : Expr} {limit : Nat}
    (hop : ∀ op, BinaryOp.ofKind? (kindOf next) = some op → op.leftPower ≤ limit) :
    T.Passes next [] next (.operators limit e e) := by
  intro env _ l d σ hd
  obtain ⟨d, rfl⟩ : ∃ d', d = d' + 1 := ⟨d - 1, by omega⟩
  show T.Goes env σ (Parse.operators (d + 1) limit l) Unsaid next next
  rw [Parse.operators]
  refine .peek fun u hu => ?_
  rw [hu]
  cases h : BinaryOp.ofKind? (kindOf next) with
  | none => exact .pure trivial
  | some op =>
    show T.Goes env σ (if op.leftPower ≤ limit then _ else _) Unsaid next next
    rw [if_pos (hop op h)]
    exact .pure trivial

/-- The right operand and the operators after it are read with the limit of the operator. -/
theorem operator {op : BinaryOp} {l r e : Expr} {limit : Nat} (hop : BinaryOp.ofKind? t.kind = some op)
    (hlimit : limit < op.leftPower)
    (hr : Reads (.operators limit (.binary t.pos op l r) e) ts₁ m₂ next)
    (ih₁ : T.Passes ts m₁ ts₁ (.expr op.rightPower r))
    (ih₂ : T.Passes ts₁ m₂ next (.operators limit (.binary t.pos op l r) e)) :
    T.Passes (t :: ts) (.plain t :: (m₁ ++ m₂)) next (.operators limit l e) := by
  intro env hw l' d σ hd
  simp only [List.length_cons, List.length_append] at hd
  obtain ⟨d, rfl⟩ : ∃ d', d = d' + 1 := ⟨d - 1, by omega⟩
  have hright := ih₁ env
    ((T.head hr env hw).mono (by simp +contextual [scopeExpr]) (by simp +contextual [walkExpr]))
  have hrest := ih₂ env hw
  have heof : t.kind ≠ .eof := fun h => by
    rw [h] at hop
    cases hop
  show T.Goes env σ (Parse.operators (d + 1) limit l') Unsaid (t :: ts) next
  rw [Parse.operators]
  refine .peek fun u hu => ?_
  simp only [hu, kindOf_cons, hop, if_neg (Nat.not_le.mpr hlimit)]
  refine (Course.Goes.next heof).bind fun _ _ _ _ => (hright (by omega)).bind fun _ _ _ _ => ?_
  exact hrest _ (by omega)

/-- An operand of one token. -/
theorem literal {e : Expr} (hne : t.kind ≠ .eof)
    (hrun : ∀ {d : Nat} {σ : Scopes}, simpleExpr (d + 1) (stateAt (t :: next) σ)
      = (Parse.next >>= fun _ => pure e) (stateAt (t :: next) σ)) :
    T.Passes (t :: next) [.plain t] next (.simple e) := by
  intro env _ d σ hd
  obtain ⟨d, rfl⟩ : ∃ d', d = d' + 1 := ⟨d - 1, by omega⟩
  exact .congr hrun (Course.Goes.next hne).done

theorem tableExpr {e : Expr} (hr : Reads (.table e) ts ms next)
    (ih : T.Passes ts ms next (.table e)) : T.Passes ts ms next (.simple e) := by
  intro env hw d σ hd
  obtain ⟨d, rfl⟩ : ∃ d', d = d' + 1 := ⟨d - 1, by omega⟩
  rw [simpleExpr]
  refine .peek fun u hu => ?_
  simp only [hu, hr.table_kindOf]
  exact ih env hw (by omega)

theorem functionExpr {f : FuncBody} (ht : t.kind = .keyword .function)
    (ih : T.Passes ts ms next (.func f)) :
    T.Passes (t :: ts) (.plain t :: ms) next (.simple (.function t.pos f)) := by
  intro env hw d σ hd
  simp only [List.length_cons] at hd
  obtain ⟨d, rfl⟩ : ∃ d', d = d' + 1 := ⟨d - 1, by omega⟩
  have hf := ih env false (hw.mono (by simp [scopeExpr]) (by simp [walkExpr]))
  rw [simpleExpr]
  refine .peek fun u hu => ?_
  simp only [hu, kindOf_cons, ht]
  exact (Course.Goes.next (by simp [ht])).bind fun _ _ _ _ => Course.Goes.done (hf u (by omega))

theorem suffixedExpr {e : Expr} (hr : Reads (.suffixed e) ts ms next)
    (ih : T.Passes ts ms next (.suffixed e)) : T.Passes ts ms next (.simple e) := by
  intro env hw d σ hd
  obtain ⟨d, rfl⟩ : ∃ d', d = d' + 1 := ⟨d - 1, by omega⟩
  rw [simpleExpr]
  refine .peek fun u hu => ?_
  obtain ⟨x, hx⟩ | hx := hr.suffixed_kindOf
  all_goals
    simp only [hu, hx]
    exact Course.Goes.unsaid (ih env hw (by omega))

/-- A name that is used stands for the declaration in view. -/
theorem name {n : Name} {e : Expr} (hv : v.writes n) (ih : T.Passes ts ms next (.suffixes (.name n) e)) :
    T.Passes (v :: ts) (.named v n :: ms) next (.suffixed e) := by
  intro env hw d σ hd
  simp only [List.length_cons] at hd
  obtain ⟨d, rfl⟩ : ∃ d', d = d' + 1 := ⟨d - 1, by omega⟩
  rw [Parse.suffixedExpr]
  refine .peek_cons ?_
  simp only [hv.1]
  refine (Course.Goes.next (by simp [hv.1])).bind fun _ _ _ _ => (Goes.reference _).bind fun x τ _ hx => ?_
  have hholds : Holds env (.name n) (.name x) τ :=
    ⟨rfl, rfl, fun _ h => ⟨n, rfl, by cases h; exact hx.1.trans hv.ident, by cases h; exact hx.2⟩⟩
  exact ih env hw (by omega) hholds

/-- A name in parentheses is no target. -/
theorem paren {i e : Expr} (ht : t.kind = .symbol .parenOpen) (hz : z.kind = .symbol .parenClose)
    (hr : Reads (.suffixes (.paren t.pos i) e) ts₁ m₂ next)
    (ih₁ : T.Passes ts m₁ (z :: ts₁) (.expr 0 i))
    (ih₂ : T.Passes ts₁ m₂ next (.suffixes (.paren t.pos i) e)) :
    T.Passes (t :: ts) (.plain t :: (m₁ ++ .plain z :: m₂)) next (.suffixed e) := by
  intro env hw d σ hd
  simp only [List.length_cons, List.length_append] at hd
  obtain ⟨d, rfl⟩ : ∃ d', d = d' + 1 := ⟨d - 1, by omega⟩
  have hi := ih₁ env ((T.head hr env hw).mono (by simp [scopeExpr]) (by simp [walkExpr]))
  rw [Parse.suffixedExpr]
  refine .peek fun u hu => ?_
  simp only [hu, kindOf_cons, ht]
  refine (Course.Goes.next (by simp [ht])).bind fun _ _ _ _ => (hi (by omega)).bind fun i' _ _ _ => ?_
  refine (Course.Goes.expectClosing hz (by simp)).bind fun _ _ _ _ => ?_
  exact ih₂ env hw (by omega) (.other rfl rfl rfl)

/-- What nothing is applied to stands for what it stood for. -/
theorem suffixesEnd {e : Expr} (hend : startsSuffix (kindOf next) = false) :
    T.Passes next [] next (.suffixes e e) := by
  intro env _ d σ e' hd he
  obtain ⟨d, rfl⟩ : ∃ d', d = d' + 1 := ⟨d - 1, by omega⟩
  rw [Parse.suffixes]
  refine .peek fun u hu => ?_
  rw [hu]
  generalize kindOf next = kind at hend
  split
  all_goals first | cases hend | exact .pure he

/-- A field is no plain target, whatever it is a field of. -/
theorem dot {h e : Expr} {x : Text} (ht : t.kind = .symbol .dot) (hk : k.kind = .name x)
    (ih : T.Passes ts ms next (.suffixes (.index h.pos h (.string k.pos x)) e)) :
    T.Passes (t :: k :: ts) (.plain t :: .plain k :: ms) next (.suffixes h e) := by
  intro env hw d σ h' hd _
  simp only [List.length_cons] at hd
  obtain ⟨d, rfl⟩ : ∃ d', d = d' + 1 := ⟨d - 1, by omega⟩
  rw [Parse.suffixes]
  refine .peek fun u hu => ?_
  simp only [hu, kindOf_cons, ht]
  refine (Course.Goes.next (by simp [ht])).bind fun _ _ _ _ => (Course.Goes.expectName hk).bind fun _ _ _ _ => ?_
  exact ih env hw (by omega) (.other rfl rfl rfl)

theorem bracket {h i e : Expr} (ht : t.kind = .symbol .bracketOpen) (hz : z.kind = .symbol .bracketClose)
    (hr : Reads (.suffixes (.index h.pos h i) e) ts₁ m₂ next)
    (ih₁ : T.Passes ts m₁ (z :: ts₁) (.expr 0 i))
    (ih₂ : T.Passes ts₁ m₂ next (.suffixes (.index h.pos h i) e)) :
    T.Passes (t :: ts) (.plain t :: (m₁ ++ .plain z :: m₂)) next (.suffixes h e) := by
  intro env hw d σ h' hd _
  simp only [List.length_cons, List.length_append] at hd
  obtain ⟨d, rfl⟩ : ∃ d', d = d' + 1 := ⟨d - 1, by omega⟩
  have hi := ih₁ env ((T.head hr env hw).mono (by simp +contextual [scopeExpr]) (by simp +contextual [walkExpr]))
  rw [Parse.suffixes]
  refine .peek fun u hu => ?_
  simp only [hu, kindOf_cons, ht]
  refine (Course.Goes.next (by simp [ht])).bind fun _ _ _ _ => (hi (by omega)).bind fun _ _ _ _ => ?_
  refine (Course.Goes.expect hz (by simp)).bind fun _ _ _ _ => ?_
  exact ih₂ env hw (by omega) (.other rfl rfl rfl)

theorem method {h e : Expr} {as : List Expr} {x : Text} (ht : t.kind = .symbol .colon)
    (hk : k.kind = .name x) (hr : Reads (.suffixes (.methodCall h.pos h x as) e) ts₁ m₂ next)
    (ih₁ : T.Passes ts m₁ ts₁ (.args as))
    (ih₂ : T.Passes ts₁ m₂ next (.suffixes (.methodCall h.pos h x as) e)) :
    T.Passes (t :: k :: ts) (.plain t :: .plain k :: (m₁ ++ m₂)) next (.suffixes h e) := by
  intro env hw d σ h' hd _
  simp only [List.length_cons, List.length_append] at hd
  obtain ⟨d, rfl⟩ : ∃ d', d = d' + 1 := ⟨d - 1, by omega⟩
  have has := ih₁ env ((T.head hr env hw).mono (by simp +contextual [scopeExpr]) (by simp +contextual [walkExpr]))
  rw [Parse.suffixes]
  refine .peek fun u hu => ?_
  simp only [hu, kindOf_cons, ht]
  refine (Course.Goes.next (by simp [ht])).bind fun _ _ _ _ => (Course.Goes.expectName hk).bind fun _ _ _ _ => ?_
  refine (has (by omega)).bind fun _ _ _ _ => ?_
  exact ih₂ env hw (by omega) (.other rfl rfl rfl)

theorem call {h e : Expr} {as : List Expr} (hr₁ : Reads (.args as) ts m₁ ts₁)
    (hr₂ : Reads (.suffixes (.call h.pos h as) e) ts₁ m₂ next) (ih₁ : T.Passes ts m₁ ts₁ (.args as))
    (ih₂ : T.Passes ts₁ m₂ next (.suffixes (.call h.pos h as) e)) :
    T.Passes ts (m₁ ++ m₂) next (.suffixes h e) := by
  intro env hw d σ h' hd _
  have hpos := hr₁.length_pos trivial
  simp only [List.length_append] at hd
  obtain ⟨d, rfl⟩ : ∃ d', d = d' + 1 := ⟨d - 1, by omega⟩
  have has := ih₁ env ((T.head hr₂ env hw).mono (by simp +contextual [scopeExpr]) (by simp +contextual [walkExpr]))
  rw [Parse.suffixes]
  refine .peek fun u hu => ?_
  obtain ⟨x, hx⟩ | hx | hx := hr₁.args_kindOf
  all_goals
    simp only [hu, hx]
    refine (has (by omega)).bind fun _ _ _ _ => ?_
    exact ih₂ env hw (by omega) (.other rfl rfl rfl)

theorem argString {x : Text} (ht : t.kind = .string x) :
    T.Passes (t :: next) [.plain t] next (.args [.string t.pos x]) := by
  intro env _ d σ hd
  obtain ⟨d, rfl⟩ : ∃ d', d = d' + 1 := ⟨d - 1, by omega⟩
  rw [callArgs]
  refine .peek fun u hu => ?_
  simp only [hu, kindOf_cons, ht]
  exact (Course.Goes.next (by simp [ht])).done

theorem argTable {e : Expr} (hr : Reads (.table e) ts ms next)
    (ih : T.Passes ts ms next (.table e)) : T.Passes ts ms next (.args [e]) := by
  intro env hw d σ hd
  obtain ⟨d, rfl⟩ : ∃ d', d = d' + 1 := ⟨d - 1, by omega⟩
  have he := ih env (hw.mono (by simp +contextual [scopeExprs]) (by simp +contextual [walkExprs]))
  rw [callArgs]
  refine .peek fun u hu => ?_
  simp only [hu, hr.table_kindOf]
  exact (he (by omega)).done

theorem argsNone (ht : t.kind = .symbol .parenOpen) (hz : z.kind = .symbol .parenClose) :
    T.Passes (t :: z :: next) [.plain t, .plain z] next (.args []) := by
  intro env _ d σ hd
  obtain ⟨d, rfl⟩ : ∃ d', d = d' + 1 := ⟨d - 1, by omega⟩
  have hclose : kindOf (z :: next) = .symbol .parenClose := hz
  rw [callArgs]
  refine .peek fun u hu => ?_
  simp only [hu, kindOf_cons, ht]
  refine (Course.Goes.expect ht (by simp)).bind fun _ _ _ _ => ?_
  refine (Course.Goes.before_yes (Q := Unsaid) hclose trivial).bind fun _ _ _ _ => ?_
  exact (Course.Goes.expectClosing hz (by simp)).done

theorem argsSome {as : List Expr} (ht : t.kind = .symbol .parenOpen)
    (hclose : kindOf ts ≠ .symbol .parenClose) (hz : z.kind = .symbol .parenClose)
    (ih : T.Passes ts ms (z :: next) (.exprs as)) :
    T.Passes (t :: ts) (.plain t :: (ms ++ [.plain z])) next (.args as) := by
  intro env hw d σ hd
  simp only [List.length_cons, List.length_append, List.length_nil] at hd
  obtain ⟨d, rfl⟩ : ∃ d', d = d' + 1 := ⟨d - 1, by omega⟩
  rw [callArgs]
  refine .peek fun u hu => ?_
  simp only [hu, kindOf_cons, ht]
  refine (Course.Goes.expect ht (by simp)).bind fun _ _ _ _ => ?_
  refine (Course.Goes.before_no hclose (ih env hw (by omega))).bind fun _ _ _ _ => ?_
  exact (Course.Goes.expectClosing hz (by simp)).done

theorem table {fs : List TableField} (ht : t.kind = .symbol .braceOpen) (hz : z.kind = .symbol .braceClose)
    (ih : T.Passes ts ms (z :: next) (.fields fs)) :
    T.Passes (t :: ts) (.plain t :: (ms ++ [.plain z])) next (.table (.table t.pos fs)) := by
  intro env hw d σ hd
  simp only [List.length_cons, List.length_append, List.length_nil] at hd
  obtain ⟨d, rfl⟩ : ∃ d', d = d' + 1 := ⟨d - 1, by omega⟩
  have hfs := ih env (hw.mono (by simp [scopeExpr]) (by simp [walkExpr]))
  rw [Parse.table]
  refine (Course.Goes.expect ht (by simp)).bind fun _ _ _ _ => (hfs (by omega)).bind fun _ _ _ _ => ?_
  exact (Course.Goes.expectClosing hz (by simp)).done

theorem fieldsEnd (hz : kindOf next = .symbol .braceClose) : T.Passes next [] next (.fields []) := by
  intro env _ d σ hd
  obtain ⟨d, rfl⟩ : ∃ d', d = d' + 1 := ⟨d - 1, by omega⟩
  rw [fields]
  exact .check_yes hz (.pure trivial)

theorem fieldsLast {f : TableField} (hz : kindOf ts ≠ .symbol .braceClose)
    (hcomma : kindOf next ≠ .symbol .comma) (hsemi : kindOf next ≠ .symbol .semicolon)
    (ih : T.Passes ts ms next (.field f)) : T.Passes ts ms next (.fields [f]) := by
  intro env hw d σ hd
  obtain ⟨d, rfl⟩ : ∃ d', d = d' + 1 := ⟨d - 1, by omega⟩
  have hf := ih env (hw.mono (by simp +contextual [scopeFields]) fun _ hn => hn)
  rw [fields]
  refine .check_no hz ((hf (by omega)).bind fun _ _ _ _ => ?_)
  exact .acceptEither_no hcomma hsemi (.pure trivial)

theorem fieldsCons {f : TableField} {fs : List TableField} (hz : kindOf ts ≠ .symbol .braceClose)
    (hy : y.kind = .symbol .comma ∨ y.kind = .symbol .semicolon)
    (ih₁ : T.Passes ts m₁ (y :: ts₁) (.field f)) (ih₂ : T.Passes ts₁ m₂ next (.fields fs)) :
    T.Passes ts (m₁ ++ .plain y :: m₂) next (.fields (f :: fs)) := by
  intro env hw d σ hd
  simp only [List.length_cons, List.length_append] at hd
  obtain ⟨d, rfl⟩ : ∃ d', d = d' + 1 := ⟨d - 1, by omega⟩
  obtain ⟨p, key, e⟩ := f
  have hf := ih₁ env (hw.mono (by simp +contextual [scopeFields]) (by simp +contextual [walkFields, or_imp]))
  have hfs := ih₂ env (hw.mono (by simp +contextual [scopeFields]) (by simp +contextual [walkFields]))
  rw [fields]
  refine .check_no hz ((hf (by omega)).bind fun _ _ _ _ => ?_)
  exact .acceptEither_yes hy (by simp) (by simp) (hfs (by omega)).done

theorem fieldKeyed {i e : Expr} (ht : t.kind = .symbol .bracketOpen) (hy : y.kind = .symbol .bracketClose)
    (hq : q.kind = .symbol .assign) (ih₁ : T.Passes ts m₁ (y :: q :: ts₁) (.expr 0 i))
    (ih₂ : T.Passes ts₁ m₂ next (.expr 0 e)) :
    T.Passes (t :: ts) (.plain t :: (m₁ ++ .plain y :: .plain q :: m₂)) next
      (.field (.mk t.pos (some i) e)) := by
  intro env hw d σ hd
  simp only [List.length_cons, List.length_append] at hd
  obtain ⟨d, rfl⟩ : ∃ d', d = d' + 1 := ⟨d - 1, by omega⟩
  have hi := ih₁ env
    (hw.mono (by simp +contextual [scopeField, scopeExpr?]) (by simp +contextual [walkFields, walkExpr?]))
  have he := ih₂ env (hw.mono (by simp +contextual [scopeField]) (by simp +contextual [walkFields]))
  rw [field]
  refine .peek fun u hu => .peekNext fun _ _ => ?_
  simp only [hu, kindOf_cons, ht]
  refine (Course.Goes.next (by simp [ht])).bind fun _ _ _ _ => (hi (by omega)).bind fun _ _ _ _ => ?_
  refine (Course.Goes.expect hy (by simp)).bind fun _ _ _ _ => ?_
  exact (Course.Goes.expect hq (by simp)).bind fun _ _ _ _ => (he (by omega)).done

/-- The key of a field is no use of its name. -/
theorem fieldNamed {x : Text} {e : Expr} (hk : k.kind = .name x) (hq : q.kind = .symbol .assign)
    (ih : T.Passes ts ms next (.expr 0 e)) :
    T.Passes (k :: q :: ts) (.plain k :: .plain q :: ms) next
      (.field (.mk k.pos (some (.string k.pos x)) e)) := by
  intro env hw d σ hd
  simp only [List.length_cons] at hd
  obtain ⟨d, rfl⟩ : ∃ d', d = d' + 1 := ⟨d - 1, by omega⟩
  have he := ih env (hw.mono (by simp +contextual [scopeField]) (by simp +contextual [walkFields]))
  rw [field]
  refine .peek fun u hu => .peekNext fun u' hu' => ?_
  simp only [hu, hu' (by simp [hk]), kindOf_cons, List.tail_cons, hk, hq]
  refine (Course.Goes.next (by simp [hk])).bind fun _ _ _ _ => ?_
  exact (Course.Goes.next (by simp [hq])).bind fun _ _ _ _ => (he (by omega)).done

theorem fieldPlain {e : Expr} (hbracket : t.kind ≠ .symbol .bracketOpen)
    (hname : ∀ x, t.kind = .name x → kindOf ts ≠ .symbol .assign)
    (ih : T.Passes (t :: ts) ms next (.expr 0 e)) :
    T.Passes (t :: ts) ms next (.field (.mk t.pos none e)) := by
  intro env hw d σ hd
  obtain ⟨d, rfl⟩ : ∃ d', d = d' + 1 := ⟨d - 1, by omega⟩
  have he := ih env (hw.mono (by simp +contextual [scopeField]) (by simp +contextual [walkFields]))
  rw [field]
  refine .peek_cons (.peekNext fun u hu => ?_)
  split
  · next h => exact absurd h hbracket
  · next x h h' => exact absurd ((hu (by simp [h])).symm.trans h') (hname x h)
  · exact (he (by omega)).done

end Passes

end Trial

/-! ## 5. Whole documents -/

/-- The reader goes through every derivation, unless it refuses a store. -/
theorem Reads.passes {T : Trial} {item : Item} {ts next : List Token} {ms : List Mark}
    (h : Reads item ts ms next) : T.Passes ts ms next item := by
  induction h with
  | block _ ih => exact .block ih
  | stmtsEnd hend => exact .stmtsEnd hend
  | returnNone ht hdone ho => exact .returnStat ht (.inl ⟨rfl, rfl, rfl, hdone⟩) ho
  | returnSome ht hend hsemi _ ho ih => exact .returnStat ht (.inr ⟨hend, hsemi, ih⟩) ho
  | stmtsSkip ht _ ih => exact .stmtsSkip ht ih
  | stmtsCons hstart hr _ ih₁ ih₂ => exact .stmtsCons hstart hr ih₁ ih₂
  | «if» ht _ _ _ hz ih₁ ih₂ ih₃ => exact .ifStat ht hz ih₁ ih₂ ih₃
  | «while» ht _ hy _ hz ih₁ ih₂ => exact .whileStat ht hy hz ih₁ ih₂
  | «do» ht _ hz ih => exact .doStat ht hz ih
  | «repeat» ht _ hy _ ih₁ ih₂ => exact .repeatStat ht hy ih₁ ih₂
  | numericFor ht hv hq _ hy₁ _ _ hy₂ _ hz ih₁ ih₂ ih₃ ih₄ =>
    exact .numericFor ht hv hq hy₁ hy₂ hz ih₁ ih₂ ih₃ ih₄
  | genericFor ht hns hy₁ _ hy₂ _ hz ih₁ ih₂ => exact .genericFor ht hns hy₁ hy₂ hz ih₁ ih₂
  | functionStat ht hv hp _ ih => exact .functionStat ht hv hp ih
  | localFunction ht hw hv _ ih => exact .localFunction ht hw hv ih
  | «local» ht hxs _ ih => exact .localStat ht hxs ih
  | «break» ht => exact .breakStat ht
  | goto ht hk => exact .gotoStat ht hk
  | label ht hk hz => exact .labelStat ht hk hz
  | assign hr₁ hr₂ hq hall _ ih₁ ih₂ ih₃ => exact .assign hr₁ hq hall hr₂ ih₁ ih₂ ih₃
  | callStat hr hcall hassign hcomma ih => exact .callStat hr hcall hassign hcomma ih
  | clause _ hy _ ih₁ ih₂ => exact .clause hy ih₁ ih₂
  | elsesEnd helse => exact .elsesEnd helse
  | elsesCons ht _ _ ih₁ ih₂ => exact .elsesCons ht ih₁ ih₂
  | orelseNone hsign | stepNone hsign | initialNone hsign =>
    exact fun _ _ _ _ _ => (Course.Goes.after?_no hsign).unsaid
  | orelseSome ht _ ih | stepSome ht _ ih | initialSome ht _ ih =>
    exact fun env hw => (ih env hw).after ht (by simp) (by omega)
  | targetsEnd hcomma => exact .targetsEnd hcomma
  | targetsCons ht _ _ ih₁ ih₂ => exact .targetsCons ht ih₁ ih₂
  | func ht hps hy _ hz ih => exact .func ht hps hy hz ih
  | exprsOne _ hcomma ih => exact .exprsOne hcomma ih
  | exprsCons _ hy _ ih₁ ih₂ => exact .exprsCons hy ih₁ ih₂
  | unary hop _ hr ih₁ ih₂ => exact .unary hop hr ih₁ ih₂
  | operand hop hr₁ hr₂ ih₁ ih₂ => exact .operand hop hr₁ hr₂ ih₁ ih₂
  | operatorsEnd hop => exact .operatorsEnd hop
  | operator hop hlimit _ hr ih₁ ih₂ => exact .operator hop hlimit hr ih₁ ih₂
  | number ht | string ht | nil ht | «true» ht | «false» ht | vararg ht =>
    exact .literal (by simp [ht]) (by simp [simpleExpr, peek_bind, ht])
  | tableExpr hr ih => exact .tableExpr hr ih
  | functionExpr ht _ ih => exact .functionExpr ht ih
  | suffixedExpr hr ih => exact .suffixedExpr hr ih
  | name hv _ ih => exact .name hv ih
  | paren ht _ hz hr ih₁ ih₂ => exact .paren ht hz hr ih₁ ih₂
  | suffixesEnd hend => exact .suffixesEnd hend
  | dot ht hk _ ih => exact .dot ht hk ih
  | bracket ht _ hz hr ih₁ ih₂ => exact .bracket ht hz hr ih₁ ih₂
  | method ht hk _ hr ih₁ ih₂ => exact .method ht hk hr ih₁ ih₂
  | call hr₁ hr₂ ih₁ ih₂ => exact .call hr₁ hr₂ ih₁ ih₂
  | argString ht => exact .argString ht
  | argTable hr ih => exact .argTable hr ih
  | argsNone ht hz => exact .argsNone ht hz
  | argsSome ht hclose _ hz ih => exact .argsSome ht hclose hz ih
  | table ht _ hz ih => exact .table ht hz ih
  | fieldsEnd hz => exact .fieldsEnd hz
  | fieldsLast hz _ hcomma hsemi ih => exact .fieldsLast hz hcomma hsemi ih
  | fieldsCons hz _ hy _ ih₁ ih₂ => exact .fieldsCons hz hy ih₁ ih₂
  | fieldKeyed ht _ hy hq _ ih₁ ih₂ => exact .fieldKeyed ht hy hq ih₁ ih₂
  | fieldNamed hk hq _ ih => exact .fieldNamed hk hq ih
  | fieldPlain hbracket hname _ ih => exact .fieldPlain hbracket hname ih

/-- A whole document is a block and the end. -/
theorem parseTokens_of_block {t : Token} {ts next : List Token} {b : Block} {τ : Scopes} (uri : Text)
    (hblock : Parse.block (10 * (ts.length + 2)) (stateAt (t :: ts) {}) = .ok (b, stateAt next τ))
    (hnext : kindOf next = .eof) : ∃ c, parseTokens (t :: ts) uri = .ok c := by
  let s := stateAt next τ
  have hend : expect .eof s = .ok (s.tok, s.advance) := by
    rw [expect, check_bind, decide_eq_true hnext, if_pos rfl, next_eq]
  have hrun : (Parse.chunk (10 * (ts.length + 2)) uri).run { tok := t, rest := ts }
      = .ok (⟨t.pos, b, uri, s.advance.scopes.bindings⟩, s.advance) := by
    show Parse.chunk (10 * (ts.length + 2)) uri (stateAt (t :: ts) {}) = _
    rw [Parse.chunk, peek_bind, bind_eq hblock, bind_eq hend]
    rfl
  exact ⟨_, by rw [parseTokens, hrun]⟩

/-- A fault of the block is the fault of the text. -/
theorem parseTokens_of_fault {t : Token} {ts : List Token} {e : SyntaxError} (uri : Text)
    (hblock : Parse.block (10 * (ts.length + 2)) (stateAt (t :: ts) {}) = .error e) :
    parseTokens (t :: ts) uri = .error e := by
  have hrun : (Parse.chunk (10 * (ts.length + 2)) uri).run { tok := t, rest := ts } = .error e := by
    show Parse.chunk (10 * (ts.length + 2)) uri (stateAt (t :: ts) {}) = _
    rw [Parse.chunk, peek_bind, bind_error hblock]
  rw [parseTokens, hrun]

/-- The tree stores to a name that means a declaration with an attribute. -/
def Block.StoresToConstant (b : Block) (n : Name) : Prop :=
  n ∈ targetsOf (walkBlock b) ∧ ∃ d, (n, .local d) ∈ (scopeBlock [] b).uses ∧ d.attrib ≠ none

/-- **What stops the reader on a derivation.**  It goes through, or it refuses the store to a plain target
that means a declaration with an attribute, which the text has. -/
theorem Reads.refused {b : Block} {ts next : List Token} {ms : List Mark} (h : Reads (.block b) ts ms next)
    (hnext : kindOf next = .eof) (hE : Ended ts) (uri : Text) :
    (∃ c, parseTokens ts uri = .ok c) ∨
      ∃ n, b.StoresToConstant n ∧ Declares ts n.name ∧
        parseTokens ts uri = .error ⟨n.pos, .constAssigned n.name⟩ := by
  let T : Trial := ⟨ts, b.StoresToConstant⟩
  have hwithin : T.Within (scopeBlock [] b) (walkBlock b) := fun n hn d hd hattrib => ⟨hn, d, hd, hattrib⟩
  obtain ⟨t, ts', rfl⟩ := List.exists_cons_of_ne_nil hE.ne_nil
  have hlen : ms.length ≤ ts'.length + 1 := by
    have htokens := congrArg List.length h.tokens
    simp only [List.length_cons, List.length_append, tokensOf, List.length_map] at htokens
    omega
  have hrun : T.Goes [] {} (Parse.block (10 * (ts'.length + 2))) Unsaid (t :: ts') next :=
    h.passes [] hwithin (by omega)
  obtain ⟨b', τ, hblock, -⟩ | ⟨pos, x, hblock, n, hn, rfl, rfl, hdeclares⟩ :=
    hrun ⟨⟨List.suffix_rfl, hE⟩, .initial _⟩
  · exact .inl (parseTokens_of_block uri hblock hnext)
  · exact .inr ⟨n, hn, hdeclares, parseTokens_of_fault uri hblock⟩

end LuaServer.Lua
