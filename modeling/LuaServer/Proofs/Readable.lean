/-
# Derivations that the reader can follow

A derivation by the productions (`Proofs/Phrases.lean`) may group operators in any way, and it is built
from the outside in where things are applied to an expression.  The reader decides by one token of
lookahead, groups operators by their powers and goes from left to right; the derivations that it follows
are those of `Proofs/Grammar.lean`.  This module shows that wherever there is one of the first kind, there
is one of the second, with the same tokens.  Two kinds of phrases change their form.

* Operators: both derivations see the same operands in the same order (`Chain`), and the operators can be
  grouped by any powers.
* What is applied to an expression: `Applies` says that the head can be read with all that can be read
  after it.

Main result: `Derives.reads`.
-/
import LuaServer.Proofs.Lookahead

namespace LuaServer.Lua

open Parse (endsBlock)

/-! ## 1. Lists of names -/

/-- The name as the token writes it. -/
theorem Token.spells.writes {v : Token} {n : Name} (h : v.spells n) : v.writes ⟨v.pos, n.name, 0⟩ :=
  ⟨h, rfl⟩

section
variable {u rest : List Token}

/-- A sign that may be left out is read if what follows is not that sign. -/
theorem Sign.reads {k : Kind} (h : Sign k u) (hrest : kindOf rest ≠ k) :
    ∃ ms, Optional k (u ++ rest) ms rest := by
  cases h with
  | absent => exact ⟨_, .absent hrest⟩
  | present ht => exact ⟨_, .present ht⟩

/-- Names are read up to a token that is no comma. -/
theorem NameList.reads {ns : List Name} (h : NameList ns u) (hrest : kindOf rest ≠ .symbol .comma) :
    ∃ ns' ms, Names ns' (u ++ rest) ms rest := by
  induction h with
  | one hv => exact ⟨_, _, .last hv.writes hrest⟩
  | cons hv hy _ ih =>
    obtain ⟨_, _, ih⟩ := ih
    exact ⟨_, _, .cons hv.writes hy ih⟩

/-- The attribute of a local is read or left out, as the token after it tells. -/
theorem Attribute.reads {a : Option Attrib} (h : Attribute a u) (hrest : kindOf rest ≠ .symbol .lt) :
    ∃ ms, Attributes a (u ++ rest) ms rest := by
  cases h with
  | absent => exact ⟨_, .absent hrest⟩
  | present ht hw ha hz => exact ⟨_, .present ht hw ha hz⟩

/-- The names of a `local` statement end where neither a name nor an attribute may follow. -/
theorem LocalList.reads {xs : List (Name × Option Attrib)} (h : LocalList xs u)
    (hcomma : kindOf rest ≠ .symbol .comma) (hlt : kindOf rest ≠ .symbol .lt) :
    ∃ ys ms, Locals ys (u ++ rest) ms rest := by
  induction h with
  | one hv ha =>
    obtain ⟨_, ha⟩ := ha.reads hlt
    exact ⟨_, _, .last hv.writes ha hcomma⟩
  | @cons _ _ _ u₂ _ _ y hv ha hy _ ih =>
    have hrest : kindOf (y :: (u₂ ++ rest)) ≠ .symbol .lt := by simp [hy]
    obtain ⟨_, ha⟩ := ha.reads hrest
    obtain ⟨_, _, ih⟩ := ih
    simp only [List.cons_append, List.append_assoc]
    exact ⟨_, _, .cons hv.writes ha hy ih⟩

/-- Parameters are read up to a token that is no comma. -/
theorem Parameters.reads {ns : List Name} {more : Bool} (h : Parameters ns more u)
    (hrest : kindOf rest ≠ .symbol .comma) : ∃ ns' ms, Params ns' more (u ++ rest) ms rest := by
  induction h with
  | ellipsis ht => exact ⟨_, _, .ellipsis ht⟩
  | one hv => exact ⟨_, _, .last hv.writes hrest⟩
  | cons hv hy _ ih =>
    obtain ⟨_, _, ih⟩ := ih
    exact ⟨_, _, .cons hv.writes hy ih⟩

/-- Parameters stand before the parenthesis that closes, which also tells that there are none. -/
theorem ParameterPart.reads {ns : List Name} {more : Bool} (h : ParameterPart ns more u)
    (hrest : kindOf rest = .symbol .parenClose) : ∃ ns' ms, ParamList ns' more (u ++ rest) ms rest := by
  cases h with
  | absent => exact ⟨_, _, .empty hrest⟩
  | present h =>
    obtain ⟨_, _, hps⟩ := h.reads (by simp [hrest] : kindOf rest ≠ .symbol .comma)
    have hopen : kindOf (u ++ rest) ≠ .symbol .parenClose := by
      cases h with
      | ellipsis ht => simp [ht]
      | one hv | cons hv => simp [hv.kind]
    exact ⟨_, _, .some hopen hps⟩

/-- The fields after a name do not depend on it. -/
theorem FieldPath.reads {e r : Expr} {m : Bool} (h : FieldPath e r m u)
    (hrest : kindOf rest = .symbol .parenOpen) (e' : Expr) : ∃ r' ms, Path e' r' m (u ++ rest) ms rest := by
  induction h generalizing e' with
  | done => exact ⟨_, _, .done (by simp [hrest]) (by simp [hrest])⟩
  | method ht hk => exact ⟨_, _, .method ht hk⟩
  | @field _ _ _ x _ _ _ _ k ht hk _ ih =>
    obtain ⟨_, _, ih⟩ := ih (.index e'.pos e' (.string k.pos x))
    exact ⟨_, _, .field ht hk ih⟩

end

/-! ## 2. Operands and operators -/

/-- An operand that can be read. -/
structure Operand (u rest : List Token) : Prop where
  opens : opensOperand (kindOf u) = true
  reads : ∃ e ms, Reads (.simple e) (u ++ rest) ms rest

/-- Operands with the operators before and between them. -/
inductive Chain : List Token → List Token → Prop
  | operand : Operand u rest → Chain u rest
  | unary : UnaryOp.ofKind? t.kind = some op → Chain u rest → Chain (t :: u) rest
  | binary : Operand u (t :: (w ++ rest)) → BinaryOp.ofKind? t.kind = some op → Chain w rest →
      Chain (u ++ t :: w) rest

/-- Nothing, or an operator and what follows it. -/
inductive Pending : List Token → List Token → Prop
  | none : Pending [] rest
  | some : BinaryOp.ofKind? t.kind = some op → Chain u rest → Pending (t :: u) rest

/-- Of the tokens `u`, the last ones `w` are left, which begin with no operator that holds its left operand
more strongly than `limit`. -/
structure Leaves (limit : Nat) (u rest w : List Token) : Prop where
  length_le : w.length ≤ u.length
  pending : Pending w rest
  below : ∀ op, BinaryOp.ofKind? (kindOf w) = some op → op.leftPower ≤ limit

/-- With every limit, an expression can be read. -/
def ReadsExpr (u rest : List Token) : Prop :=
  ∀ limit, ∃ w, Leaves limit u rest w ∧ ∃ e ms, Reads (.expr limit e) (u ++ rest) ms (w ++ rest)

/-- With every limit and every left operand, operators can be read. -/
def ReadsOperators (u rest : List Token) : Prop :=
  ∀ limit l, ∃ w, Leaves limit u rest w ∧ ∃ e ms, Reads (.operators limit l e) (u ++ rest) ms (w ++ rest)

section
variable {u w rest : List Token} {t : Token}

/-- Two chains with an operator between them are one. -/
theorem Chain.append {op : BinaryOp} (h : Chain u (t :: (w ++ rest)))
    (hop : BinaryOp.ofKind? t.kind = some op) (hw : Chain w rest) : Chain (u ++ t :: w) rest := by
  generalize hrest : t :: (w ++ rest) = rest' at h
  induction h with
  | operand h =>
    subst hrest
    exact .binary h hop hw
  | unary ht _ ih => exact .unary ht (ih hrest)
  | binary h ht _ ih =>
    subst hrest
    rw [List.append_assoc, List.cons_append]
    refine .binary ?_ ht (ih rfl)
    simpa using h

/-- An operand begins with no sign of an operation. -/
theorem ofKind?_none_of_opensOperand {k : Kind} (h : opensOperand k = true) :
    UnaryOp.ofKind? k = none := by
  unfold opensOperand at h
  split at h
  all_goals first | rfl | cases h

/-- Nothing is read before an operator that is not strong enough. -/
theorem reads_stop {limit : Nat} {l : Expr} (hu : Pending u rest)
    (hbelow : ∀ op, BinaryOp.ofKind? (kindOf u) = some op → op.leftPower ≤ limit)
    (hrest : BinaryOp.ofKind? (kindOf rest) = none) :
    ∃ w, Leaves limit u rest w ∧ ∃ e ms, Reads (.operators limit l e) (u ++ rest) ms (w ++ rest) := by
  refine ⟨u, ⟨Nat.le_refl _, hu, hbelow⟩, l, [], .operatorsEnd ?_⟩
  cases u with
  | nil => simp [hrest]
  | cons t u => exact hbelow

/-- An operand, and then the operators after it. -/
theorem Operand.readsExpr (h : Operand u (w ++ rest)) (hw : ReadsOperators w rest) :
    ReadsExpr (u ++ w) rest := by
  intro limit
  obtain ⟨e, m₁, he⟩ := h.reads
  obtain ⟨w', hw', r, m₂, hr⟩ := hw limit e
  have hunary : UnaryOp.ofKind? (kindOf (u ++ (w ++ rest))) = none := by
    rw [kindOf_append_of_opens rfl h.opens]
    exact ofKind?_none_of_opensOperand h.opens
  refine ⟨w', { hw' with length_le := Nat.le_trans hw'.length_le (by simp) }, r, m₁ ++ m₂, ?_⟩
  rw [List.append_assoc]
  exact .operand hunary he hr

section
-- what is pending in a shorter list can be read
variable (hshort : ∀ w : List Token, w.length ≤ u.length → Pending w rest → ReadsOperators w rest)
include hshort

/-- An expression that an operator before it holds with `power`, and then the operators after it. -/
theorem ReadsExpr.then (h : ReadsExpr u rest) (power limit : Nat) (l : Expr → Expr) :
    ∃ w, Leaves limit u rest w ∧ ∃ e r w₁ m₁ m₂, Reads (.expr power e) (u ++ rest) m₁ (w₁ ++ rest) ∧
      Reads (.operators limit (l e) r) (w₁ ++ rest) m₂ (w ++ rest) := by
  obtain ⟨w₁, hw₁, e, m₁, he⟩ := h power
  obtain ⟨w, hw, r, m₂, hr⟩ := hshort w₁ hw₁.length_le hw₁.pending limit (l e)
  exact ⟨w, { hw with length_le := Nat.le_trans hw.length_le hw₁.length_le }, e, r, w₁, m₁, m₂, he, hr⟩

/-- A sign before an operand takes as much of the chain as it holds, and the operators go on with the
rest. -/
theorem ReadsExpr.unary {op : UnaryOp} (hop : UnaryOp.ofKind? t.kind = some op)
    (h : ReadsExpr u rest) : ReadsExpr (t :: u) rest := by
  intro limit
  obtain ⟨w, hw, e, r, w₁, m₁, m₂, he, hr⟩ := h.then hshort UnaryOp.power limit (.unary t.pos op)
  exact ⟨w, { hw with length_le := Nat.le_trans hw.length_le (by simp) }, r, _, .unary hop he hr⟩

/-- An operator is read if it holds its left operand strongly enough, and left otherwise. -/
theorem ReadsOperators.operator {op : BinaryOp} (hop : BinaryOp.ofKind? t.kind = some op)
    (hu : Chain u rest) (h : ReadsExpr u rest) (hrest : BinaryOp.ofKind? (kindOf rest) = none) :
    ReadsOperators (t :: u) rest := by
  intro limit l
  by_cases hlimit : op.leftPower ≤ limit
  · refine reads_stop (.some hop hu) (fun op' hop' => ?_) hrest
    obtain rfl := Option.some.inj (hop.symm.trans hop')
    exact hlimit
  · obtain ⟨w, hw, e, r, w₁, m₁, m₂, he, hr⟩ := h.then hshort op.rightPower limit (.binary t.pos op l)
    exact ⟨w, { hw with length_le := Nat.le_trans hw.length_le (by simp) }, r, _,
      .operator hop (Nat.lt_of_not_le hlimit) he hr⟩

end

/-- Where no operator is pending, none is read. -/
theorem ReadsOperators.nil (hrest : BinaryOp.ofKind? (kindOf rest) = none) : ReadsOperators [] rest :=
  fun _ _ => reads_stop .none (by simp [kindOf, BinaryOp.ofKind?]) hrest

/-- Every chain can be read: an expression ends only before an operator that holds less than its limit,
and the operators go on from there.  Both are by induction on the number of tokens. -/
theorem reads_chain (hrest : BinaryOp.ofKind? (kindOf rest) = none) (u : List Token) :
    (Chain u rest → ReadsExpr u rest) ∧ (Pending u rest → ReadsOperators u rest) := by
  induction hn : u.length using Nat.strongRecOn generalizing u with
  | _ n ih =>
    subst hn
    have hchain : ∀ v : List Token, v.length < u.length → Chain v rest → ReadsExpr v rest :=
      fun v hv => (ih v.length hv v rfl).1
    have hpending : ∀ v : List Token, v.length < u.length → Pending v rest → ReadsOperators v rest :=
      fun v hv => (ih v.length hv v rfl).2
    refine ⟨fun h => ?_, fun h => ?_⟩
    · cases h with
      | operand h =>
        have hreads := h.readsExpr (w := []) (.nil hrest)
        rwa [List.append_nil] at hreads
      | unary hop h =>
        refine .unary (fun w hw => hpending w ?_) hop (hchain _ (by simp) h)
        exact Nat.lt_succ_of_le hw
      | binary h hop hw =>
        refine h.readsExpr (hpending _ ?_ (.some hop hw))
        obtain ⟨_, _, rfl⟩ := exists_cons_of_opens rfl h.opens
        simp only [List.length_append, List.length_cons]
        omega
    · cases h with
      | none => exact .nil hrest
      | some hop h =>
        refine .operator (fun w hw => hpending w ?_) hop h (hchain _ (by simp) h) hrest
        exact Nat.lt_succ_of_le hw

/-- Every operator holds its left operand more strongly than no limit. -/
theorem BinaryOp.leftPower_pos (op : BinaryOp) : 0 < op.leftPower := by
  cases op <;> decide

/-- With no limit, the whole chain is read. -/
theorem Chain.reads (h : Chain u rest) (hrest : endsExpr (kindOf rest)) :
    ∃ e ms, Reads (.expr 0 e) (u ++ rest) ms rest := by
  obtain ⟨w, hw, e, ms, he⟩ := (reads_chain hrest u).1 h 0
  obtain rfl : w = [] := by
    cases hw.pending with
    | none => rfl
    | some hop _ => exact absurd (hw.below _ hop) (Nat.not_le.mpr (BinaryOp.leftPower_pos _))
  exact ⟨e, ms, he⟩

end

/-! ## 3. What can be read where a phrase is derived -/

/-- The expressions are both calls or not, and both can be stored to or not. -/
def Expr.SameForm (e e' : Expr) : Prop := e'.isCall = e.isCall ∧ e'.assignable = e.assignable

/-- The tokens `u` can be read as a head like `e` together with what can be read after them. -/
def Applies (e : Expr) (u rest : List Token) : Prop :=
  ∃ h, e.SameForm h ∧ ∀ r ms next, Reads (.suffixes h r) rest ms next →
    ∃ ms', Reads (.suffixed r) (u ++ rest) ms' next

/-- What can be read where a phrase is derived, given what follows it. -/
def Phrase.Readable (u rest : List Token) : Phrase → Prop
  | .block _ | .stmts _ => endsBlock (kindOf rest) = true →
      ∃ ss ms, Reads (.stmts ss) (u ++ rest) ms rest
  | .stmt _ => endsStatement (kindOf rest) → ∃ s ms, Reads (.stmt s) (u ++ rest) ms rest
  | .clause _ => endsBlock (kindOf rest) = true → rest ≠ [] →
      ∀ p, ∃ c b ms, Reads (.clause (.mk p c b)) (u ++ rest) ms rest
  | .elses _ => kindOf rest = .keyword .else ∨ kindOf rest = .keyword .end →
      ∃ cs ms, Reads (.elses cs) (u ++ rest) ms rest
  | .orelse _ => kindOf rest = .keyword .end → ∃ o ms, Reads (.orelse o) (u ++ rest) ms rest
  | .step _ => kindOf rest = .keyword .do → ∃ o ms, Reads (.step o) (u ++ rest) ms rest
  | .initial _ => endsStatement (kindOf rest) → ∃ vs ms, Reads (.initial vs) (u ++ rest) ms rest
  | .targets es => kindOf rest = .symbol .assign →
      ∃ es' ms, es'.all Expr.assignable = es.all Expr.assignable ∧ Reads (.targets es') (u ++ rest) ms rest
  | .func _ => ∃ f ms, Reads (.func f) (u ++ rest) ms rest
  | .exprs _ => endsExprs (kindOf rest) → ∃ es ms, Reads (.exprs es) (u ++ rest) ms rest
  | .expr _ => Chain u rest
  | .suffixed e => ∃ e' ms, e.SameForm e' ∧ Reads (.suffixed e') (u ++ rest) ms rest
  | .applied e => Applies e u rest
  | .args _ => ∃ es ms, Reads (.args es) (u ++ rest) ms rest
  | .table _ => ∃ e ms, Reads (.table e) (u ++ rest) ms rest
  | .fields _ => kindOf rest = .symbol .braceClose → ∃ fs ms, Reads (.fields fs) (u ++ rest) ms rest
  | .field _ => endsField (kindOf rest) → ∃ f ms, Reads (.field f) (u ++ rest) ms rest

section
variable {u u₁ u₂ u₃ u₄ w rest : List Token} {t v k q y y₁ y₂ z : Token}

/-- A block stands before a token. -/
theorem reads_block (h : ∃ ss ms, Reads (.stmts ss) (u ++ rest) ms rest) (hrest : rest ≠ []) :
    ∃ b ms, Reads (.block b) (u ++ rest) ms rest := by
  obtain ⟨ss, ms, h⟩ := h
  obtain ⟨t, ts, hts⟩ := List.exists_cons_of_ne_nil (List.append_ne_nil_of_right_ne_nil u hrest)
  rw [hts] at h ⊢
  exact ⟨_, ms, .block h⟩

/-- A block before a token that ends it. -/
theorem Phrase.Readable.block {b : Block} (h : Phrase.Readable u (z :: rest) (.block b))
    (hz : endsBlock z.kind = true) : ∃ b ms, Reads (.block b) (u ++ z :: rest) ms (z :: rest) :=
  reads_block (h hz) (List.cons_ne_nil _ _)

/-- An expression before a token that no operator is. -/
theorem Phrase.Readable.expr {e : Expr} (h : Phrase.Readable u (y :: rest) (.expr e))
    (hy : BinaryOp.ofKind? y.kind = none) : ∃ e ms, Reads (.expr 0 e) (u ++ y :: rest) ms (y :: rest) :=
  Chain.reads h hy

/-- The beginning of an expression is told from what stands where there is none. -/
theorem ends_of_opensExpr {k : Kind} (h : opensExpr k = true) :
    endsBlock k = false ∧ k ≠ .symbol .semicolon ∧ k ≠ .symbol .parenClose ∧
      k ≠ .symbol .braceClose ∧ k ≠ .symbol .bracketOpen := by
  refine ⟨?_, ?_, ?_, ?_, ?_⟩
  · unfold endsBlock
    split
    all_goals first | rfl | cases h
  all_goals
    rintro rfl
    cases h

/-- No block ends with a semicolon. -/
theorem ne_semicolon {k : Kind} (h : endsBlock k = true) : k ≠ .symbol .semicolon := by
  rintro rfl
  cases h

namespace Phrase.Readable

/-! Blocks and statements. -/

/-- After `return` the reader asks for values only where neither the block nor the statement ends. -/
theorem returnNone {p : Pos} (ht : t.kind = .keyword .return) (hsign : Sign (.symbol .semicolon) u) :
    Phrase.Readable (t :: u) rest (.stmts [.return p []]) := by
  intro hrest
  obtain ⟨_, ho⟩ := hsign.reads (ne_semicolon hrest)
  have hdone : endsBlock (kindOf (u ++ rest)) = true ∨ kindOf (u ++ rest) = .symbol .semicolon := by
    cases hsign with
    | absent => exact .inl hrest
    | present hs => exact .inr hs
  exact ⟨_, _, .returnNone ht hdone ho⟩

/-- The values of a `return` are read up to the sign that may end it. -/
theorem returnSome {p : Pos} {vs : List Expr} (ht : t.kind = .keyword .return)
    (hu : opensExpr (kindOf u) = true) (hsign : Sign (.symbol .semicolon) w)
    (ih : Phrase.Readable u (w ++ rest) (.exprs vs)) :
    Phrase.Readable (t :: (u ++ w)) rest (.stmts [.return p vs]) := by
  intro hrest
  have hends : endsExprs (kindOf (w ++ rest)) := by
    cases hsign with
    | absent => exact (endsStatement_of_endsBlock hrest).1
    | present hs => simp [hs, endsExprs, endsExpr, BinaryOp.ofKind?]
  obtain ⟨_, _, hvs⟩ := ih hends
  obtain ⟨_, ho⟩ := hsign.reads (ne_semicolon hrest)
  obtain ⟨hblock, hsemi, -⟩ := ends_of_opensExpr hu
  rw [← kindOf_append_of_opens (w := w ++ rest) rfl hu] at hblock hsemi
  rw [List.cons_append, List.append_assoc]
  exact ⟨_, _, .returnSome ht hblock hsemi hvs ho⟩

/-- One statement ends where the next one begins. -/
theorem stmtsCons {s : Stmt} {ss : List Stmt} (hs : Derives (.stmt s) u (w ++ rest))
    (hss : Derives (.stmts ss) w rest) (ih₁ : Phrase.Readable u (w ++ rest) (.stmt s))
    (ih₂ : Phrase.Readable w rest (.stmts ss)) : Phrase.Readable (u ++ w) rest (.stmts (s :: ss)) := by
  intro hrest
  obtain ⟨_, _, h₁⟩ := ih₁ (endsStatement_of_stmts hss hrest)
  obtain ⟨_, _, h₂⟩ := ih₂ hrest
  have hstart := startsStatement_of_opens hs.opens
  rw [← kindOf_append_of_opens (w := w ++ rest) rfl hs.opens] at hstart
  rw [List.append_assoc]
  exact ⟨_, _, .stmtsCons hstart h₁ h₂⟩

/-- The clauses and the block after `else` are told by the words that begin them. -/
theorem ifStat {p : Pos} {c : IfClause} {cs : List IfClause} {o : Option Block}
    (ht : t.kind = .keyword .if) (hcs : Derives (.elses cs) u₂ (u₃ ++ z :: rest))
    (ho : Derives (.orelse o) u₃ (z :: rest)) (hz : z.kind = .keyword .end)
    (ih₁ : Phrase.Readable u₁ (u₂ ++ (u₃ ++ z :: rest)) (.clause c))
    (ih₂ : Phrase.Readable u₂ (u₃ ++ z :: rest) (.elses cs))
    (ih₃ : Phrase.Readable u₃ (z :: rest) (.orelse o)) :
    Phrase.Readable (t :: (u₁ ++ (u₂ ++ (u₃ ++ [z])))) rest (.stmt (.if p (c :: cs) o)) := by
  intro _
  have helse := kindOf_orelse ho hz
  obtain ⟨_, _, _, hc⟩ := ih₁ (endsBlock_of_elses hcs helse) (by simp) t.pos
  obtain ⟨_, _, hcs⟩ := ih₂ helse
  obtain ⟨_, _, ho⟩ := ih₃ hz
  simp only [List.cons_append, List.append_assoc, List.nil_append]
  exact ⟨_, _, .if ht hc hcs ho hz⟩

theorem whileStat {p : Pos} {c : Expr} {b : Block} (ht : t.kind = .keyword .while)
    (hy : y.kind = .keyword .do) (hz : z.kind = .keyword .end)
    (ih₁ : Phrase.Readable u₁ (y :: (u₂ ++ z :: rest)) (.expr c))
    (ih₂ : Phrase.Readable u₂ (z :: rest) (.block b)) :
    Phrase.Readable (t :: (u₁ ++ y :: (u₂ ++ [z]))) rest (.stmt (.while p c b)) := by
  intro _
  obtain ⟨_, _, hc⟩ := ih₁.expr (by simp [hy, BinaryOp.ofKind?])
  obtain ⟨_, _, hb⟩ := ih₂.block (by simp [hz, endsBlock])
  simp only [List.cons_append, List.append_assoc, List.nil_append]
  exact ⟨_, _, .while ht hc hy hb hz⟩

theorem doStat {p : Pos} {b : Block} (ht : t.kind = .keyword .do) (hz : z.kind = .keyword .end)
    (ih : Phrase.Readable u (z :: rest) (.block b)) :
    Phrase.Readable (t :: (u ++ [z])) rest (.stmt (.do p b)) := by
  intro _
  obtain ⟨_, _, hb⟩ := ih.block (by simp [hz, endsBlock])
  simp only [List.cons_append, List.append_assoc, List.nil_append]
  exact ⟨_, _, .do ht hb hz⟩

theorem repeatStat {p : Pos} {b : Block} {c : Expr} (ht : t.kind = .keyword .repeat)
    (hy : y.kind = .keyword .until) (ih₁ : Phrase.Readable u₁ (y :: (u₂ ++ rest)) (.block b))
    (ih₂ : Phrase.Readable u₂ rest (.expr c)) :
    Phrase.Readable (t :: (u₁ ++ y :: u₂)) rest (.stmt (.repeat p b c)) := by
  intro hrest
  obtain ⟨_, _, hss⟩ := ih₁ (by simp [hy, endsBlock])
  obtain ⟨_, _, hc⟩ := Chain.reads ih₂ hrest.1.1
  obtain ⟨w, ts, hts⟩ : ∃ w ts, u₁ ++ y :: (u₂ ++ rest) = w :: ts :=
    List.exists_cons_of_ne_nil (by simp)
  simp only [List.cons_append, List.append_assoc]
  rw [hts] at hss ⊢
  exact ⟨_, _, .repeat ht hss hy hc⟩

/-- A loop is numeric if the sign of an assignment follows its name. -/
theorem numericFor {p : Pos} {n : Name} {a b : Expr} {o : Option Expr} {body : Block}
    (ht : t.kind = .keyword .for) (hv : v.spells n) (hq : q.kind = .symbol .assign)
    (hy₁ : y₁.kind = .symbol .comma) (hstep : Derives (.step o) u₃ (y₂ :: (u₄ ++ z :: rest)))
    (hy₂ : y₂.kind = .keyword .do) (hz : z.kind = .keyword .end)
    (ih₁ : Phrase.Readable u₁ (y₁ :: (u₂ ++ (u₃ ++ y₂ :: (u₄ ++ z :: rest)))) (.expr a))
    (ih₂ : Phrase.Readable u₂ (u₃ ++ y₂ :: (u₄ ++ z :: rest)) (.expr b))
    (ih₃ : Phrase.Readable u₃ (y₂ :: (u₄ ++ z :: rest)) (.step o))
    (ih₄ : Phrase.Readable u₄ (z :: rest) (.block body)) :
    Phrase.Readable (t :: v :: q :: (u₁ ++ y₁ :: (u₂ ++ (u₃ ++ y₂ :: (u₄ ++ [z]))))) rest
      (.stmt (.numericFor p n a b o body)) := by
  intro _
  obtain ⟨_, _, ha⟩ := ih₁.expr (by simp [hy₁, BinaryOp.ofKind?])
  obtain ⟨_, _, hb⟩ := Chain.reads ih₂ (endsExpr_of_step hstep hy₂)
  obtain ⟨_, _, ho⟩ := ih₃ hy₂
  obtain ⟨_, _, hbody⟩ := ih₄.block (by simp [hz, endsBlock])
  simp only [List.cons_append, List.append_assoc, List.nil_append]
  exact ⟨_, _, .numericFor ht hv.writes hq ha hy₁ hb ho hy₂ hbody hz⟩

/-- A loop goes over an iterator if `in` follows its names. -/
theorem genericFor {p : Pos} {ns : List Name} {vs : List Expr} {body : Block}
    (ht : t.kind = .keyword .for) (hns : NameList ns u₁) (hy₁ : y₁.kind = .keyword .in)
    (hy₂ : y₂.kind = .keyword .do) (hz : z.kind = .keyword .end)
    (ih₁ : Phrase.Readable u₂ (y₂ :: (u₃ ++ z :: rest)) (.exprs vs))
    (ih₂ : Phrase.Readable u₃ (z :: rest) (.block body)) :
    Phrase.Readable (t :: (u₁ ++ y₁ :: (u₂ ++ y₂ :: (u₃ ++ [z])))) rest
      (.stmt (.genericFor p ns vs body)) := by
  intro _
  have hcomma : kindOf (y₁ :: (u₂ ++ y₂ :: (u₃ ++ z :: rest))) ≠ .symbol .comma := by simp [hy₁]
  obtain ⟨_, _, hns⟩ := hns.reads hcomma
  obtain ⟨_, _, hvs⟩ := ih₁ (by simp [hy₂, endsExprs, endsExpr, BinaryOp.ofKind?])
  obtain ⟨_, _, hbody⟩ := ih₂.block (by simp [hz, endsBlock])
  simp only [List.cons_append, List.append_assoc, List.nil_append]
  exact ⟨_, _, .genericFor ht hns hy₁ hvs hy₂ hbody hz⟩

/-- The name of a function statement ends at a parenthesis. -/
theorem functionStat {p : Pos} {n : Name} {target : Expr} {m : Bool} {f : FuncBody}
    (ht : t.kind = .keyword .function) (hv : v.spells n) (hpath : FieldPath (.name n) target m u₁)
    (hf : Derives (.func f) u₂ rest) (ih : Phrase.Readable u₂ rest (.func f)) :
    Phrase.Readable (t :: v :: (u₁ ++ u₂)) rest (.stmt (.function p target f m)) := by
  intro _
  have hopen : kindOf u₂ = .symbol .parenOpen := hf.opens
  have hkind : kindOf (u₂ ++ rest) = .symbol .parenOpen := by rw [kindOf_append (by simp [hopen]), hopen]
  obtain ⟨_, _, hpath⟩ := hpath.reads hkind (.name ⟨v.pos, n.name, 0⟩)
  obtain ⟨_, _, hf⟩ := ih
  simp only [List.cons_append, List.append_assoc]
  exact ⟨_, _, .functionStat ht hv.writes hpath hf⟩

/-- A `local` statement is told from a local function by the token after the word. -/
theorem localStat {p : Pos} {xs : List (Name × Option Attrib)} {vs : List Expr}
    (ht : t.kind = .keyword .local) (hxs : LocalList xs u₁) (hvs : Derives (.initial vs) u₂ rest)
    (ih : Phrase.Readable u₂ rest (.initial vs)) :
    Phrase.Readable (t :: (u₁ ++ u₂)) rest (.stmt (.local p (xs.map (·.1)) (xs.map (·.2)) vs)) := by
  intro hrest
  have hends : kindOf (u₂ ++ rest) ≠ .symbol .comma ∧ kindOf (u₂ ++ rest) ≠ .symbol .lt := by
    rcases hvs.opens with rfl | hassign
    · refine ⟨hrest.1.2, fun hlt => ?_⟩
      have hop := hrest.1.1
      rw [List.nil_append] at hlt
      rw [hlt] at hop
      cases hop
    · rw [kindOf_append (by simp [hassign]), hassign]
      exact ⟨nofun, nofun⟩
  obtain ⟨_, _, hxs⟩ := hxs.reads hends.1 hends.2
  obtain ⟨_, _, hvs⟩ := ih hrest
  simp only [List.cons_append, List.append_assoc]
  exact ⟨_, _, .local ht hxs hvs⟩

/-- After the first target the reader goes on with targets or with the values. -/
theorem assign {p : Pos} {e : Expr} {es vs : List Expr}
    (he : Derives (.suffixed e) u₁ (u₂ ++ q :: (u₃ ++ rest)))
    (hq : q.kind = .symbol .assign) (hall : (e :: es).all Expr.assignable = true)
    (ih₁ : Phrase.Readable u₁ (u₂ ++ q :: (u₃ ++ rest)) (.suffixed e))
    (ih₂ : Phrase.Readable u₂ (q :: (u₃ ++ rest)) (.targets es))
    (ih₃ : Phrase.Readable u₃ rest (.exprs vs)) :
    Phrase.Readable (u₁ ++ (u₂ ++ q :: u₃)) rest (.stmt (.assign p (e :: es) vs)) := by
  intro hrest
  obtain ⟨e', _, hform, he'⟩ := ih₁
  obtain ⟨es', _, hsame, hes'⟩ := ih₂ hq
  obtain ⟨_, _, hvs⟩ := ih₃ hrest.1
  have hall' : (e' :: es').all Expr.assignable = true := by
    rw [List.all_cons, hform.2, hsame]
    exact hall
  obtain ⟨_, _, rfl⟩ := exists_cons_of_opens rfl he.opens.1
  simp only [List.cons_append, List.append_assoc]
  exact ⟨_, _, .assign he' hes' hq hall' hvs⟩

/-- A call is a statement where neither a comma nor the sign of an assignment follows. -/
theorem callStat {p : Pos} {e : Expr} (he : Derives (.suffixed e) u rest) (hcall : e.isCall = true)
    (ih : Phrase.Readable u rest (.suffixed e)) : Phrase.Readable u rest (.stmt (.call p e)) := by
  intro hrest
  obtain ⟨e', _, hform, he'⟩ := ih
  obtain ⟨_, _, rfl⟩ := exists_cons_of_opens rfl he.opens.1
  exact ⟨_, _, .callStat he' (hform.1.trans hcall) hrest.2 hrest.1.2⟩

theorem clause {c : Expr} {b : Block} {p : Pos} (hy : y.kind = .keyword .then)
    (ih₁ : Phrase.Readable u₁ (y :: (u₂ ++ rest)) (.expr c))
    (ih₂ : Phrase.Readable u₂ rest (.block b)) :
    Phrase.Readable (u₁ ++ y :: u₂) rest (.clause (.mk p c b)) := by
  intro hrest hne p
  obtain ⟨_, _, hc⟩ := ih₁.expr (by simp [hy, BinaryOp.ofKind?])
  obtain ⟨_, _, hb⟩ := reads_block (ih₂ hrest) hne
  simp only [List.cons_append, List.append_assoc]
  exact ⟨_, _, _, .clause hc hy hb⟩

theorem elsesCons {c : IfClause} {cs : List IfClause} (ht : t.kind = .keyword .elseif)
    (hcs : Derives (.elses cs) u₂ rest) (ih₁ : Phrase.Readable u₁ (u₂ ++ rest) (.clause c))
    (ih₂ : Phrase.Readable u₂ rest (.elses cs)) :
    Phrase.Readable (t :: (u₁ ++ u₂)) rest (.elses (c :: cs)) := by
  intro hrest
  have hne : u₂ ++ rest ≠ [] := by
    refine List.append_ne_nil_of_right_ne_nil u₂ ?_
    rintro rfl
    simp [kindOf] at hrest
  obtain ⟨_, _, _, hc⟩ := ih₁ (endsBlock_of_elses hcs hrest) hne t.pos
  obtain ⟨_, _, hcs⟩ := ih₂ hrest
  simp only [List.cons_append, List.append_assoc]
  exact ⟨_, _, .elsesCons ht hc hcs⟩

theorem func {p : Pos} {ns : List Name} {more : Bool} {b : Block} (ht : t.kind = .symbol .parenOpen)
    (hps : ParameterPart ns more u₁) (hy : y.kind = .symbol .parenClose) (hz : z.kind = .keyword .end)
    (ih : Phrase.Readable u₂ (z :: rest) (.block b)) :
    Phrase.Readable (t :: (u₁ ++ y :: (u₂ ++ [z]))) rest (.func (.mk p ns more b)) := by
  have hclose : kindOf (y :: (u₂ ++ z :: rest)) = .symbol .parenClose := hy
  obtain ⟨_, _, hps⟩ := hps.reads hclose
  obtain ⟨_, _, hb⟩ := ih.block (by simp [hz, endsBlock])
  simp only [Phrase.Readable, List.cons_append, List.append_assoc, List.nil_append]
  exact ⟨_, _, .func ht hps hy hb hz⟩

/-! Expressions. -/

/-- What can be read with anything after it can be read where nothing is applied to it. -/
theorem suffixed {e : Expr} (h : Applies e u rest) (hrest : startsSuffix (kindOf rest) = false) :
    Phrase.Readable u rest (.suffixed e) := by
  obtain ⟨h, hform, happly⟩ := h
  obtain ⟨_, hread⟩ := happly h [] rest (.suffixesEnd hrest)
  exact ⟨h, _, hform, hread⟩

/-- A head in parentheses, whatever is applied to it. -/
theorem paren {p : Pos} {e : Expr} (ht : t.kind = .symbol .parenOpen) (hz : z.kind = .symbol .parenClose)
    (ih : Phrase.Readable u (z :: rest) (.expr e)) : Applies (.paren p e) (t :: (u ++ [z])) rest := by
  obtain ⟨i, _, hi⟩ := ih.expr (by simp [hz, BinaryOp.ofKind?])
  refine ⟨.paren t.pos i, ⟨rfl, rfl⟩, fun r ms next hr => ?_⟩
  simp only [List.cons_append, List.append_assoc, List.nil_append]
  exact ⟨_, .paren ht hi hz hr⟩

/-- A head with a field is read from left to right, though it is derived from the outside in. -/
theorem dot {p p' : Pos} {h : Expr} {x : Text} (ht : t.kind = .symbol .dot) (hk : k.kind = .name x)
    (ih : Applies h u (t :: k :: rest)) : Applies (.index p h (.string p' x)) (u ++ [t, k]) rest := by
  obtain ⟨h', -, happly⟩ := ih
  refine ⟨.index h'.pos h' (.string k.pos x), ⟨rfl, rfl⟩, fun r ms next hr => ?_⟩
  rw [List.append_assoc]
  exact happly r _ next (.dot ht hk hr)

/-- So is a head with an index. -/
theorem bracket {p : Pos} {h i : Expr} (ht : t.kind = .symbol .bracketOpen)
    (hz : z.kind = .symbol .bracketClose) (ih₁ : Applies h u₁ (t :: (u₂ ++ z :: rest)))
    (ih₂ : Phrase.Readable u₂ (z :: rest) (.expr i)) :
    Applies (.index p h i) (u₁ ++ t :: (u₂ ++ [z])) rest := by
  obtain ⟨h', -, happly⟩ := ih₁
  obtain ⟨i', _, hi⟩ := ih₂.expr (by simp [hz, BinaryOp.ofKind?])
  refine ⟨.index h'.pos h' i', ⟨rfl, rfl⟩, fun r ms next hr => ?_⟩
  simp only [List.cons_append, List.append_assoc, List.nil_append]
  exact happly r _ next (.bracket ht hi hz hr)

/-- So is a head with a call of one of its methods. -/
theorem method {p : Pos} {h : Expr} {x : Text} {as : List Expr} (ht : t.kind = .symbol .colon)
    (hk : k.kind = .name x) (ih₁ : Applies h u₁ (t :: k :: (u₂ ++ rest)))
    (ih₂ : Phrase.Readable u₂ rest (.args as)) :
    Applies (.methodCall p h x as) (u₁ ++ t :: k :: u₂) rest := by
  obtain ⟨h', -, happly⟩ := ih₁
  obtain ⟨as', _, has⟩ := ih₂
  refine ⟨.methodCall h'.pos h' x as', ⟨rfl, rfl⟩, fun r ms next hr => ?_⟩
  simp only [List.cons_append, List.append_assoc]
  exact happly r _ next (.method ht hk has hr)

/-- So is a head that is called. -/
theorem call {p : Pos} {h : Expr} {as : List Expr} (ih₁ : Applies h u₁ (u₂ ++ rest))
    (ih₂ : Phrase.Readable u₂ rest (.args as)) : Applies (.call p h as) (u₁ ++ u₂) rest := by
  obtain ⟨h', -, happly⟩ := ih₁
  obtain ⟨as', _, has⟩ := ih₂
  refine ⟨.call h'.pos h' as', ⟨rfl, rfl⟩, fun r ms next hr => ?_⟩
  rw [List.append_assoc]
  exact happly r _ next (.call has hr)

/-- Arguments in parentheses begin with an expression. -/
theorem argsSome {as : List Expr} (ht : t.kind = .symbol .parenOpen) (hu : opensExpr (kindOf u) = true)
    (hz : z.kind = .symbol .parenClose) (ih : Phrase.Readable u (z :: rest) (.exprs as)) :
    Phrase.Readable (t :: (u ++ [z])) rest (.args as) := by
  obtain ⟨_, _, has⟩ := ih (by simp [hz, endsExprs, endsExpr, BinaryOp.ofKind?])
  have hclose := (ends_of_opensExpr hu).2.2.1
  rw [← kindOf_append_of_opens (w := z :: rest) rfl hu] at hclose
  simp only [Phrase.Readable, List.cons_append, List.append_assoc, List.nil_append]
  exact ⟨_, _, .argsSome ht hclose has hz⟩

theorem table {p : Pos} {fs : List TableField} (ht : t.kind = .symbol .braceOpen)
    (hz : z.kind = .symbol .braceClose) (ih : Phrase.Readable u (z :: rest) (.fields fs)) :
    Phrase.Readable (t :: (u ++ [z])) rest (.table (.table p fs)) := by
  obtain ⟨_, _, hfs⟩ := ih hz
  simp only [Phrase.Readable, List.cons_append, List.append_assoc, List.nil_append]
  exact ⟨_, _, .table ht hfs hz⟩

/-- A field does not begin with the end of the table. -/
theorem ne_braceClose {f : TableField} (h : Derives (.field f) u w) :
    kindOf (u ++ w) ≠ .symbol .braceClose := by
  rcases h.opens with hu | hu
  · rw [kindOf_append_of_opens rfl hu]
    exact (ends_of_opensExpr hu).2.2.2.1
  · rw [kindOf_append (by simp [hu]), hu]
    nofun

/-- The last field stands before the end of the table. -/
theorem fieldsLast {f : TableField} (h : Derives (.field f) u rest)
    (ih : Phrase.Readable u rest (.field f)) : Phrase.Readable u rest (.fields [f]) := by
  intro hrest
  obtain ⟨_, _, hf⟩ := ih (.inr (.inr hrest))
  exact ⟨_, _, .fieldsLast (ne_braceClose h) hf (by simp [hrest]) (by simp [hrest])⟩

/-- A separator may stand after the last field, too. -/
theorem fieldsCons {f : TableField} {fs : List TableField} (h : Derives (.field f) u₁ (y :: (u₂ ++ rest)))
    (hy : y.kind = .symbol .comma ∨ y.kind = .symbol .semicolon)
    (ih₁ : Phrase.Readable u₁ (y :: (u₂ ++ rest)) (.field f))
    (ih₂ : Phrase.Readable u₂ rest (.fields fs)) :
    Phrase.Readable (u₁ ++ y :: u₂) rest (.fields (f :: fs)) := by
  intro hrest
  obtain ⟨_, _, hf⟩ := ih₁ (hy.elim .inl fun hy => .inr (.inl hy))
  obtain ⟨_, _, hfs⟩ := ih₂ hrest
  simp only [List.cons_append, List.append_assoc]
  exact ⟨_, _, .fieldsCons (ne_braceClose h) hf hy hfs⟩

theorem fieldKeyed {p : Pos} {i e : Expr} (ht : t.kind = .symbol .bracketOpen)
    (hy : y.kind = .symbol .bracketClose) (hq : q.kind = .symbol .assign)
    (ih₁ : Phrase.Readable u₁ (y :: q :: (u₂ ++ rest)) (.expr i))
    (ih₂ : Phrase.Readable u₂ rest (.expr e)) :
    Phrase.Readable (t :: (u₁ ++ y :: q :: u₂)) rest (.field (.mk p (some i) e)) := by
  intro hrest
  obtain ⟨_, _, hi⟩ := ih₁.expr (by simp [hy, BinaryOp.ofKind?])
  obtain ⟨_, _, he⟩ := Chain.reads ih₂ (endsExpr_of_endsField hrest)
  simp only [List.cons_append, List.append_assoc]
  exact ⟨_, _, .fieldKeyed ht hi hy hq he⟩

/-- A value that is no key is told by the two tokens at its beginning. -/
theorem fieldPlain {p : Pos} {e : Expr} (hu : opensExpr (kindOf u) = true) (hfree : KeyFree u)
    (ih : Phrase.Readable u rest (.expr e)) : Phrase.Readable u rest (.field (.mk p none e)) := by
  intro hrest
  obtain ⟨_, _, he⟩ := Chain.reads ih (endsExpr_of_endsField hrest)
  obtain ⟨_, _, rfl⟩ := exists_cons_of_opens rfl hu
  have hassign : kindOf rest ≠ .symbol .assign := by
    rcases hrest with h | h | h <;> simp [h]
  have hkey := hfree.append (ne_eof_of_opens rfl hu) hassign
  exact ⟨_, _, .fieldPlain (ends_of_opensExpr hu).2.2.2.2 hkey he⟩

end Phrase.Readable

/-- Where a phrase is derived, it can be read. -/
theorem Derives.readable {phrase : Phrase} (h : Derives phrase u rest) : phrase.Readable u rest := by
  induction h with
  | block _ ih => exact ih
  | stmtsEnd => exact fun hrest => ⟨_, _, .stmtsEnd hrest⟩
  | returnNone ht hsign => exact .returnNone ht hsign
  | returnSome ht hvs hsign ih => exact .returnSome ht hvs.opens hsign ih
  | stmtsSkip ht _ ih =>
    intro hrest
    obtain ⟨_, _, hss⟩ := ih hrest
    exact ⟨_, _, .stmtsSkip ht hss⟩
  | stmtsCons hs hss ih₁ ih₂ => exact .stmtsCons hs hss ih₁ ih₂
  | «if» ht _ hcs ho hz ih₁ ih₂ ih₃ => exact .ifStat ht hcs ho hz ih₁ ih₂ ih₃
  | «while» ht _ hy _ hz ih₁ ih₂ => exact .whileStat ht hy hz ih₁ ih₂
  | «do» ht _ hz ih => exact .doStat ht hz ih
  | «repeat» ht _ hy _ ih₁ ih₂ => exact .repeatStat ht hy ih₁ ih₂
  | numericFor ht hv hq _ hy₁ _ hstep hy₂ _ hz ih₁ ih₂ ih₃ ih₄ =>
    exact .numericFor ht hv hq hy₁ hstep hy₂ hz ih₁ ih₂ ih₃ ih₄
  | genericFor ht hns hy₁ _ hy₂ _ hz ih₁ ih₂ => exact .genericFor ht hns hy₁ hy₂ hz ih₁ ih₂
  | functionStat ht hv hpath hf ih => exact .functionStat ht hv hpath hf ih
  | localFunction ht hw hv _ ih =>
    intro _
    obtain ⟨_, _, hf⟩ := ih
    exact ⟨_, _, .localFunction ht hw hv.writes hf⟩
  | «local» ht hxs hvs ih => exact .localStat ht hxs hvs ih
  | «break» ht => exact fun _ => ⟨_, _, .break ht⟩
  | goto ht hk => exact fun _ => ⟨_, _, .goto ht hk⟩
  | label ht hk hz => exact fun _ => ⟨_, _, .label ht hk hz⟩
  | assign he _ hq hall _ ih₁ ih₂ ih₃ => exact .assign he hq hall ih₁ ih₂ ih₃
  | callStat he hcall ih => exact .callStat he hcall ih
  | clause _ hy _ ih₁ ih₂ => exact .clause hy ih₁ ih₂
  | elsesEnd => exact fun hrest => ⟨_, _, .elsesEnd (by rcases hrest with h | h <;> simp [h])⟩
  | elsesCons ht _ hcs ih₁ ih₂ => exact .elsesCons ht hcs ih₁ ih₂
  | orelseNone => exact fun hrest => ⟨_, _, .orelseNone (by simp [hrest])⟩
  | orelseSome ht _ ih =>
    intro hrest
    obtain ⟨_, _, hb⟩ := reads_block (ih (by simp [hrest, endsBlock])) (by rintro rfl; cases hrest)
    exact ⟨_, _, .orelseSome ht hb⟩
  | stepNone => exact fun hrest => ⟨_, _, .stepNone (by simp [hrest])⟩
  | stepSome ht _ ih =>
    intro hrest
    obtain ⟨_, _, he⟩ := Chain.reads ih (by simp [hrest, endsExpr, BinaryOp.ofKind?])
    exact ⟨_, _, .stepSome ht he⟩
  | initialNone => exact fun hrest => ⟨_, _, .initialNone hrest.2⟩
  | initialSome ht _ ih =>
    intro hrest
    obtain ⟨_, _, hvs⟩ := ih hrest.1
    exact ⟨_, _, .initialSome ht hvs⟩
  | targetsEnd => exact fun hrest => ⟨_, _, rfl, .targetsEnd (by simp [hrest])⟩
  | targetsCons ht _ _ ih₁ ih₂ =>
    intro hrest
    obtain ⟨e', _, hform, he⟩ := ih₁
    obtain ⟨es', _, hall, hes⟩ := ih₂ hrest
    simp only [List.cons_append, List.append_assoc]
    exact ⟨e' :: es', _, by simp [hform.2, hall], .targetsCons ht he hes⟩
  | func ht hps hy _ hz ih => exact .func ht hps hy hz ih
  | exprsOne _ ih =>
    intro hrest
    obtain ⟨_, _, he⟩ := Chain.reads ih hrest.1
    exact ⟨_, _, .exprsOne he hrest.2⟩
  | exprsCons _ hy _ ih₁ ih₂ =>
    intro hrest
    obtain ⟨_, _, he⟩ := Phrase.Readable.expr ih₁ (by simp [hy, BinaryOp.ofKind?])
    obtain ⟨_, _, hes⟩ := ih₂ hrest
    simp only [List.cons_append, List.append_assoc]
    exact ⟨_, _, .exprsCons he hy hes⟩
  | unary hop _ ih => exact .unary hop ih
  | binary _ hop _ ih₁ ih₂ => exact Chain.append ih₁ hop ih₂
  | number ht => exact .operand ⟨by simp [ht, opensOperand], _, _, .number ht⟩
  | string ht => exact .operand ⟨by simp [ht, opensOperand], _, _, .string ht⟩
  | nil ht => exact .operand ⟨by simp [ht, opensOperand], _, _, .nil ht⟩
  | «true» ht => exact .operand ⟨by simp [ht, opensOperand], _, _, .true ht⟩
  | «false» ht => exact .operand ⟨by simp [ht, opensOperand], _, _, .false ht⟩
  | vararg ht => exact .operand ⟨by simp [ht, opensOperand], _, _, .vararg ht⟩
  | tableExpr h ih =>
    have hopen := h.opens
    rw [Phrase.Opens] at hopen
    obtain ⟨_, _, he⟩ := ih
    exact .operand ⟨by simp [hopen, opensOperand], _, _, .tableExpr he⟩
  | functionExpr ht _ ih =>
    obtain ⟨_, _, hf⟩ := ih
    exact .operand ⟨by simp [ht, opensOperand], _, _, .functionExpr ht hf⟩
  | suffixedExpr h ih =>
    obtain ⟨_, _, -, he⟩ := ih
    exact .operand ⟨opensOperand_of_applied h.opens.1, _, _, .suffixedExpr he⟩
  | suffixed _ hrest ih => exact .suffixed ih hrest
  | name hv => exact ⟨.name ⟨_, _, 0⟩, ⟨rfl, rfl⟩, fun _ _ _ hr => ⟨_, .name hv.writes hr⟩⟩
  | paren ht _ hz ih => exact .paren ht hz ih
  | dot _ ht hk ih => exact .dot ht hk ih
  | bracket _ ht _ hz ih₁ ih₂ => exact .bracket ht hz ih₁ ih₂
  | method _ ht hk _ ih₁ ih₂ => exact .method ht hk ih₁ ih₂
  | call _ _ ih₁ ih₂ => exact .call ih₁ ih₂
  | argString ht => exact ⟨_, _, .argString ht⟩
  | argTable _ ih =>
    obtain ⟨_, _, he⟩ := ih
    exact ⟨_, _, .argTable he⟩
  | argsNone ht hz => exact ⟨_, _, .argsNone ht hz⟩
  | argsSome ht has hz ih => exact .argsSome ht has.opens hz ih
  | table ht _ hz ih => exact .table ht hz ih
  | fieldsEnd => exact fun hrest => ⟨_, _, .fieldsEnd hrest⟩
  | fieldsLast h ih => exact .fieldsLast h ih
  | fieldsCons h hy _ ih₁ ih₂ => exact .fieldsCons h hy ih₁ ih₂
  | fieldKeyed ht _ hy hq _ ih₁ ih₂ => exact .fieldKeyed ht hy hq ih₁ ih₂
  | fieldNamed hk hq _ ih =>
    intro hrest
    obtain ⟨_, _, he⟩ := Chain.reads ih (endsExpr_of_endsField hrest)
    exact ⟨_, _, .fieldNamed hk hq he⟩
  | fieldPlain h ih => exact .fieldPlain h.opens.1 h.opens.2 ih

/-- **Everything that is derived can be read.** -/
theorem Derives.reads {b : Block} (h : Derives (.block b) u rest) (heof : kindOf rest = .eof)
    (hne : rest ≠ []) : ∃ b' ms, Reads (.block b') (u ++ rest) ms rest :=
  reads_block (h.readable (by simp [heof, endsBlock])) hne

end

end LuaServer.Lua
