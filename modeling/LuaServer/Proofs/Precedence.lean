/-
# Precedence

A sequence of operands and operators may be read as many trees.  The powers of the operators single one
out: an operator takes what stands next to it from an operator that holds it less.  That shows on the
spines of a tree.  Whatever begins on the left spine of a right operand would otherwise have been left to
the operator before it, and what ends on the right spine of a left operand to the operator after it.

The reader makes such trees (`Reads.grouped`, by induction over what was read), and there is no other over
the same sequence (`Grouped.unique`).  The second is shown by reading a sequence again: a tree that
respects the powers is what comes out, and one thing only comes out.

Main result: `expr_grouped`.
-/
import LuaServer.Proofs.ReaderSound
import LuaServer.Proofs.Lexing

namespace LuaServer.Lua

/-! ## 1. Operator trees -/

/-- A piece of an operator tree: an operand, or an operator in its place. -/
inductive Piece where
  | operand (e : Expr)
  | unary (pos : Pos) (op : UnaryOp)
  | binary (pos : Pos) (op : BinaryOp)

namespace Expr

/-- The operands and operators of a tree, in the order in which they are written. -/
def pieces : Expr → List Piece
  | .binary pos op l r => l.pieces ++ .binary pos op :: r.pieces
  | .unary pos op e => .unary pos op :: e.pieces
  | e => [.operand e]

/-- The operators that are met from a tree down its left operands. -/
def leftSpine : Expr → List BinaryOp
  | .binary _ op l _ => op :: l.leftSpine
  | _ => []

/-- How strongly the operators hold what is on their right that are met from a tree down its last
operands. -/
def rightSpine : Expr → List Nat
  | .binary _ op _ r => op.rightPower :: r.rightSpine
  | .unary _ _ e => UnaryOp.power :: e.rightSpine
  | _ => []

/-- An operator has the operands that the powers give it. -/
def Fitted : Expr → Prop
  | .binary _ op l r =>
    (∀ q ∈ r.leftSpine, op.rightPower < q.leftPower) ∧ ∀ power ∈ l.rightSpine, op.leftPower ≤ power
  | .unary _ _ e => ∀ q ∈ e.leftSpine, UnaryOp.power < q.leftPower
  | _ => True

/-- All operators of a tree, down to its operands, have the operands that the powers give them. -/
def Grouped : Expr → Prop
  | .binary pos op l r => (Expr.binary pos op l r).Fitted ∧ l.Grouped ∧ r.Grouped
  | .unary pos op e => (Expr.unary pos op e).Fitted ∧ e.Grouped
  | _ => True

/-- An expression that is no operator and its operands. -/
def isOperand : Expr → Bool
  | .binary _ _ _ _ | .unary _ _ _ => false
  | _ => true

section
variable {e : Expr}

theorem leftSpine_of_isOperand (h : e.isOperand = true) : e.leftSpine = [] := by
  cases e <;> first | rfl | cases h

theorem rightSpine_of_isOperand (h : e.isOperand = true) : e.rightSpine = [] := by
  cases e <;> first | rfl | cases h

end

/-- A tree of whose nodes each has the operands that the powers give it is grouped. -/
theorem grouped_of_walk {e : Expr} (h : ∀ x, Node.expr x ∈ walkExpr e → x.Fitted) : e.Grouped := by
  induction e using pieces.induct with
  | case1 pos op l r ihl ihr =>
    simp only [walkExpr, List.mem_cons, List.mem_append] at h
    exact ⟨h _ (.inl rfl), ihl fun x hx => h x (.inr (.inl hx)), ihr fun x hx => h x (.inr (.inr hx))⟩
  | case2 pos op e ih =>
    simp only [walkExpr, List.mem_cons] at h
    exact ⟨h _ (.inl rfl), ih fun x hx => h x (.inr hx)⟩
  | case3 e hbinary hunary =>
    rw [Grouped.eq_3 e hbinary hunary]
    trivial

end Expr

/-! ## 2. Reading a sequence again -/

/-- What may come next is no operator that takes a tree as its left operand under a limit. -/
def Closes (limit : Nat) (next : List Piece) : Prop :=
  ∀ pos op rest, next = .binary pos op :: rest → op.leftPower ≤ limit

/-- Reading pieces under a limit, with a left operand or without: the tree and the pieces that are
left. -/
inductive Climbs : Option Expr → Nat → List Piece → Expr → List Piece → Prop
  | unary {pos op limit ps e ps₁ r next} : Climbs none UnaryOp.power ps e ps₁ →
      Climbs (some (.unary pos op e)) limit ps₁ r next →
      Climbs none limit (.unary pos op :: ps) r next
  | operand {limit e ps r next} : Climbs (some e) limit ps r next →
      Climbs none limit (.operand e :: ps) r next
  | stop {limit e next} : Closes limit next → Climbs (some e) limit next e next
  | binary {pos op limit l ps r ps₁ e next} : limit < op.leftPower →
      Climbs none op.rightPower ps r ps₁ →
      Climbs (some (.binary pos op l r)) limit ps₁ e next →
      Climbs (some l) limit (.binary pos op :: ps) e next

/-- One tree comes out. -/
theorem Climbs.unique {left : Option Expr} {limit : Nat} {ps next next' : List Piece} {e e' : Expr}
    (h : Climbs left limit ps e next) (h' : Climbs left limit ps e' next') : e = e' ∧ next = next' := by
  induction h generalizing e' next' with
  | unary _ _ ih₁ ih₂ =>
    cases h' with
    | unary h₁ h₂ =>
      obtain ⟨rfl, rfl⟩ := ih₁ h₁
      exact ih₂ h₂
  | operand _ ih =>
    cases h' with
    | operand h => exact ih h
  | stop hcloses =>
    cases h' with
    | stop => exact ⟨rfl, rfl⟩
    | binary hlimit => exact absurd (hcloses _ _ _ rfl) (Nat.not_le_of_lt hlimit)
  | binary hlimit _ _ ih₁ ih₂ =>
    cases h' with
    | stop hcloses => exact absurd (hcloses _ _ _ rfl) (Nat.not_le_of_lt hlimit)
    | binary _ h₁ h₂ =>
      obtain ⟨rfl, rfl⟩ := ih₁ h₁
      exact ih₂ h₂

/-- Where a tree that respects the powers is written, it is read, and what comes next goes on from it. -/
theorem Expr.Grouped.climbs {e : Expr} (h : e.Grouped) {limit : Nat} {next : List Piece}
    (hleft : ∀ q ∈ e.leftSpine, limit < q.leftPower)
    (hright : ∀ power ∈ e.rightSpine, Closes power next) {r : Expr} {next' : List Piece}
    (hgoes : Climbs (some e) limit next r next') : Climbs none limit (e.pieces ++ next) r next' := by
  induction e using Expr.pieces.induct generalizing limit next r next' with
  | case1 pos op l x ihl ihx =>
    obtain ⟨⟨hx, hl⟩, hgroupedl, hgroupedx⟩ := h
    have hop : limit < op.leftPower := hleft op List.mem_cons_self
    have hend : Climbs (some x) op.rightPower next x next := .stop (hright _ List.mem_cons_self)
    have hread : Climbs none op.rightPower (x.pieces ++ next) x next :=
      ihx hgroupedx hx (fun power hp => hright power (List.mem_cons_of_mem _ hp)) hend
    rw [pieces, List.append_assoc, List.cons_append]
    refine ihl hgroupedl (fun q hq => hleft q (List.mem_cons_of_mem _ hq)) ?_ (.binary hop hread hgoes)
    rintro power hp _ _ _ ⟨⟩
    exact hl power hp
  | case2 pos op x ih =>
    obtain ⟨hx, hgrouped⟩ := h
    have hend : Climbs (some x) UnaryOp.power next x next := .stop (hright _ List.mem_cons_self)
    have hread : Climbs none UnaryOp.power (x.pieces ++ next) x next :=
      ih hgrouped hx (fun power hp => hright power (List.mem_cons_of_mem _ hp)) hend
    exact .unary hread hgoes
  | case3 e hbinary hunary =>
    rw [pieces.eq_3 e hbinary hunary]
    exact .operand hgoes

/-- **One tree over a sequence respects the powers.** -/
theorem Expr.Grouped.unique {e e' : Expr} (h : e.Grouped) (h' : e'.Grouped)
    (hpieces : e.pieces = e'.pieces) : e = e' := by
  have hpos : ∀ q : BinaryOp, 0 < q.leftPower := by
    intro q
    cases q <;> decide
  have hend : ∀ power, Closes power [] := nofun
  have hread := h.climbs (fun q _ => hpos q) (fun power _ => hend power) (.stop (hend 0))
  have hread' := h'.climbs (fun q _ => hpos q) (fun power _ => hend power) (.stop (hend 0))
  rw [hpieces] at hread
  exact (hread.unique hread').1

/-! ## 3. The trees of the reader -/

/-- All operators among nodes have the operands that the powers give them. -/
def AllFitted (ns : List Node) : Prop := ∀ x, Node.expr x ∈ ns → x.Fitted

section
variable {ms ns : List Node}

@[simp] theorem allFitted_nil : AllFitted [] := by simp [AllFitted]

@[simp] theorem allFitted_append : AllFitted (ms ++ ns) ↔ AllFitted ms ∧ AllFitted ns := by
  simp [AllFitted, or_imp, forall_and]

@[simp] theorem allFitted_expr {e : Expr} : AllFitted (.expr e :: ns) ↔ e.Fitted ∧ AllFitted ns := by
  simp [AllFitted, or_imp, forall_and]

@[simp] theorem allFitted_stmt {s : Stmt} : AllFitted (.stmt s :: ns) ↔ AllFitted ns := by
  simp [AllFitted]

@[simp] theorem allFitted_block {b : Block} : AllFitted (.block b :: ns) ↔ AllFitted ns := by
  simp [AllFitted]

@[simp] theorem allFitted_clause {c : IfClause} : AllFitted (.clause c :: ns) ↔ AllFitted ns := by
  simp [AllFitted]

@[simp] theorem allFitted_field {f : TableField} : AllFitted (.field f :: ns) ↔ AllFitted ns := by
  simp [AllFitted]

@[simp] theorem allFitted_func {f : FuncBody} : AllFitted (.func f :: ns) ↔ AllFitted ns := by
  simp [AllFitted]

@[simp] theorem allFitted_declared {n : Name} : AllFitted (.declared n :: ns) ↔ AllFitted ns := by
  simp [AllFitted]

@[simp] theorem allFitted_map_declared {xs : List Name} : AllFitted (xs.map .declared) := by
  simp [AllFitted]

end

/-- What stands beside a tree: under the limit nothing begins on its left spine, and no operator that
comes next takes anything on its right spine away. -/
structure Bounded (limit : Nat) (e : Expr) (next : List Token) : Prop where
  left : ∀ q ∈ e.leftSpine, limit < q.leftPower
  right : ∀ q, BinaryOp.ofKind? (kindOf next) = some q → ∀ power ∈ e.rightSpine, q.leftPower ≤ power

/-- No operator comes next that takes a left operand under the limit. -/
def Ends (limit : Nat) (next : List Token) : Prop :=
  ∀ q, BinaryOp.ofKind? (kindOf next) = some q → q.leftPower ≤ limit

/-- The operators in a part of a program have the operands that the powers give them.  Where the part
begins with an expression that was already read, that is so if it is of that expression. -/
def Item.Grouped (ts next : List Token) : Item → Prop
  | .block b => AllFitted (walkBlock b)
  | .stmts ss => AllFitted (walkStmts ss)
  | .stmt s => AllFitted (walkStmt s)
  | .clause c => AllFitted (walkClauses [c])
  | .elses cs => AllFitted (walkClauses cs)
  | .orelse b => AllFitted (walkBlock? b)
  | .step e => AllFitted (walkExpr? e)
  | .func f => AllFitted (walkFunc f)
  | .initial es | .targets es | .exprs es | .args es => AllFitted (walkExprs es)
  | .expr limit e => AllFitted (walkExpr e) ∧ Bounded limit e next ∧ Ends limit next
  | .operators limit l e => AllFitted (walkExpr l) → Bounded limit l ts →
      AllFitted (walkExpr e) ∧ Bounded limit e next ∧ Ends limit next
  | .simple e | .suffixed e | .table e => AllFitted (walkExpr e) ∧ e.isOperand = true
  | .suffixes h e => AllFitted (walkExpr h) → h.isOperand = true →
      AllFitted (walkExpr e) ∧ e.isOperand = true
  | .fields fs => AllFitted (walkFields fs)
  | .field f => AllFitted (walkFields [f])

theorem Path.fitted {e r : Expr} {m : Bool} {ts next : List Token} {ms : List Mark}
    (h : Path e r m ts ms next) (he : AllFitted (walkExpr e)) : AllFitted (walkExpr r) := by
  induction h with
  | done => exact he
  | method => simpa [walkExpr, Expr.Fitted] using he
  | field _ _ _ ih => exact ih (by simpa [walkExpr, Expr.Fitted] using he)

/-- **The reader groups operands by the powers of their operators.** -/
theorem Reads.grouped {item : Item} {ts next : List Token} {ms : List Mark} (h : Reads item ts ms next) :
    item.Grouped ts next := by
  induction h with
  | unary hop _ _ ih₁ ih₂ =>
    obtain ⟨hfitted, hbounded, hends⟩ := ih₁
    refine ih₂ ?_ ⟨nofun, fun q hq power hp => ?_⟩
    · simp only [walkExpr, allFitted_expr]
      exact ⟨hbounded.left, hfitted⟩
    · rcases List.mem_cons.mp hp with rfl | hp
      · exact hends q hq
      · exact hbounded.right q hq power hp
  | operand _ _ _ ih₁ ih₂ =>
    obtain ⟨hfitted, hoperand⟩ := ih₁
    refine ih₂ hfitted ⟨?_, ?_⟩
    · simp [Expr.leftSpine_of_isOperand hoperand]
    · simp [Expr.rightSpine_of_isOperand hoperand]
  | operatorsEnd hends => exact fun hfitted hbounded => ⟨hfitted, hbounded, hends⟩
  | operator hop hlimit _ _ ih₁ ih₂ =>
    intro hfittedl hboundedl
    obtain ⟨hfittedr, hboundedr, hends⟩ := ih₁
    refine ih₂ ?_ ⟨fun q hq => ?_, fun q hq power hp => ?_⟩
    · simp only [walkExpr, allFitted_expr, allFitted_append]
      exact ⟨⟨hboundedr.left, hboundedl.right _ hop⟩, hfittedl, hfittedr⟩
    · rcases List.mem_cons.mp hq with rfl | hq
      · exact hlimit
      · exact hboundedl.left q hq
    · rcases List.mem_cons.mp hp with rfl | hp
      · exact hends q hq
      · exact hboundedr.right q hq power hp
  | functionStat _ _ hpath _ ih =>
    have htarget := hpath.fitted (by simp [walkExpr, Expr.Fitted])
    simp_all [Item.Grouped, walkStmt]
  | «local» => simp_all [Item.Grouped, walkStmt, AllFitted]
  | fieldsCons _ _ _ _ ih₁ ih₂ =>
    rw [Item.Grouped, walkFields_cons]
    exact allFitted_append.mpr ⟨ih₁, ih₂⟩
  | _ => simp_all [Item.Grouped, walkStmt, walkStmts, walkBlock, walkBlock?, walkExpr, walkExprs,
      walkExpr?, walkFields, walkFunc, walkClauses, Expr.Fitted, Expr.isOperand]

/-- **Operator trees respect precedence and associativity, uniquely.**  In an expression that the reader
returns every operator, down to the innermost function, has the operands that the powers give it; no
operator on its left spine could have been left to what stands before it; and no other tree over its
operands and operators respects the powers. -/
theorem expr_grouped {depth limit : Nat} {s s' : ParseState} {e : Expr}
    (hended : Ended (s.tok :: s.rest)) (h : Parse.expr depth limit s = .ok (e, s')) :
    (∀ x, Node.expr x ∈ walkExpr e → x.Fitted) ∧ (∀ q ∈ e.leftSpine, limit < q.leftPower) ∧
      e.Grouped ∧ ∀ e' : Expr, e'.Grouped → e'.pieces = e.pieces → e' = e := by
  obtain ⟨ms, next, τ, -, -, hreads, -⟩ := (sound depth).expr hended h
  obtain ⟨hfitted, hbounded, -⟩ := hreads.grouped
  have hgrouped : e.Grouped := Expr.grouped_of_walk hfitted
  exact ⟨hfitted, hbounded.left, hgrouped, fun e' he' hpieces => he'.unique hgrouped hpieces⟩

/-- In `2 ^ -3 ^ 2 .. a .. b` the sign holds the second power, and the right concatenation comes before
the left one. -/
theorem expr_grouped_signed :
    ∃ ts e s', tokenize (text "2 ^ -3 ^ 2 .. a .. b") = .ok ts ∧ Ended ts ∧
      Parse.expr 30 0 (stateAt ts {}) = .ok (e, s') ∧
      e.leftSpine = [.concat, .pow] ∧ e.rightSpine = [8, 8] ∧ e.pieces.length = 10 ∧
      ∀ e' : Expr, e'.Grouped → e'.pieces = e.pieces → e' = e := by
  have hrun : (tokenize (text "2 ^ -3 ^ 2 .. a .. b")).toOption.bind (fun ts =>
      (Parse.expr 30 0 (stateAt ts {})).toOption.map fun r =>
        (r.1.leftSpine, r.1.rightSpine, r.1.pieces.length)) = some ([.concat, .pow], [8, 8], 10) := by
    decide +kernel
  cases hlex : tokenize (text "2 ^ -3 ^ 2 .. a .. b") with
  | error e =>
    rw [hlex] at hrun
    cases hrun
  | ok ts =>
    obtain ⟨t, us, rfl⟩ := List.exists_cons_of_ne_nil (tokenize_ended hlex).ne_nil
    rw [hlex] at hrun
    cases hexpr : Parse.expr 30 0 (stateAt (t :: us) {}) with
    | error e =>
      change ((Parse.expr 30 0 (stateAt (t :: us) {})).toOption.map _) = _ at hrun
      rw [hexpr] at hrun
      cases hrun
    | ok r =>
      change ((Parse.expr 30 0 (stateAt (t :: us) {})).toOption.map _) = _ at hrun
      rw [hexpr] at hrun
      obtain ⟨hleft, hshape⟩ := Prod.mk.inj (Option.some.inj hrun)
      obtain ⟨hright, hpieces⟩ := Prod.mk.inj hshape
      obtain ⟨-, -, -, hunique⟩ := expr_grouped (tokenize_ended hlex) hexpr
      exact ⟨_, r.1, r.2, rfl, tokenize_ended hlex, hexpr, hleft, hright, hpieces, hunique⟩

end LuaServer.Lua
