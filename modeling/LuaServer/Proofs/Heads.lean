/-
# Nodes with a token of their own

An index, a call and a call of a method stand where the expression stands that they begin with.  Every
other expression, and every declared name, stands at a token at which no other node of the kind does: its
head.  An operation has its operator for that.

The walk of a tree puts each node before the names that it declares and its parts.  What is kept by that
holds of every walk (`Walked`).  So every name that is declared stands below one node that declares it, and
no two nodes declare a name at one place.

Main results: `parse_heads_nodup`, `Walked.chunk`, `eq_of_introduces`.
-/
import Mathlib.Data.List.Pairwise
import LuaServer.Proofs.Resolution

namespace LuaServer.Lua

open scoped List

/-! ## 1. Heads -/

/-- The place of the token that only this expression stands at. -/
def Expr.head? : Expr → Option Pos
  | .index _ _ _ | .call _ _ _ | .methodCall _ _ _ _ => none
  | e => some e.pos

/-- The place of the token that only this node stands at. -/
def Node.head? : Node → Option Pos
  | .declared n => some n.pos
  | .expr e => e.head?
  | _ => none

/-- The heads of nodes. -/
def headsIn (ns : List Node) : List Pos := ns.filterMap Node.head?

/-- How many of the nodes have their head at a place. -/
def headsAt (ns : List Node) (q : Pos) : Nat := (headsIn ns).count q

section
variable (ns : List Node) (q : Pos)

@[simp] theorem headsAt_nil : headsAt [] q = 0 := rfl

@[simp] theorem headsAt_append (ms : List Node) : headsAt (ms ++ ns) q = headsAt ms q + headsAt ns q := by
  simp [headsAt, headsIn]

@[simp] theorem headsAt_cons_expr (e : Expr) :
    headsAt (.expr e :: ns) q = e.head?.toList.count q + headsAt ns q := by
  cases h : e.head? <;> simp [headsAt, headsIn, Node.head?, h, List.count_cons, Nat.add_comm]

@[simp] theorem headsAt_cons_declared (n : Name) :
    headsAt (.declared n :: ns) q = [n.pos].count q + headsAt ns q := by
  simp [headsAt, headsIn, Node.head?, List.count_cons, Nat.add_comm]

@[simp] theorem headsAt_declared (xs : List Name) :
    headsAt (xs.map .declared) q = (xs.map (·.pos)).count q := by
  induction xs with
  | nil => rfl
  | cons n xs ih => simp [ih, List.count_cons, Nat.add_comm]

@[simp] theorem headsAt_cons_stmt (s : Stmt) : headsAt (.stmt s :: ns) q = headsAt ns q := rfl
@[simp] theorem headsAt_cons_block (b : Block) : headsAt (.block b :: ns) q = headsAt ns q := rfl
@[simp] theorem headsAt_cons_clause (c : IfClause) : headsAt (.clause c :: ns) q = headsAt ns q := rfl
@[simp] theorem headsAt_cons_field (f : TableField) : headsAt (.field f :: ns) q = headsAt ns q := rfl
@[simp] theorem headsAt_cons_func (f : FuncBody) : headsAt (.func f :: ns) q = headsAt ns q := rfl
@[simp] theorem headsAt_cons_chunk (c : Chunk) : headsAt (.chunk c :: ns) q = headsAt ns q := rfl

end

/-! ## 2. Derivations -/

section
variable {ts next : List Token} {ms : List Mark}

/-- The names of a list stand each at its own token, attributes aside. -/
theorem Sited.names {xs : List (Name × Option Attrib)} (h : Sited xs ms) (q : Pos) :
    ((xs.map (·.1)).map (·.pos)).count q ≤ tokensAt ms q := by
  simpa only [List.map_map, Function.comp_def] using h q

/-- The same for names that have no attributes. -/
theorem Sited.bareNames {ns : List Name} (h : Sited (bare ns) ms) (q : Pos) :
    (ns.map (·.pos)).count q ≤ tokensAt ms q := by
  simpa only [map_fst_bare] using h.names q

/-- The fields of the name in a function statement have tokens of their own. -/
theorem Path.heads {e r : Expr} {m : Bool} (h : Path e r m ts ms next) (q : Pos) :
    headsAt (walkExpr r) q ≤ headsAt (walkExpr e) q + tokensAt ms q := by
  induction h with
  | done => exact Nat.le_add_right ..
  | method => simp [walkExpr, Expr.head?, Expr.pos]
  | field _ _ _ ih => simp [walkExpr, Expr.head?, Expr.pos] at *; omega

/-- The nodes of a part of a program have their heads at its tokens, one at each.  Where the part begins
with an expression that was already read, that expression has its own tokens. -/
def Item.Headed (ms : List Mark) (q : Pos) : Item → Prop
  | .block b => headsAt (walkBlock b) q ≤ tokensAt ms q
  | .stmts ss => headsAt (walkStmts ss) q ≤ tokensAt ms q
  | .stmt s => headsAt (walkStmt s) q ≤ tokensAt ms q
  | .clause c => headsAt (walkClauses [c]) q ≤ tokensAt ms q
  | .elses cs => headsAt (walkClauses cs) q ≤ tokensAt ms q
  | .orelse b => headsAt (walkBlock? b) q ≤ tokensAt ms q
  | .step e => headsAt (walkExpr? e) q ≤ tokensAt ms q
  | .func f => headsAt (walkFunc f) q ≤ tokensAt ms q
  | .initial es | .targets es | .exprs es | .args es => headsAt (walkExprs es) q ≤ tokensAt ms q
  | .expr _ e | .simple e | .suffixed e | .table e => headsAt (walkExpr e) q ≤ tokensAt ms q
  | .operators _ l e | .suffixes l e =>
    headsAt (walkExpr e) q ≤ headsAt (walkExpr l) q + tokensAt ms q
  | .fields fs => headsAt (walkFields fs) q ≤ tokensAt ms q
  | .field f => headsAt (walkFields [f]) q ≤ tokensAt ms q

/-- **Every part of a program has its heads at its own tokens.** -/
theorem Reads.heads {item : Item} (h : Reads item ts ms next) (q : Pos) : item.Headed ms q := by
  induction h with
  | «if» _ _ _ _ _ ih₁ ih₂ ih₃ =>
    simp only [Item.Headed, walkStmt, headsAt_cons_stmt, headsAt_append, tokensAt_plain,
      tokensAt_append] at *
    rw [walkClauses_cons, headsAt_append]
    omega
  | elsesCons _ _ _ ih₁ ih₂ =>
    simp only [Item.Headed, tokensAt_plain, tokensAt_append] at *
    rw [walkClauses_cons, headsAt_append]
    omega
  | fieldsCons _ _ _ _ ih₁ ih₂ =>
    simp only [Item.Headed, tokensAt_plain, tokensAt_append] at *
    rw [walkFields_cons, headsAt_append]
    omega
  | numericFor _ hv _ _ _ _ _ _ _ _ ih₁ ih₂ ih₃ ih₄ =>
    simp [Item.Headed, walkStmt, hv.2] at *
    omega
  | genericFor _ hns _ _ _ _ _ ih₁ ih₂ =>
    have hnames := hns.sited.bareNames q
    simp [Item.Headed, walkStmt] at *
    omega
  | functionStat _ hv hp _ ih =>
    have hpath := hp.heads q
    simp [Item.Headed, walkStmt, walkExpr, Expr.head?, Expr.pos, hv.2] at *
    omega
  | localFunction _ _ hv _ ih =>
    simp [Item.Headed, walkStmt, hv.2] at *
    omega
  | «local» _ hxs _ ih =>
    have hnames := hxs.sited.names q
    simp only [Item.Headed, walkStmt, headsAt_cons_stmt, headsAt_append, headsAt_declared,
      tokensAt_plain, tokensAt_append] at *
    omega
  | func _ hps _ _ _ ih =>
    have hnames := hps.sited.bareNames q
    simp [Item.Headed, walkFunc] at *
    omega
  | name hv _ ih =>
    simp [Item.Headed, walkExpr, Expr.head?, Expr.pos, hv.2] at *
    omega
  | _ =>
    simp [Item.Headed, walkBlock, walkBlock?, walkStmts, walkStmt, walkClauses, walkExprs, walkExpr?,
      walkFields, walkExpr, Expr.head?, Expr.pos] at *
    try omega

end

/-- **No two nodes of a tree have one head.** -/
theorem parse_heads_nodup {source uri : Text} {c : Chunk} (h : parse source uri = .ok c) :
    (headsIn c.walk).Nodup := by
  obtain ⟨tokens, ms, next, σ, hlex, hreads, -⟩ := parse_sound h
  refine List.nodup_iff_count_le_one.mpr fun q => ?_
  have hnodup := hlex.nodup_pos
  rw [hreads.tokens, List.map_append] at hnodup
  have hheads : headsAt c.walk q ≤ tokensAt ms q := hreads.heads q
  exact Nat.le_trans hheads (List.nodup_iff_count_le_one.mp hnodup.of_append_left q)

/-! ## 3. Along the walk -/

/-- The names that a node declares. -/
def Node.introduces : Node → List Name
  | .stmt (.local _ ns _ _) => ns
  | .stmt (.numericFor _ v _ _ _ _) => [v]
  | .stmt (.genericFor _ ns _ _) => ns
  | .stmt (.localFunction _ n _) => [n]
  | .func f => f.params
  | _ => []

/-- The name that a node is where it is declared. -/
def Node.declared? : Node → Option Name
  | .declared n => some n
  | _ => none

/-- The nodes of the part of a tree that begins with a node, itself first. -/
def Node.below : Node → List Node
  | .chunk c => c.walk
  | .block b => walkBlock b
  | .stmt s => walkStmt s
  | .clause c => walkClauses [c]
  | .expr e => walkExpr e
  | .field f => walkFields [f]
  | .func f => walkFunc f
  | .declared n => [.declared n]

/-- A property of nodes in a row that is built up along a walk: of parts after each other, and of a node,
the names that it declares, and its parts. -/
structure Walked (P : List Node → Prop) : Prop where
  nil : P []
  append : ∀ {ns ms : List Node}, P ns → P ms → P (ns ++ ms)
  node : ∀ {nd : Node} {ns : List Node}, nd.declared? = none →
    nd.below = nd :: (nd.introduces.map .declared ++ ns) → P ns →
      P (nd :: (nd.introduces.map .declared ++ ns))

section
variable {P : List Node → Prop} (h : Walked P)
include h

mutual

/-- What is kept along the walk holds of the walk of an expression. -/
theorem Walked.expr (e : Expr) : P (walkExpr e) := by
  rw [walkExpr.eq_def]
  refine h.node rfl (walkExpr.eq_def e) ?_
  cases e with
  | function _ f => exact Walked.func f
  | table _ fs => exact Walked.fields fs
  | binary _ _ l r => exact h.append (Walked.expr l) (Walked.expr r)
  | unary _ _ x => exact Walked.expr x
  | paren _ x => exact Walked.expr x
  | index _ o k => exact h.append (Walked.expr o) (Walked.expr k)
  | call _ f as => exact h.append (Walked.expr f) (Walked.exprs as)
  | methodCall _ o _ as => exact h.append (Walked.expr o) (Walked.exprs as)
  | _ => exact h.nil

theorem Walked.exprs : ∀ es : List Expr, P (walkExprs es)
  | [] => h.nil
  | e :: es => h.append (Walked.expr e) (Walked.exprs es)

theorem Walked.expr? : ∀ e : Option Expr, P (walkExpr? e)
  | none => h.nil
  | some e => Walked.expr e

theorem Walked.fields : ∀ fs : List TableField, P (walkFields fs)
  | [] => h.nil
  | .mk p k v :: fs => by
    have hparts := h.append (h.append (Walked.expr? k) (Walked.expr v)) h.nil
    have hfield : P (walkFields [.mk p k v]) := h.node rfl rfl hparts
    rw [walkFields_cons]
    exact h.append hfield (Walked.fields fs)

/-- A function stands before its parameters and its body. -/
theorem Walked.func : ∀ f : FuncBody, P (walkFunc f)
  | .mk _ _ _ b => h.node rfl rfl (Walked.block b)

/-- A block stands before its statements. -/
theorem Walked.block : ∀ b : Block, P (walkBlock b)
  | .mk _ ss => h.node rfl rfl (Walked.stmts ss)

theorem Walked.block? : ∀ b : Option Block, P (walkBlock? b)
  | none => h.nil
  | some b => Walked.block b

theorem Walked.stmts : ∀ ss : List Stmt, P (walkStmts ss)
  | [] => h.nil
  | s :: ss => h.append (Walked.stmt s) (Walked.stmts ss)

theorem Walked.clauses : ∀ cs : List IfClause, P (walkClauses cs)
  | [] => h.nil
  | .mk p c b :: cs => by
    have hparts := h.append (h.append (Walked.expr c) (Walked.block b)) h.nil
    have hclause : P (walkClauses [.mk p c b]) := h.node rfl rfl hparts
    rw [walkClauses_cons]
    exact h.append hclause (Walked.clauses cs)

/-- A statement stands before the names that it declares, and these before its parts. -/
theorem Walked.stmt (s : Stmt) : P (walkStmt s) := by
  cases s with
  | «local» _ _ _ vs => exact h.node rfl rfl (Walked.exprs vs)
  | assign _ ts vs => exact h.node rfl rfl (h.append (Walked.exprs ts) (Walked.exprs vs))
  | call _ e => exact h.node rfl rfl (Walked.expr e)
  | «do» _ b => exact h.node rfl rfl (Walked.block b)
  | «while» _ c b => exact h.node rfl rfl (h.append (Walked.expr c) (Walked.block b))
  | «repeat» _ b c => exact h.node rfl rfl (h.append (Walked.block b) (Walked.expr c))
  | «if» _ cs o => exact h.node rfl rfl (h.append (Walked.clauses cs) (Walked.block? o))
  | numericFor _ _ a b c body =>
    have hbounds := h.append (h.append (Walked.expr a) (Walked.expr b)) (Walked.expr? c)
    exact h.node rfl rfl (h.append hbounds (Walked.block body))
  | genericFor _ ns vs body =>
    have hrest := h.append (Walked.exprs vs) (Walked.block body)
    rw [walkStmt, List.append_assoc]
    exact h.node rfl (by rw [Node.below, walkStmt, List.append_assoc, Node.introduces]) hrest
  | function _ t f _ => exact h.node rfl rfl (h.append (Walked.expr t) (Walked.func f))
  | localFunction _ _ f => exact h.node rfl rfl (Walked.func f)
  | «return» _ vs => exact h.node rfl rfl (Walked.exprs vs)
  | «break» _ | goto _ _ | label _ _ => exact h.node rfl rfl h.nil

end

/-- **What is kept along the walk holds of every chunk.** -/
theorem Walked.chunk (c : Chunk) : P c.walk := h.node rfl rfl (Walked.block h c.body)

end

/-! ## 4. Names where they are declared -/

/-- The names that stand where they are declared are those that the nodes declare, in their order. -/
def DeclaresOwn (ns : List Node) : Prop := ns.filterMap Node.declared? = ns.flatMap Node.introduces

@[simp] theorem filterMap_declared? (ns : List Name) :
    (ns.map Node.declared).filterMap Node.declared? = ns := by
  simp [List.filterMap_map, Function.comp_def, Node.declared?]

@[simp] theorem flatMap_introduces (ns : List Name) :
    (ns.map Node.declared).flatMap Node.introduces = [] := by
  simp [List.flatMap_map, Node.introduces]

/-- In a walk the declared names are those that its nodes declare, in their order. -/
theorem declaresOwn_walked : Walked DeclaresOwn where
  nil := rfl
  append hns hms := by rw [DeclaresOwn, List.filterMap_append, List.flatMap_append, hns, hms]
  node hd _ h := by
    rw [DeclaresOwn, List.filterMap_cons_none hd, List.filterMap_append, filterMap_declared?,
      List.flatMap_cons, List.flatMap_append, flatMap_introduces, List.nil_append, h]

/-- The places of declared names are heads. -/
theorem declared_sublist : ∀ ns : List Node, (ns.filterMap Node.declared?).map (·.pos) <+ headsIn ns
  | [] => .slnil
  | .declared n :: ns => (declared_sublist ns).cons_cons n.pos
  | .expr e :: ns => by
    rw [headsIn, List.filterMap_cons, List.filterMap_cons]
    dsimp only [Node.declared?]
    split
    · exact declared_sublist ns
    · exact (declared_sublist ns).cons _
  | .chunk _ :: ns | .block _ :: ns | .stmt _ :: ns | .clause _ :: ns | .field _ :: ns | .func _ :: ns =>
    declared_sublist ns

/-- No two nodes declare a name at one place. -/
theorem eq_of_introduces {source uri : Text} {c : Chunk} (h : parse source uri = .ok c) {x y : Node}
    (hx : x ∈ c.walk) (hy : y ∈ c.walk) {n m : Name} (hn : n ∈ x.introduces) (hm : m ∈ y.introduces)
    (hpos : n.pos = m.pos) : x = y := by
  have hwalk := declaresOwn_walked.chunk c
  have hnodup := (declared_sublist c.walk).nodup (parse_heads_nodup h)
  rw [hwalk, List.map_flatMap, List.nodup_flatMap] at hnodup
  have : Std.Symm (Function.onFun List.Disjoint fun nd : Node => nd.introduces.map (·.pos)) :=
    ⟨fun _ _ hd _ hx hy => hd hy hx⟩
  by_contra hne
  have hdisjoint := hnodup.2.forall hx hy hne
  exact hdisjoint (List.mem_map_of_mem hn) (hpos ▸ List.mem_map_of_mem hm)

end LuaServer.Lua
