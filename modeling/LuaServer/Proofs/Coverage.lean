/-
# The checker visits every node once

The rules of the checker each go on to the parts of their node, in an order of their own, and a part that a
rule forgot, or went to twice, would be checked never or twice with all that is below it.  There is no such
part.  What the walk of a tree yields and what the checker comes to are the same nodes (`Traversed`), but for
the names where they are declared: these are left to the rule of the node that declares them.  And of the
names that it comes to the checker does not visit those that are stored to.

The nodes of a tree that is read are told apart (`Proofs/Distinct.lean`), so a node is visited once, or it
is one of those names and never visited.

Main result: `parse_visits`.
-/
import LuaServer.Proofs.Distinct
import LuaServer.Proofs.Visits

namespace LuaServer.Lua

open scoped List

/-! ## 1. The nodes that steps come to -/

/-- The node that a step visits. -/
def Event.visited? : Event → Option Node
  | .visit nd => some nd
  | _ => none

/-- The nodes that steps visit. -/
def visitedIn (es : List Event) : List Node := es.filterMap Event.visited?

/-- The nodes that the checker visits in a chunk, in its order. -/
def Chunk.visits (c : Chunk) : List Node := visitedIn c.events

/-- The node that a step comes to: the one that it visits, or the plain name that it stores to. -/
def Event.node : Event → Node
  | .visit nd => nd
  | .store n _ _ | .storeFunction n _ => .expr (.name n)

/-- Steps visit the nodes that they come to, or store to them. -/
theorem node_perm : ∀ es : List Event,
    es.map Event.node ~ visitedIn es ++ (targetsIn es).map fun n => .expr (.name n)
  | [] => .nil
  | .visit nd :: es => (node_perm es).cons nd
  | .store n _ _ :: es | .storeFunction n _ :: es =>
    ((node_perm es).cons (Node.expr (.name n))).trans List.perm_middle.symm

/-- The steps come to the nodes, but for the names where they are declared. -/
def Traversed (ns : List Node) (es : List Event) : Prop :=
  ns.filter (·.declared?.isNone) ~ es.map Event.node

namespace Traversed

variable {nd : Node} {ns ms : List Node} {es fs : List Event}

theorem nil : Traversed [] [] := List.Perm.nil

theorem append (hns : Traversed ns es) (hms : Traversed ms fs) : Traversed (ns ++ ms) (es ++ fs) := by
  rw [Traversed, List.filter_append, List.map_append]
  exact List.Perm.append hns hms

theorem perm (h : Traversed ns es) (hes : es ~ fs) : Traversed ns fs := h.trans (hes.map _)

/-- Names that are declared. -/
theorem names (xs : List Name) (h : Traversed ns es) : Traversed (xs.map .declared ++ ns) es := by
  have hnone : (xs.map Node.declared).filter (·.declared?.isNone) = [] := by
    simp [List.filter_eq_nil_iff, Node.declared?]
  rw [Traversed, List.filter_append, hnone]
  exact h

theorem declared (n : Name) (h : Traversed ns es) : Traversed (.declared n :: ns) es := h.names [n]

/-- A node that is visited between what is below it. -/
theorem visit (h : Traversed ns (es ++ fs)) (hnd : nd.declared? = none) :
    Traversed (nd :: ns) (es ++ .visit nd :: fs) := by
  have hfilter : (nd :: ns).filter (·.declared?.isNone) = nd :: ns.filter (·.declared?.isNone) := by
    simp [hnd]
  have hmiddle : .visit nd :: (es ++ fs) ~ es ++ .visit nd :: fs := List.perm_middle.symm
  rw [Traversed, hfilter]
  exact (List.Perm.cons nd h).trans (hmiddle.map Event.node)

/-- A node that is visited before what is below it. -/
theorem first (h : Traversed ns es) (hnd : nd.declared? = none) : Traversed (nd :: ns) (.visit nd :: es) := by
  have hempty : Traversed ns ([] ++ es) := h
  exact hempty.visit hnd

/-- A node that is visited after what is below it. -/
theorem last (h : Traversed ns es) (hnd : nd.declared? = none) :
    Traversed (nd :: ns) (es ++ [.visit nd]) := by
  have hempty : Traversed ns (es ++ []) := by rwa [List.append_nil]
  exact hempty.visit hnd

end Traversed

/-- Targets are come to like other expressions. -/
theorem node_targetsEvents (vs : List Expr) : ∀ (i : Nat) (ts : List Expr),
    (targetsEvents vs i ts).map Event.node = (exprsEvents ts).map Event.node
  | _, [] => rfl
  | i, t :: ts => by
    have ih := node_targetsEvents vs (i + 1) ts
    cases t <;> simp [targetsEvents, exprsEvents, exprEvents, Event.node, ih]

/-! ## 2. Over the whole tree -/

mutual

theorem walkExpr_traversed (e : Expr) : Traversed (walkExpr e) (exprEvents e) := by
  rw [walkExpr.eq_def, exprEvents.eq_def]
  cases e with
  | function _ f => exact (walkFunc_traversed f).first rfl
  | table _ fs => exact (walkFields_traversed fs).first rfl
  | binary _ _ l r => exact ((walkExpr_traversed l).append (walkExpr_traversed r)).last rfl
  | unary _ _ x => exact (walkExpr_traversed x).last rfl
  | paren _ x => exact (walkExpr_traversed x).first rfl
  | index _ o k => exact ((walkExpr_traversed o).append (walkExpr_traversed k)).first rfl
  | call _ f as => exact ((walkExpr_traversed f).append (walkExprs_traversed as)).last rfl
  | methodCall _ o _ as => exact ((walkExpr_traversed o).append (walkExprs_traversed as)).first rfl
  | _ => exact Traversed.nil.first rfl

theorem walkExprs_traversed : ∀ es : List Expr, Traversed (walkExprs es) (exprsEvents es)
  | [] => .nil
  | e :: es => (walkExpr_traversed e).append (walkExprs_traversed es)

theorem walkExpr?_traversed : ∀ e : Option Expr, Traversed (walkExpr? e) (expr?Events e)
  | none => .nil
  | some e => walkExpr_traversed e

theorem walkFields_traversed : ∀ fs : List TableField, Traversed (walkFields fs) (fieldsEvents fs)
  | [] => .nil
  | .mk _ k v :: fs => (((walkExpr?_traversed k).append (walkExpr_traversed v)).append
      (walkFields_traversed fs)).first rfl

theorem walkFunc_traversed : ∀ f : FuncBody, Traversed (walkFunc f) (funcEvents f)
  | .mk _ ps _ b => ((walkBlock_traversed b).names ps).first rfl

theorem walkBlock_traversed : ∀ b : Block, Traversed (walkBlock b) (blockEvents b)
  | .mk _ ss => (walkStmts_traversed ss).first rfl

theorem walkBlock?_traversed : ∀ b : Option Block, Traversed (walkBlock? b) (block?Events b)
  | none => .nil
  | some b => walkBlock_traversed b

theorem walkStmts_traversed : ∀ ss : List Stmt, Traversed (walkStmts ss) (stmtsEvents ss)
  | [] => .nil
  | s :: ss => (walkStmt_traversed s).append (walkStmts_traversed ss)

theorem walkClauses_traversed : ∀ cs : List IfClause, Traversed (walkClauses cs) (clausesEvents cs)
  | [] => .nil
  | .mk _ c b :: cs => (((walkExpr_traversed c).append (walkBlock_traversed b)).append
      (walkClauses_traversed cs)).first rfl

theorem walkStmt_traversed (s : Stmt) : Traversed (walkStmt s) (stmtEvents s) := by
  rw [walkStmt.eq_def]
  cases s with
  | «local» _ ns _ vs =>
    rw [stmtEvents]
    exact ((walkExprs_traversed vs).names ns).last rfl
  | assign _ ts vs =>
    have htargets : Traversed (walkExprs ts) (targetsEvents vs 0 ts) := by
      rw [Traversed, node_targetsEvents]
      exact walkExprs_traversed ts
    rw [stmtEvents]
    exact ((htargets.append (walkExprs_traversed vs)).perm List.perm_append_comm).first rfl
  | call _ e =>
    rw [stmtEvents]
    exact (walkExpr_traversed e).first rfl
  | «do» _ b =>
    rw [stmtEvents]
    exact (walkBlock_traversed b).first rfl
  | «while» _ c b =>
    rw [stmtEvents]
    exact ((walkExpr_traversed c).append (walkBlock_traversed b)).first rfl
  | «repeat» _ b c =>
    rw [stmtEvents]
    exact ((walkBlock_traversed b).append (walkExpr_traversed c)).first rfl
  | «if» _ cs o =>
    rw [stmtEvents]
    exact ((walkClauses_traversed cs).append (walkBlock?_traversed o)).first rfl
  | numericFor _ v a b c body =>
    have hbounds := ((walkExpr_traversed a).append (walkExpr_traversed b)).append (walkExpr?_traversed c)
    rw [stmtEvents]
    exact ((hbounds.append (walkBlock_traversed body)).declared v).visit rfl
  | genericFor _ ns vs body =>
    have hrest := (walkExprs_traversed vs).append (walkBlock_traversed body)
    dsimp only
    rw [stmtEvents, List.append_assoc]
    exact (hrest.names ns).visit rfl
  | function _ t f _ =>
    have hparts := (walkExpr_traversed t).append (walkFunc_traversed f)
    -- the name of the function is stored to if it is plain, and visited otherwise
    cases t <;> exact hparts.first rfl
  | localFunction _ n f =>
    rw [stmtEvents]
    exact ((walkFunc_traversed f).declared n).first rfl
  | «return» _ vs =>
    rw [stmtEvents]
    exact (walkExprs_traversed vs).first rfl
  | _ => exact Traversed.nil.first rfl

end

theorem Chunk.traversed (c : Chunk) : Traversed c.walk c.events := (walkBlock_traversed c.body).first rfl

/-! ## 3. Whole documents -/

/-- The nodes that the checker passes over: the names where they are declared, and the plain names that
assignments and function statements store to. -/
inductive Chunk.PassedOver (c : Chunk) : Node → Prop
  | declaration {nd : Node} {n : Name} : nd ∈ c.walk → n ∈ nd.introduces → c.PassedOver (.declared n)
  | target {n : Name} : n ∈ c.targets → c.PassedOver (.expr (.name n))

/-- A name stands where it is declared exactly if a node declares it. -/
theorem Chunk.declared_mem_walk (c : Chunk) (n : Name) :
    .declared n ∈ c.walk ↔ ∃ nd ∈ c.walk, n ∈ nd.introduces := by
  have hwalk := declaresOwn_walked.chunk c
  have hdeclared : n ∈ c.walk.filterMap Node.declared? ↔ .declared n ∈ c.walk := by
    rw [List.mem_filterMap]
    constructor
    · rintro ⟨nd, hnd, hn⟩
      cases nd with
      | declared m =>
        cases hn
        exact hnd
      | _ => cases hn
    · exact fun hn => ⟨_, hn, rfl⟩
  rw [← hdeclared, hwalk, List.mem_flatMap]

/-- The nodes of a chunk that do not stand where they are declared are visited or stored to. -/
theorem Chunk.visits_targets_perm (c : Chunk) :
    c.walk.filter (·.declared?.isNone) ~ c.visits ++ c.targets.map fun n => .expr (.name n) := by
  obtain ⟨used, entered, haccounts⟩ := c.told
  calc c.walk.filter (·.declared?.isNone)
    _ ~ c.events.map Event.node := c.traversed
    _ ~ c.visits ++ (targetsIn c.events).map fun n => .expr (.name n) := node_perm c.events
    _ ~ c.visits ++ c.targets.map fun n => .expr (.name n) := (haccounts.targets.map _).append_left _

/-- **The checker visits every node once.**  In a tree that is read no two nodes are equal, and the checker
visits each of them once, but for the names where they are declared and the plain names that are stored to,
of which it visits none. -/
theorem parse_visits {source uri : Text} {c : Chunk} (h : parse source uri = .ok c) :
    c.walk.Nodup ∧ c.visits.Nodup ∧ ∀ nd, nd ∈ c.visits ↔ nd ∈ c.walk ∧ ¬c.PassedOver nd := by
  have hwalk := parse_walk_nodup h
  have hperm := c.visits_targets_perm
  obtain ⟨hvisits, -, hapart⟩ := List.nodup_append.mp (hperm.nodup_iff.mp (hwalk.filter _))
  refine ⟨hwalk, hvisits, fun nd => ?_⟩
  have hmem := hperm.mem_iff (a := nd)
  rw [List.mem_filter, List.mem_append] at hmem
  constructor
  · intro hnd
    obtain ⟨hin, hnone⟩ := hmem.mpr (.inl hnd)
    refine ⟨hin, fun hpassed => ?_⟩
    cases hpassed with
    | declaration => cases hnone
    | target hn => exact hapart _ hnd _ (List.mem_map_of_mem hn) rfl
  · rintro ⟨hin, hpassed⟩
    have hnone : nd.declared?.isNone := by
      cases nd with
      | declared n =>
        obtain ⟨x, hx, hn⟩ := (c.declared_mem_walk n).mp hin
        exact absurd (.declaration hx hn) hpassed
      | _ => rfl
    refine (hmem.mp ⟨hin, hnone⟩).resolve_right fun htarget => ?_
    obtain ⟨n, hn, rfl⟩ := List.mem_map.mp htarget
    exact hpassed (.target hn)

/-- Of the 14 nodes of `local a = 1 a, b.c = a + 2, a` the checker visits all but the declared `a` and the
`a` that is assigned. -/
theorem parse_visits_assigned :
    ∃ c, parse (text "local a = 1 a, b.c = a + 2, a") [] = .ok c ∧
      (c.walk.length, c.visits.length, c.targets.length) = (14, 12, 1) ∧
      c.walk.Nodup ∧ c.visits.Nodup ∧ ∀ nd, nd ∈ c.visits ↔ nd ∈ c.walk ∧ ¬c.PassedOver nd := by
  have hrun : (parse (text "local a = 1 a, b.c = a + 2, a") []).toOption.map
      (fun c => (c.walk.length, c.visits.length, c.targets.length)) = some (14, 12, 1) := by
    decide +kernel
  cases h : parse (text "local a = 1 a, b.c = a + 2, a") [] with
  | error e =>
    rw [h] at hrun
    cases hrun
  | ok c =>
    rw [h] at hrun
    exact ⟨c, rfl, Option.some.inj hrun, parse_visits h⟩

end LuaServer.Lua
