/-
# What the checker looks at

The pass of `Proofs/Scoping.lean` tells what each name of a tree means.  The checker goes through the
tree in an order of its own: it visits the values of a `local` before its names, those of an assignment
before the targets, and an operation after its operands.  Of the names it visits those that are read.  It
does not visit a plain target, which an assignment or a function statement stores to, nor a name where it
is declared; and of the declarations it looks at all that are written, but for the variables of loops.

`Told` says that nothing is lost or added on the way, and `scopeBlock_told` that it holds of each tree.
-/
import LuaServer.Proofs.Counts

namespace LuaServer.Lua

open scoped List

/-! ## 1. Targets and declarations -/

/-- The plain names that a node stores to: the targets of an assignment, the name of a function
statement. -/
def Node.targets : Node → List Name
  | .stmt (.assign _ ts _) => plainNames ts
  | .stmt (.function _ t _ _) => plainNames [t]
  | _ => []

/-- The plain names that nodes store to. -/
def targetsOf (ns : List Node) : List Name := ns.flatMap Node.targets

/-- The plain names that the assignments and the function statements of a chunk store to. -/
def Chunk.targets (c : Chunk) : List Name := targetsOf c.walk

@[simp] theorem targetsOf_nil : targetsOf [] = [] := rfl

@[simp] theorem targetsOf_append (a b : List Node) : targetsOf (a ++ b) = targetsOf a ++ targetsOf b :=
  List.flatMap_append

@[simp] theorem targetsOf_cons (n : Node) (ns : List Node) :
    targetsOf (n :: ns) = n.targets ++ targetsOf ns := rfl

@[simp] theorem targetsOf_declared (ns : List Name) : targetsOf (ns.map .declared) = [] := by
  simp [targetsOf, Node.targets]

/-- The name that a node is, other than where it is declared. -/
def Node.used? : Node → Option Name
  | .expr e => e.name?
  | _ => none

/-- The names among nodes that are not declared there. -/
def usedIn (ns : List Node) : List Name := ns.filterMap Node.used?

@[simp] theorem usedIn_nil : usedIn [] = [] := rfl

@[simp] theorem usedIn_append (a b : List Node) : usedIn (a ++ b) = usedIn a ++ usedIn b :=
  List.filterMap_append

@[simp] theorem usedIn_cons (n : Node) (ns : List Node) :
    usedIn (n :: ns) = n.used?.toList ++ usedIn ns := by
  cases h : n.used? <;> simp [usedIn, h]

@[simp] theorem usedIn_declared (ns : List Name) : usedIn (ns.map .declared) = [] := by
  simp [usedIn, Node.used?]

@[simp] theorem used?_chunk (c : Chunk) : (Node.chunk c).used? = none := rfl
@[simp] theorem used?_expr (e : Expr) : (Node.expr e).used? = e.name? := rfl
@[simp] theorem used?_block (b : Block) : (Node.block b).used? = none := rfl
@[simp] theorem used?_stmt (s : Stmt) : (Node.stmt s).used? = none := rfl
@[simp] theorem used?_clause (c : IfClause) : (Node.clause c).used? = none := rfl
@[simp] theorem used?_field (f : TableField) : (Node.field f).used? = none := rfl
@[simp] theorem used?_func (f : FuncBody) : (Node.func f).used? = none := rfl
@[simp] theorem used?_declared (n : Name) : (Node.declared n).used? = none := rfl

/-- The names that steps declare. -/
def declaresIn (es : List Event) : List Name := es.flatMap Event.declares

@[simp] theorem declaresIn_nil : declaresIn [] = [] := rfl

@[simp] theorem declaresIn_append (a b : List Event) :
    declaresIn (a ++ b) = declaresIn a ++ declaresIn b :=
  List.flatMap_append

@[simp] theorem declaresIn_cons (ev : Event) (es : List Event) :
    declaresIn (ev :: es) = ev.declares ++ declaresIn es := rfl

/-- Targets declare what their parts do. -/
theorem targetsEvents_declares (vs : List Expr) : ∀ (i : Nat) (ts : List Expr),
    declaresIn (targetsEvents vs i ts) = declaresIn (exprsEvents ts)
  | _, [] => rfl
  | i, t :: ts => by
    have ih := targetsEvents_declares vs (i + 1) ts
    cases t <;> simp [targetsEvents, exprsEvents, exprEvents, ih, Event.declares]

/-! ## 2. What is told of a part of a tree -/

/-- A name that is declared, with its declaration and the one that this hides. -/
abbrev Entry := Name × Decl × Option Decl

/-- The declaration of an entry is that of its name. -/
structure Entry.Written (x : Entry) : Prop where
  site : x.2.1.site = some x.1.pos
  name : x.2.1.name = x.1.name

/-- What the pass tells of a part of a tree with the nodes `ns` is what its events `es` look at.  The
names are those that are used and those that are declared.  What is used stands among the nodes as an
expression; it is read or stored to, and stored to are the plain targets.  What is declared has a place of
its own, unless it is an implicit `self`, which is a parameter; what has an attribute was declared by a
`local`; and the events declare all of it but the variables of loops. -/
structure Accounts (r : Scoping) (ns : List Node) (es : List Event) (used : List (Name × Target))
    (entered : List Entry) : Prop where
  uses : r.uses ~ used ++ entered.map fun x => (x.1, .local x.2.1)
  seen : used.map (·.1) ~ readsIn es ++ targetsIn es
  shown : used.map (·.1) ~ usedIn ns
  targets : targetsIn es ~ targetsOf ns
  decls : r.decls.filter (·.1.site.isSome) ~ entered.map (·.2)
  declares : declaresIn es ~ (entered.filter (·.2.1.kind ≠ .loop)).map (·.1)
  written : ∀ x ∈ entered, x.Written
  kinds : ∀ x ∈ r.decls, x.1.kind ≠ .global
  unplaced : ∀ x ∈ r.decls, x.1.site = none → x.1.kind = .param
  constants : ∀ x ∈ r.decls, x.1.attrib ≠ none → x.1.kind = .local

/-- What a list declares besides what its header does. -/
theorem Scoping.mem_declare {env : Env} {list : Pos} {isMethod : Bool} {kind : BindingKind}
    {xs : List (Name × Option Attrib)} {header : Scoping} {x : Decl × Option Decl}
    (hx : x ∈ (Scoping.declare env list (implicitSelf isMethod list) kind xs header).decls) :
    x ∈ header.decls ∨ x.1 = .self list ∨ ∃ y ∈ xs, x.1 = .ofName kind list y := by
  refine (List.mem_append.mp hx).imp_right fun hx => ?_
  obtain ⟨d, hd, rfl⟩ := List.mem_map.mp hx
  rcases List.mem_append.mp hd with hd | hd
  · cases isMethod with
    | false => cases hd
    | true => exact .inl (List.mem_singleton.mp hd)
  · obtain ⟨y, hy, rfl⟩ := List.mem_map.mp hd
    exact .inr ⟨y, hy, rfl⟩

/-- There are names used and names declared that account for what is told. -/
def Told (r : Scoping) (ns : List Node) (es : List Event) : Prop :=
  ∃ used entered, Accounts r ns es used entered

/-- Two parts, each with two lists, make up the same lists in either order. -/
theorem regroup {α : Type} (a b c d : List α) : (a ++ b) ++ (c ++ d) ~ (a ++ c) ++ (b ++ d) := by
  simpa only [List.append_assoc] using (List.perm_append_comm_assoc b c d).append_left a

namespace Told

variable {r r₁ r₂ header body : Scoping} {ns ns' ns₁ ns₂ : List Node} {es es' es₁ es₂ : List Event}

theorem none : Told {} [] [] :=
  ⟨[], [], .nil, .nil, .nil, .nil, .nil, .nil, by simp, by simp, by simp, by simp⟩

/-- One part after another. -/
theorem append (h₁ : Told r₁ ns₁ es₁) (h₂ : Told r₂ ns₂ es₂) :
    Told (r₁ ++ r₂) (ns₁ ++ ns₂) (es₁ ++ es₂) := by
  obtain ⟨used₁, entered₁, h₁⟩ := h₁
  obtain ⟨used₂, entered₂, h₂⟩ := h₂
  refine ⟨used₁ ++ used₂, entered₁ ++ entered₂, ?_, ?_, ?_, ?_, ?_, ?_, ?_, ?_, ?_, ?_⟩
  · rw [List.map_append]
    exact (h₁.uses.append h₂.uses).trans (regroup _ _ _ _)
  · rw [List.map_append, readsIn_append, targetsIn_append]
    exact (h₁.seen.append h₂.seen).trans (regroup _ _ _ _)
  · rw [List.map_append, usedIn_append]
    exact h₁.shown.append h₂.shown
  · rw [targetsIn_append, targetsOf_append]
    exact h₁.targets.append h₂.targets
  · rw [Scoping.decls_append, List.filter_append, List.map_append]
    exact h₁.decls.append h₂.decls
  · rw [declaresIn_append, List.filter_append, List.map_append]
    exact h₁.declares.append h₂.declares
  · intro x hx
    exact (List.mem_append.mp hx).elim (h₁.written x) (h₂.written x)
  · intro x hx
    exact (List.mem_append.mp hx).elim (h₁.kinds x) (h₂.kinds x)
  · intro x hx
    exact (List.mem_append.mp hx).elim (h₁.unplaced x) (h₂.unplaced x)
  · intro x hx
    exact (List.mem_append.mp hx).elim (h₁.constants x) (h₂.constants x)

/-- Nodes and events that store, read and declare the same. -/
theorem congr (h : Told r ns es) (hsame : targetsOf ns' = targetsOf ns ∧ usedIn ns' = usedIn ns ∧
    readsIn es' = readsIn es ∧ targetsIn es' = targetsIn es ∧ declaresIn es' = declaresIn es) :
    Told r ns' es' := by
  obtain ⟨hnodes, hnames, hreads, htargets, hdeclares⟩ := hsame
  obtain ⟨used, entered, h⟩ := h
  refine ⟨used, entered, h.uses, ?_, ?_, ?_, h.decls, hdeclares ▸ h.declares, h.written, h.kinds,
    h.unplaced, h.constants⟩
  · rw [hreads, htargets]
    exact h.seen
  · rw [hnames]
    exact h.shown
  · rw [hnodes, htargets]
    exact h.targets

/-- The order of the events does not matter. -/
theorem perm (h : Told r ns es) (hes : es' ~ es) : Told r ns es' := by
  obtain ⟨used, entered, h⟩ := h
  have htargets : targetsIn es' ~ targetsIn es := hes.filterMap _
  refine ⟨used, entered, h.uses, ?_, h.shown, htargets.trans h.targets, h.decls, ?_, h.written, h.kinds,
    h.unplaced, h.constants⟩
  · exact h.seen.trans ((hes.filterMap _).append htargets).symm
  · exact (hes.flatMap_right _).trans h.declares

/-- Targets: the plain names among them are stored to instead of read. -/
theorem stored {ts : List Expr} (h : Told r (walkExprs ts) (exprsEvents ts)) (vs : List Expr)
    (s : Stmt) (hs : (Node.stmt s).targets = plainNames ts) :
    Told r (.stmt s :: walkExprs ts) (targetsEvents vs 0 ts) := by
  obtain ⟨used, entered, h⟩ := h
  obtain ⟨hreads, htargets⟩ := targetsEvents_names vs 0 ts
  have hdeclares := targetsEvents_declares vs 0 ts
  refine ⟨used, entered, h.uses, ?_, by simpa using h.shown, ?_, h.decls, hdeclares ▸ h.declares, h.written,
    h.kinds, h.unplaced, h.constants⟩
  · calc used.map (·.1)
      _ ~ readsIn (exprsEvents ts) ++ targetsIn (exprsEvents ts) := h.seen
      _ ~ (readsIn (targetsEvents vs 0 ts) ++ plainNames ts) ++ targetsIn (exprsEvents ts) :=
        hreads.append_right _
      _ ~ readsIn (targetsEvents vs 0 ts) ++ (targetsIn (exprsEvents ts) ++ plainNames ts) := by
        rw [List.append_assoc]
        exact List.perm_append_comm.append_left _
      _ ~ readsIn (targetsEvents vs 0 ts) ++ targetsIn (targetsEvents vs 0 ts) :=
        htargets.symm.append_left _
  · calc targetsIn (targetsEvents vs 0 ts)
      _ ~ targetsIn (exprsEvents ts) ++ plainNames ts := htargets
      _ ~ targetsOf (walkExprs ts) ++ plainNames ts := h.targets.append_right _
      _ ~ plainNames ts ++ targetsOf (walkExprs ts) := List.perm_append_comm
      _ = targetsOf (.stmt s :: walkExprs ts) := by rw [targetsOf_cons, hs]

/-- A name that is read. -/
theorem use (env : Env) (n : Name) :
    Told { uses := [(n, env.target n.name)] } [.expr (.name n)] [.visit (.expr (.name n))] :=
  ⟨[(n, env.target n.name)], [], .rfl, .rfl, .rfl, .nil, .nil, .nil, by simp, by simp, by simp, by simp⟩

/-- A list of declarations after its header.  The step at its place declares the names, unless they are
the variables of a loop. -/
theorem declare (h : Told header ns es) (env : Env) (list : Pos) (isMethod : Bool) (kind : BindingKind)
    (xs : List (Name × Option Attrib)) (hkind : kind ≠ .global)
    (hconstants : kind = .local ∨ ∀ x ∈ xs, x.2 = .none) (ev : Event)
    (hread : ev.read?.toList = []) (htarget : ev.target?.toList = [])
    (hdeclares : ev.declares = if kind = .loop then [] else xs.map (·.1)) :
    Told (.declare env list (implicitSelf isMethod list) kind xs header) ns (es ++ [ev]) := by
  obtain ⟨used, entered, h⟩ := h
  -- what is declared here
  obtain ⟨new, hnew⟩ : ∃ new : List Entry, new
      = xs.map fun x => (x.1, .ofName kind list x, env.lookup? x.1.name) := ⟨_, rfl⟩
  refine ⟨used, entered ++ new, ?_, ?_, h.shown, ?_, ?_, ?_, ?_, ?_, ?_, ?_⟩
  · have huses : new.map (fun x => (x.1, Target.local x.2.1))
        = xs.map fun x => (x.1, .local (.ofName kind list x)) := by
      simp [hnew]
    rw [List.map_append, huses, ← List.append_assoc]
    exact List.perm_append_comm.trans (h.uses.append_right _)
  · simpa [hread, htarget] using h.seen
  · simpa [htarget] using h.targets
  · have hself : ((implicitSelf isMethod list).map fun d => (d, env.lookup? d.name)).filter
        (·.1.site.isSome) = [] := by
      cases isMethod <;> rfl
    have hdecls : ((xs.map (Decl.ofName kind list)).map fun d => (d, env.lookup? d.name)).filter
        (·.1.site.isSome) = new.map (·.2) := by
      simp [hnew, Decl.ofName, Function.comp_def, List.filter_map]
    rw [Scoping.declare, List.map_append, List.filter_append, List.filter_append, hself, hdecls,
      List.nil_append, List.map_append]
    exact h.decls.append_right _
  · have hnames : (new.filter (·.2.1.kind ≠ .loop)).map (·.1)
        = if kind = .loop then [] else xs.map (·.1) := by
      by_cases hk : kind = .loop <;>
        simp [hnew, Decl.ofName, hk, List.filter_map, Function.comp_def]
    rw [declaresIn_append, declaresIn_cons, declaresIn_nil, List.append_nil, hdeclares,
      List.filter_append, List.map_append, hnames]
    exact h.declares.append_right _
  · intro x hx
    rcases List.mem_append.mp hx with hx | hx
    · exact h.written x hx
    · subst hnew
      obtain ⟨y, -, rfl⟩ := List.mem_map.mp hx
      exact ⟨rfl, rfl⟩
  · intro x hx
    rcases Scoping.mem_declare hx with hx | hx | ⟨y, -, hx⟩
    · exact h.kinds x hx
    · rw [hx]
      simp [Decl.self]
    · exact hx ▸ hkind
  · intro x hx hsite
    rcases Scoping.mem_declare hx with hx | hx | ⟨y, -, hx⟩
    · exact h.unplaced x hx hsite
    · rw [hx]
      rfl
    · rw [hx] at hsite
      cases hsite
  · intro x hx hattrib
    rcases Scoping.mem_declare hx with hx | hx | ⟨y, hy, hx⟩
    · exact h.constants x hx hattrib
    · rw [hx] at hattrib
      exact absurd rfl hattrib
    · rw [hx] at hattrib ⊢
      exact hconstants.resolve_right fun hnone => hattrib (hnone y hy)

end Told

@[simp] theorem targets_chunk (c : Chunk) : (Node.chunk c).targets = [] := rfl
@[simp] theorem targets_expr (e : Expr) : (Node.expr e).targets = [] := rfl
@[simp] theorem targets_block (b : Block) : (Node.block b).targets = [] := rfl
@[simp] theorem targets_clause (c : IfClause) : (Node.clause c).targets = [] := rfl
@[simp] theorem targets_field (f : TableField) : (Node.field f).targets = [] := rfl
@[simp] theorem targets_func (f : FuncBody) : (Node.func f).targets = [] := rfl
@[simp] theorem targets_declared (n : Name) : (Node.declared n).targets = [] := rfl

@[simp] theorem declares_chunk (c : Chunk) : (Event.visit (.chunk c)).declares = [] := rfl
@[simp] theorem declares_expr (e : Expr) : (Event.visit (.expr e)).declares = [] := rfl
@[simp] theorem declares_block (b : Block) : (Event.visit (.block b)).declares = [] := rfl
@[simp] theorem declares_clause (c : IfClause) : (Event.visit (.clause c)).declares = [] := rfl
@[simp] theorem declares_field (f : TableField) : (Event.visit (.field f)).declares = [] := rfl

/-! ## 3. Over the whole tree -/

mutual

/-- The names that an expression uses are those that the checker visits in it. -/
theorem scopeExpr_told (env : Env) (e : Expr) : Told (scopeExpr env e) (walkExpr e) (exprEvents e) := by
  cases e with
  | name n => exact .use env n
  | function _ f =>
    exact (scopeFunc_told env false f).congr (by simp [walkExpr, exprEvents, Expr.name?])
  | table _ fs => exact (scopeFields_told env fs).congr (by simp [walkExpr, exprEvents, Expr.name?])
  | binary _ _ l r =>
    exact ((scopeExpr_told env l).append (scopeExpr_told env r)).congr
      (by simp [walkExpr, exprEvents, Expr.name?])
  | unary _ _ e => exact (scopeExpr_told env e).congr (by simp [walkExpr, exprEvents, Expr.name?])
  | paren _ e => exact (scopeExpr_told env e).congr (by simp [walkExpr, exprEvents, Expr.name?])
  | index _ o k =>
    exact ((scopeExpr_told env o).append (scopeExpr_told env k)).congr
      (by simp [walkExpr, exprEvents, Expr.name?])
  | call _ f as =>
    exact ((scopeExpr_told env f).append (scopeExprs_told env as)).congr
      (by simp [walkExpr, exprEvents, Expr.name?])
  | methodCall _ o _ as =>
    exact ((scopeExpr_told env o).append (scopeExprs_told env as)).congr
      (by simp [walkExpr, exprEvents, Expr.name?])
  | _ => exact Told.congr .none (by simp [walkExpr, exprEvents, Expr.name?])

theorem scopeExprs_told (env : Env) (es : List Expr) :
    Told (scopeExprs env es) (walkExprs es) (exprsEvents es) := by
  cases es with
  | nil => exact .none
  | cons e es =>
    exact ((scopeExpr_told env e).append (scopeExprs_told env es)).congr
      (by simp [walkExprs, exprsEvents])

theorem scopeExpr?_told (env : Env) (e : Option Expr) :
    Told (scopeExpr? env e) (walkExpr? e) (expr?Events e) := by
  cases e with
  | none => exact .none
  | some e => exact scopeExpr_told env e

theorem scopeFields_told (env : Env) (fs : List TableField) :
    Told (scopeFields env fs) (walkFields fs) (fieldsEvents fs) := by
  cases fs with
  | nil => exact .none
  | cons f fs =>
    obtain ⟨p, k, v⟩ := f
    have hfield := (scopeExpr?_told env k).append (scopeExpr_told env v)
    exact (hfield.append (scopeFields_told env fs)).congr (by simp [walkFields, fieldsEvents])

/-- The parameters of a function are looked at, but for the implicit one, which nothing writes. -/
theorem scopeFunc_told (env : Env) (isMethod : Bool) (f : FuncBody) :
    Told (scopeFunc env isMethod f) (walkFunc f) (funcEvents f) := by
  obtain ⟨p, ps, v, b⟩ := f
  have hparams := Told.none.declare env p isMethod .param (bare ps) nofun (.inr (by simp [bare]))
    (.visit (.func (.mk p ps v b))) rfl rfl (by simp [Event.declares, FuncBody.params])
  exact (hparams.append (scopeBlock_told _ b)).congr (by simp [walkFunc, funcEvents])

/-- A block is looked at before its statements. -/
theorem scopeBlock_told (env : Env) (b : Block) :
    Told (scopeBlock env b) (walkBlock b) (blockEvents b) := by
  obtain ⟨p, ss⟩ := b
  exact (scopeStmts_told env ss).congr (by simp [walkBlock, blockEvents])

theorem scopeBlock?_told (env : Env) (b : Option Block) :
    Told (scopeBlock? env b) (walkBlock? b) (block?Events b) := by
  cases b with
  | none => exact .none
  | some b => exact scopeBlock_told env b

/-- The statements are looked at in their order. -/
theorem scopeStmts_told (env : Env) (ss : List Stmt) :
    Told (scopeStmts env ss) (walkStmts ss) (stmtsEvents ss) := by
  cases ss with
  | nil => exact .none
  | cons s ss =>
    exact ((scopeStmt_told env s).append (scopeStmts_told _ ss)).congr
      (by simp [walkStmts, stmtsEvents])

theorem scopeClauses_told (env : Env) (cs : List IfClause) :
    Told (scopeClauses env cs) (walkClauses cs) (clausesEvents cs) := by
  cases cs with
  | nil => exact .none
  | cons c cs =>
    obtain ⟨p, e, b⟩ := c
    have hclause := (scopeExpr_told env e).append (scopeBlock_told env b)
    exact (hclause.append (scopeClauses_told env cs)).congr (by simp [walkClauses, clausesEvents])

/-- A statement, in which the checker goes by another order than the pass. -/
theorem scopeStmt_told (env : Env) (s : Stmt) : Told (scopeStmt env s) (walkStmt s) (stmtEvents s) := by
  cases s with
  | «local» p ns as vs =>
    have hlocal := (scopeExprs_told env vs).declare env p false .local (withAttribs ns as) nofun (.inl rfl)
      (.visit (.stmt (.local p ns as vs))) rfl rfl (by simp [Event.declares])
    exact hlocal.congr (by simp [walkStmt, stmtEvents, Node.targets])
  | assign p ts vs =>
    have htargets := (scopeExprs_told env ts).stored vs (.assign p ts vs) rfl
    have hassign := (htargets.append (scopeExprs_told env vs)).perm List.perm_append_comm
    exact hassign.congr (by simp [walkStmt, stmtEvents, Event.declares])
  | call _ e =>
    exact (scopeExpr_told env e).congr
      (by simp [walkStmt, stmtEvents, Node.targets, Event.declares])
  | «do» _ b =>
    exact (scopeBlock_told env b).congr
      (by simp [walkStmt, stmtEvents, Node.targets, Event.declares])
  | «while» _ c b =>
    exact ((scopeExpr_told env c).append (scopeBlock_told env b)).congr
      (by simp [walkStmt, stmtEvents, Node.targets, Event.declares])
  | «repeat» _ b c =>
    obtain ⟨p, ss⟩ := b
    exact ((scopeStmts_told env ss).append (scopeExpr_told _ c)).congr
      (by simp [walkStmt, walkBlock, stmtEvents, blockEvents, Node.targets, Event.declares])
  | «if» _ cs o =>
    exact ((scopeClauses_told env cs).append (scopeBlock?_told env o)).congr
      (by simp [walkStmt, stmtEvents, Node.targets, Event.declares])
  | numericFor p v a b c body =>
    have hheader := (scopeExpr_told env a).append
      ((scopeExpr_told env b).append (scopeExpr?_told env c))
    have hloop := hheader.declare env p false .loop (bare [v]) nofun (.inr (by simp [bare]))
      (.visit (.stmt (.numericFor p v a b c body))) rfl rfl rfl
    exact (hloop.append (scopeBlock_told _ body)).congr
      (by simp [walkStmt, stmtEvents, Node.targets])
  | genericFor p ns vs body =>
    have hloop := (scopeExprs_told env vs).declare env p false .loop (bare ns) nofun (.inr (by simp [bare]))
      (.visit (.stmt (.genericFor p ns vs body))) rfl rfl rfl
    exact (hloop.append (scopeBlock_told _ body)).congr
      (by simp [walkStmt, stmtEvents, Node.targets])
  | function p t f m =>
    have ht : Told (scopeExpr env t) (walkExprs [t]) (exprsEvents [t]) :=
      (scopeExpr_told env t).congr (by simp [walkExprs, exprsEvents])
    have hfunc := (ht.stored [] (.function p t f m) rfl).append (scopeFunc_told env m f)
    refine hfunc.congr ?_
    cases t <;> simp [walkStmt, walkExprs, stmtEvents, targetsEvents, Event.declares]
  | localFunction p n f =>
    have hname := Told.none.declare env p false .function (bare [n]) nofun (.inr (by simp [bare]))
      (.visit (.stmt (.localFunction p n f))) rfl rfl rfl
    exact (hname.append (scopeFunc_told _ false f)).congr (by simp [walkStmt, stmtEvents, Node.targets])
  | «return» _ vs =>
    exact (scopeExprs_told env vs).congr
      (by simp [walkStmt, stmtEvents, Node.targets, Event.declares])
  | _ => exact Told.congr .none (by simp [walkStmt, stmtEvents, Node.targets, Event.declares])

end

/-- What the pass tells of a chunk is what the checker looks at. -/
theorem Chunk.told (c : Chunk) : Told (scopeBlock [] c.body) c.walk c.events :=
  (scopeBlock_told [] c.body).congr (by simp [Chunk.walk, Chunk.events])

end LuaServer.Lua
