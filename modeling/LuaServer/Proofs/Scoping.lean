/-
# Lexical scoping

Which declaration a name means, told by the finished tree alone.  `scopeBlock` and its companions take
the declarations that are visible, the innermost and latest first, and hand them down:

* a `local` list is visible in the statements after it, and so not in its own values;
* the name of a `local function` is visible in the statements after it and in its own body;
* parameters, and the implicit `self` of a method, are visible in the body of their function;
* the variables of a loop are visible in its body, and not in its header;
* what the body of a `repeat` declares is visible in its condition.

A name means the first visible declaration of it, and the global of that name if there is none.
Nothing is changed on the way: the pass has no table, no numbers and no state, and a declaration is
told from others by the places where it stands.

The reader resolves names in quite another way, with a list of visible locals that it extends and cuts
back while it reads.  `bindBlock_follows` says that the two agree: every name denotes the row of the
table that stands for what the pass says it means.
-/
import Mathlib.Data.List.Forall2
import LuaServer.Proofs.Binding

namespace LuaServer.Lua

/-! ## 1. The pass -/

/-- A declaration: its name and kind, the place of the list that it belongs to (that of the `local` or
the `for`, or of the parenthesis before parameters), its own place, which an implicit `self` does not
have, and its attribute. -/
structure Decl where
  name : Text
  kind : BindingKind
  list : Pos
  site : Option Pos
  attrib : Option Attrib
deriving DecidableEq, Repr

/-- What a name means. -/
inductive Target where
  | global (name : Text)
  | local (decl : Decl)
deriving DecidableEq, Repr

/-- The declarations that are visible at a place, the innermost and latest first. -/
abbrev Env := List Decl

namespace Env

/-- The visible declaration of a name. -/
def lookup? (env : Env) (name : Text) : Option Decl := env.find? (fun d => d.name = name)

/-- What a name means where `env` is visible. -/
def target (env : Env) (name : Text) : Target :=
  match env.lookup? name with
  | some d => .local d
  | none => .global name

/-- Declarations become visible, the last one innermost. -/
def extend (env : Env) (ds : List Decl) : Env := ds.reverse ++ env

end Env

/-- The outcome of the pass: what every name means, in source order; the declarations, each with the
one that it hides, in the order in which they take effect; and the places of the lists of
declarations. -/
structure Scoping where
  uses : List (Name × Target) := []
  decls : List (Decl × Option Decl) := []
  lists : List Pos := []

namespace Scoping

instance : Append Scoping := ⟨fun a b => ⟨a.uses ++ b.uses, a.decls ++ b.decls, a.lists ++ b.lists⟩⟩

@[simp] theorem uses_append (a b : Scoping) : (a ++ b).uses = a.uses ++ b.uses := rfl
@[simp] theorem decls_append (a b : Scoping) : (a ++ b).decls = a.decls ++ b.decls := rfl
@[simp] theorem lists_append (a b : Scoping) : (a ++ b).lists = a.lists ++ b.lists := rfl

end Scoping

/-- The declaration of a name in a list that stands at `list`. -/
def Decl.ofName (kind : BindingKind) (list : Pos) (x : Name × Option Attrib) : Decl :=
  ⟨x.1.name, kind, list, some x.1.pos, x.2⟩

/-- The implicit parameter of a method. -/
def Decl.self (list : Pos) : Decl := ⟨Scopes.selfName, .param, list, none, none⟩

/-- The implicit parameter, if there is one. -/
def implicitSelf (isMethod : Bool) (list : Pos) : List Decl := if isMethod then [.self list] else []

/-- One list of declarations at `list`, after what stands in its header or as its values.  All of them
hide what was visible before the list. -/
def Scoping.declare (env : Env) (list : Pos) (self : List Decl) (kind : BindingKind)
    (xs : List (Name × Option Attrib)) (header : Scoping) : Scoping where
  uses := xs.map (fun x => (x.1, .local (.ofName kind list x))) ++ header.uses
  decls := header.decls
    ++ (self ++ xs.map (Decl.ofName kind list)).map fun d => (d, env.lookup? d.name)
  lists := list :: header.lists

/-- What a statement makes visible to those after it. -/
def Stmt.declares : Stmt → List Decl
  | .local p ns as _ => (withAttribs ns as).map (.ofName .local p)
  | .localFunction p n _ => (bare [n]).map (.ofName .function p)
  | _ => []

/-- What is visible after statements. -/
def Env.after (env : Env) (ss : List Stmt) : Env := ss.foldl (fun env s => env.extend s.declares) env

mutual

/-- The names of an expression, where `env` is visible.  The body of a function that is no method is one of
the places where an expression declares something. -/
def scopeExpr (env : Env) : Expr → Scoping
  | .name n => { uses := [(n, env.target n.name)] }
  | .nil _ | .boolean _ _ | .number _ _ _ | .string _ _ | .vararg _ => {}
  | .function _ f => scopeFunc env false f
  | .table _ fs => scopeFields env fs
  | .binary _ _ l r => scopeExpr env l ++ scopeExpr env r
  | .unary _ _ e => scopeExpr env e
  | .paren _ e => scopeExpr env e
  | .index _ o k => scopeExpr env o ++ scopeExpr env k
  | .call _ f args => scopeExpr env f ++ scopeExprs env args
  | .methodCall _ o _ args => scopeExpr env o ++ scopeExprs env args

/-- The names of expressions, from left to right. -/
def scopeExprs (env : Env) : List Expr → Scoping
  | [] => {}
  | e :: es => scopeExpr env e ++ scopeExprs env es

/-- The names of an expression that may be left out: the key of a field, or the step of a loop. -/
def scopeExpr? (env : Env) : Option Expr → Scoping
  | none => {}
  | some e => scopeExpr env e

/-- The names of a field, those of its key before those of its value. -/
def scopeField (env : Env) : TableField → Scoping
  | .mk _ k v => scopeExpr? env k ++ scopeExpr env v

/-- The names of the fields of a table. -/
def scopeFields (env : Env) : List TableField → Scoping
  | [] => {}
  | f :: fs => scopeField env f ++ scopeFields env fs

/-- The parameters of a function, the implicit one before the others, and its body, where they are visible. -/
def scopeFunc (env : Env) (isMethod : Bool) : FuncBody → Scoping
  | .mk p ps _ b =>
    .declare env p (implicitSelf isMethod p) .param (bare ps) {}
      ++ scopeBlock (env.extend (implicitSelf isMethod p ++ (bare ps).map (.ofName .param p))) b

/-- The names of a block.  What it declares ends with it, as nothing is handed back. -/
def scopeBlock (env : Env) : Block → Scoping
  | .mk _ ss => scopeStmts env ss

/-- The names of the block after `else`, if there is one. -/
def scopeBlock? (env : Env) : Option Block → Scoping
  | none => {}
  | some b => scopeBlock env b

/-- The names of statements.  What one of them declares is visible in those after it. -/
def scopeStmts (env : Env) : List Stmt → Scoping
  | [] => {}
  | s :: ss => scopeStmt env s ++ scopeStmts (env.extend s.declares) ss

/-- The names of a condition and of its block. -/
def scopeClause (env : Env) : IfClause → Scoping
  | .mk _ c b => scopeExpr env c ++ scopeBlock env b

/-- The names of the clauses of an `if`. -/
def scopeClauses (env : Env) : List IfClause → Scoping
  | [] => {}
  | c :: cs => scopeClause env c ++ scopeClauses env cs

/-- The names of a statement.  The names which a `local` or a loop declares come before those of its values
or of its header, though they are not visible there. -/
def scopeStmt (env : Env) : Stmt → Scoping
  | .local p ns as vs => .declare env p [] .local (withAttribs ns as) (scopeExprs env vs)
  | .assign _ ts vs => scopeExprs env ts ++ scopeExprs env vs
  | .call _ e => scopeExpr env e
  | .do _ b => scopeBlock env b
  | .while _ c b => scopeExpr env c ++ scopeBlock env b
  | .repeat _ (.mk _ ss) c => scopeStmts env ss ++ scopeExpr (env.after ss) c
  | .if _ cs o => scopeClauses env cs ++ scopeBlock? env o
  | .numericFor p v a b c body =>
    .declare env p [] .loop (bare [v]) (scopeExpr env a ++ (scopeExpr env b ++ scopeExpr? env c))
      ++ scopeBlock (env.extend ((bare [v]).map (.ofName .loop p))) body
  | .genericFor p ns vs body =>
    .declare env p [] .loop (bare ns) (scopeExprs env vs)
      ++ scopeBlock (env.extend ((bare ns).map (.ofName .loop p))) body
  | .function _ t f m => scopeExpr env t ++ scopeFunc env m f
  | .localFunction p n f =>
    .declare env p [] .function (bare [n]) {}
      ++ scopeFunc (env.extend ((bare [n]).map (.ofName .function p))) false f
  | .return _ vs => scopeExprs env vs
  | .break _ | .goto _ _ | .label _ _ => {}

end

/-! ## 2. The pass goes over the names of the tree -/

/-- The names that a node declares are names of the walk. -/
theorem filterMap_declared (ns : List Name) :
    ns.filterMap (Node.name? ∘ Node.declared) = ns := by
  induction ns with
  | nil => rfl
  | cons n ns ih => simp [Node.name?, ih]

/-- A list of declarations has its own names and those of its header. -/
theorem Scoping.declare_names (env : Env) (list : Pos) (self : List Decl) (kind : BindingKind)
    (xs : List (Name × Option Attrib)) (header : Scoping) :
    (declare env list self kind xs header).uses.map (·.1)
      = xs.map (·.1) ++ header.uses.map (·.1) := by
  simp [declare, Function.comp_def]

mutual

/-- Each name of an expression is told of once, in the order of the walk. -/
theorem scopeExpr_names (env : Env) (e : Expr) :
    (scopeExpr env e).uses.map (·.1) = (walkExpr e).filterMap Node.name? := by
  cases e with
  | function _ f =>
    simp [scopeExpr, walkExpr, List.filterMap_cons, Node.name?, Expr.name?, scopeFunc_names env false f]
  | table _ fs => simp [scopeExpr, walkExpr, List.filterMap_cons, Node.name?, Expr.name?, scopeFields_names env fs]
  | binary _ _ l r =>
    simp [scopeExpr, walkExpr, List.filterMap_cons, Node.name?, Expr.name?, scopeExpr_names env l,
      scopeExpr_names env r]
  | unary _ _ e => simp [scopeExpr, walkExpr, List.filterMap_cons, Node.name?, Expr.name?, scopeExpr_names env e]
  | paren _ e => simp [scopeExpr, walkExpr, List.filterMap_cons, Node.name?, Expr.name?, scopeExpr_names env e]
  | index _ o k =>
    simp [scopeExpr, walkExpr, List.filterMap_cons, Node.name?, Expr.name?, scopeExpr_names env o,
      scopeExpr_names env k]
  | call _ f as =>
    simp [scopeExpr, walkExpr, List.filterMap_cons, Node.name?, Expr.name?, scopeExpr_names env f,
      scopeExprs_names env as]
  | methodCall _ o _ as =>
    simp [scopeExpr, walkExpr, List.filterMap_cons, Node.name?, Expr.name?, scopeExpr_names env o,
      scopeExprs_names env as]
  | _ => simp [scopeExpr, walkExpr, List.filterMap_cons, Node.name?, Expr.name?]

theorem scopeExprs_names (env : Env) (es : List Expr) :
    (scopeExprs env es).uses.map (·.1) = (walkExprs es).filterMap Node.name? := by
  cases es with
  | nil => rfl
  | cons e es => simp [scopeExprs, walkExprs, scopeExpr_names env e, scopeExprs_names env es]

theorem scopeExpr?_names (env : Env) (e : Option Expr) :
    (scopeExpr? env e).uses.map (·.1) = (walkExpr? e).filterMap Node.name? := by
  cases e with
  | none => rfl
  | some e => simp [scopeExpr?, walkExpr?, scopeExpr_names env e]

theorem scopeFields_names (env : Env) (fs : List TableField) :
    (scopeFields env fs).uses.map (·.1) = (walkFields fs).filterMap Node.name? := by
  cases fs with
  | nil => rfl
  | cons f fs =>
    obtain ⟨p, k, v⟩ := f
    simp [scopeFields, scopeField, walkFields, List.filterMap_cons, Node.name?, scopeExpr?_names env k,
      scopeExpr_names env v, scopeFields_names env fs]

/-- The parameters of a function are names, the implicit one is not. -/
theorem scopeFunc_names (env : Env) (isMethod : Bool) (f : FuncBody) :
    (scopeFunc env isMethod f).uses.map (·.1) = (walkFunc f).filterMap Node.name? := by
  obtain ⟨p, ps, v, b⟩ := f
  simp [scopeFunc, walkFunc, List.filterMap_cons, Node.name?, Scoping.declare_names, filterMap_declared,
    scopeBlock_names _ b]

/-- The names of a block are those that a walk over it meets. -/
theorem scopeBlock_names (env : Env) (b : Block) :
    (scopeBlock env b).uses.map (·.1) = (walkBlock b).filterMap Node.name? := by
  obtain ⟨p, ss⟩ := b
  simp [scopeBlock, walkBlock, List.filterMap_cons, Node.name?, scopeStmts_names env ss]

theorem scopeBlock?_names (env : Env) (b : Option Block) :
    (scopeBlock? env b).uses.map (·.1) = (walkBlock? b).filterMap Node.name? := by
  cases b with
  | none => rfl
  | some b => simp [scopeBlock?, walkBlock?, scopeBlock_names env b]

theorem scopeStmts_names (env : Env) (ss : List Stmt) :
    (scopeStmts env ss).uses.map (·.1) = (walkStmts ss).filterMap Node.name? := by
  cases ss with
  | nil => rfl
  | cons s ss => simp [scopeStmts, walkStmts, scopeStmt_names env s, scopeStmts_names _ ss]

theorem scopeClauses_names (env : Env) (cs : List IfClause) :
    (scopeClauses env cs).uses.map (·.1) = (walkClauses cs).filterMap Node.name? := by
  cases cs with
  | nil => rfl
  | cons c cs =>
    obtain ⟨p, e, b⟩ := c
    simp [scopeClauses, scopeClause, walkClauses, List.filterMap_cons, Node.name?, scopeExpr_names env e,
      scopeBlock_names env b, scopeClauses_names env cs]

/-- The names of a statement, in the order of the walk. -/
theorem scopeStmt_names (env : Env) (s : Stmt) :
    (scopeStmt env s).uses.map (·.1) = (walkStmt s).filterMap Node.name? := by
  cases s with
  | «local» _ ns as vs =>
    simp [scopeStmt, walkStmt, List.filterMap_cons, Node.name?, Scoping.declare_names, filterMap_declared,
      scopeExprs_names env vs]
  | assign _ ts vs =>
    simp [scopeStmt, walkStmt, List.filterMap_cons, Node.name?, scopeExprs_names env ts, scopeExprs_names env vs]
  | call _ e => simp [scopeStmt, walkStmt, List.filterMap_cons, Node.name?, scopeExpr_names env e]
  | «do» _ b => simp [scopeStmt, walkStmt, List.filterMap_cons, Node.name?, scopeBlock_names env b]
  | «while» _ c b =>
    simp [scopeStmt, walkStmt, List.filterMap_cons, Node.name?, scopeExpr_names env c, scopeBlock_names env b]
  | «repeat» _ b c =>
    obtain ⟨p, ss⟩ := b
    simp [scopeStmt, walkStmt, walkBlock, List.filterMap_cons, Node.name?, scopeStmts_names env ss,
      scopeExpr_names _ c]
  | «if» _ cs o =>
    simp [scopeStmt, walkStmt, List.filterMap_cons, Node.name?, scopeClauses_names env cs, scopeBlock?_names env o]
  | numericFor _ v a b c body =>
    simp [scopeStmt, walkStmt, List.filterMap_cons, Node.name?, Scoping.declare_names, scopeExpr_names env a,
      scopeExpr_names env b, scopeExpr?_names env c, scopeBlock_names _ body]
  | genericFor _ ns vs body =>
    simp [scopeStmt, walkStmt, List.filterMap_cons, Node.name?, Scoping.declare_names, filterMap_declared,
      scopeExprs_names env vs, scopeBlock_names _ body]
  | function _ t f m =>
    simp [scopeStmt, walkStmt, List.filterMap_cons, Node.name?, scopeExpr_names env t, scopeFunc_names env m f]
  | localFunction _ n f =>
    simp [scopeStmt, walkStmt, List.filterMap_cons, Node.name?, Scoping.declare_names, scopeFunc_names _ false f]
  | «return» _ vs => simp [scopeStmt, walkStmt, List.filterMap_cons, Node.name?, scopeExprs_names env vs]
  | _ => simp [scopeStmt, walkStmt, List.filterMap_cons, Node.name?]

end

/-- The pass tells of every identifier of a document, in source order. -/
theorem Chunk.scoping_names (c : Chunk) : (scopeBlock [] c.body).uses.map (·.1) = c.names := by
  rw [scopeBlock_names]
  rfl

/-! ## 3. The table of bindings as a list of targets -/

/-- A binding without the counts of its uses. -/
def Binding.core (b : Binding) : Binding := { b with reads := 0, writes := 0 }

/-- The bindings without the counts of their uses. -/
def Scopes.table (σ : Scopes) : List Binding := σ.bindings.toList.map Binding.core

namespace Scopes

@[simp] theorem table_add (b : Binding) (σ : Scopes) :
    (σ.add b).2.table = σ.table ++ [b.core] := by
  simp [add, table]

/-- A binding that is added has the next number. -/
theorem add_fst (b : Binding) (σ : Scopes) : (σ.add b).1 = σ.table.length := by
  simp [add, table]

/-- Counting a use leaves the table as it is. -/
theorem table_modify {f : Binding → Binding} (hf : ∀ b, (f b).core = b.core) (id : BindingId)
    (σ : Scopes) : (σ.modify id f).table = σ.table := by
  apply List.ext_getElem?
  intro i
  simp only [table, modify, List.getElem?_map, Array.toList_modify, List.getElem?_modify]
  by_cases hi : id = i
  · cases σ.bindings.toList[i]? <;> simp [hi, hf]
  · simp [hi]

end Scopes

/-- What one row of the table stands for: a global, with the place where it was first met, or a
declaration with the one that it hides. -/
inductive Row where
  | global (name : Text) (pos : Pos)
  | local (decl : Decl) (hides : Option Decl)

namespace Row

/-- What the names that have this row mean. -/
def target : Row → Target
  | .global x _ => .global x
  | .local d _ => .local d

/-- The declaration of a row, with the one that it hides. -/
def declared? : Row → Option (Decl × Option Decl)
  | .global _ _ => none
  | .local d h => some (d, h)

end Row

/-- An entry of a list with one more at its end is an old one or the new one. -/
theorem getElem?_concat_cases {α : Type} {l : List α} {a x : α} {i : Nat}
    (h : (l ++ [a])[i]? = some x) : l[i]? = some x ∨ (i = l.length ∧ x = a) := by
  by_cases hi : i < l.length
  · rw [List.getElem?_append_left hi] at h
    exact .inl h
  · rw [List.getElem?_append_right (Nat.le_of_not_lt hi)] at h
    obtain ⟨hlt, hx⟩ := List.getElem?_eq_some_iff.mp h
    rw [List.length_singleton] at hlt
    exact .inr ⟨by omega, by simpa using hx.symm⟩

/-- The row of a number stands for a target. -/
def Denotes (rows : List Row) (id : BindingId) (t : Target) : Prop :=
  (rows.map Row.target)[id]? = some t

/-- What a number denotes stays when rows are added. -/
theorem Denotes.append {rows : List Row} {id : BindingId} {t : Target} (h : Denotes rows id t)
    (more : List Row) : Denotes (rows ++ more) id t := by
  obtain ⟨hlt, -⟩ := List.getElem?_eq_some_iff.mp h
  rw [Denotes, List.map_append, List.getElem?_append_left hlt]
  exact h

/-- What a number stands for after one more row is what it stood for, or what the row stands for. -/
theorem Denotes.of_concat {rows : List Row} {r : Row} {id : BindingId} {t : Target}
    (h : Denotes (rows ++ [r]) id t) : Denotes rows id t ∨ (id = rows.length ∧ t = r.target) := by
  rw [Denotes, List.map_append] at h
  have hcases := getElem?_concat_cases h
  rwa [List.length_map] at hcases

/-- A number that may be absent stands for a declaration that may be absent. -/
def Hides (rows : List Row) : Option BindingId → Option Decl → Prop
  | none, none => True
  | some id, some d => Denotes rows id (.local d)
  | _, _ => False

/-- So does what a row hides. -/
theorem Hides.append {rows : List Row} : ∀ {id : Option BindingId} {d : Option Decl},
    Hides rows id d → ∀ more : List Row, Hides (rows ++ more) id d
  | none, none, _, _ => trivial
  | some _, some _, h, more => Denotes.append h more
  | none, some _, h, _ => h.elim
  | some _, none, h, _ => h.elim

/-- A binding is the one that a row stands for.  The scopes are numbered from 1 in the order of
`lists`. -/
def Describes (rows : List Row) (lists : List Pos) : Row → Binding → Prop
  | .global x p, b =>
    b = { name := x, scope := globalScope, kind := .global, declaration := some p }
  | .local d h, b =>
    b.name = d.name ∧ b.kind = d.kind ∧ b.declaration = d.site ∧ b.attrib = d.attrib ∧
      1 ≤ b.scope ∧ lists[b.scope - 1]? = some d.list ∧ Hides rows b.shadows h

/-- So does what a binding is described by. -/
theorem Describes.append {rows : List Row} {lists : List Pos} {row : Row} {b : Binding}
    (h : Describes rows lists row b) (more : List Row) (further : List Pos) :
    Describes (rows ++ more) (lists ++ further) row b := by
  cases row with
  | global x p => exact h
  | «local» d hid =>
    obtain ⟨h₁, h₂, h₃, h₄, h₅, h₆, h₇⟩ := h
    obtain ⟨hlt, -⟩ := List.getElem?_eq_some_iff.mp h₆
    exact ⟨h₁, h₂, h₃, h₄, h₅, by rw [List.getElem?_append_left hlt]; exact h₆, h₇.append more⟩

/-- **The reader's variables and the pass.**  The table is `rows`, the scopes opened so far stand at
`lists`, the visible locals are the declarations of `env`, and the globals met so far are those of the
table. -/
structure Sim (rows : List Row) (lists : List Pos) (env : Env) (σ : Scopes) : Prop where
  opened : σ.opened = lists.length
  size : σ.table.length = rows.length
  row : ∀ {id : Nat} {r : Row}, rows[id]? = some r → ∃ b, σ.table[id]? = some b ∧ Describes rows lists r b
  active : List.Forall₂ (fun (d : Decl) b => d.name = b.1 ∧ Denotes rows b.2 (.local d)) env σ.active
  globals : ∀ {x : Text} {id : Nat}, (σ.globals.find? (fun b => b.1 = x)).map (·.2) = some id ↔
    Denotes rows id (.global x)

namespace Sim

variable {rows : List Row} {lists : List Pos} {env : Env} {σ τ : Scopes}

/-- Before anything is read nothing is declared or visible. -/
theorem initial : Sim [] [] [] {} where
  opened := rfl
  size := rfl
  row h := by simp at h
  active := .nil
  globals := by simp [Denotes]

/-- The visible local of a name is what the pass finds. -/
theorem visible (h : Sim rows lists env σ) (x : Text) :
    Hides rows (σ.visible? x) (env.lookup? x) := by
  have hactive := h.active
  rw [Scopes.visible?, Env.lookup?]
  clear h
  generalize σ.active = bs at hactive
  induction hactive with
  | nil => trivial
  | @cons d b env bs hb _ ih =>
    obtain ⟨hname, hden⟩ := hb
    by_cases hx : d.name = x
    · have hbx : b.1 = x := hname.symm.trans hx
      simpa [hx, hbx, Hides] using hden
    · have hbx : b.1 ≠ x := fun hbx => hx (hname.trans hbx)
      simpa [hx, hbx] using ih

/-- Steps that change nothing but the counts of uses. -/
theorem of_table_eq (h : Sim rows lists env σ) (htable : τ.table = σ.table)
    (hopened : τ.opened = σ.opened) (hactive : τ.active = σ.active)
    (hglobals : τ.globals = σ.globals) : Sim rows lists env τ where
  opened := hopened ▸ h.opened
  size := htable ▸ h.size
  row hr := htable ▸ h.row hr
  active := hactive ▸ h.active
  globals := hglobals ▸ h.globals

/-- A change of the counts or of the type of a binding changes nothing that is compared. -/
theorem modify (h : Sim rows lists env σ) {f : Binding → Binding} (hf : ∀ b, (f b).core = b.core)
    (id : BindingId) : Sim rows lists env (σ.modify id f) :=
  h.of_table_eq (Scopes.table_modify hf id σ) rfl rfl rfl

/-- A new scope is the next one. -/
theorem newScope (h : Sim rows lists env σ) (p : Pos) :
    Sim rows (lists ++ [p]) env σ.newScope.2 where
  opened := by simp [Scopes.newScope, h.opened]
  size := h.size
  row hr := by
    obtain ⟨b, hb, hdesc⟩ := h.row hr
    refine ⟨b, hb, ?_⟩
    simpa using hdesc.append [] [p]
  active := h.active
  globals := h.globals

/-- Scopes are numbered from one on, as the lists of declarations are. -/
theorem newScope_fst (h : Sim rows lists env σ) : σ.newScope.1 = lists.length + 1 := by
  rw [Scopes.newScope, h.opened]

/-- The rows after one more binding. -/
theorem row_add (h : Sim rows lists env σ) {b : Binding} {new : Row}
    (hnew : Describes rows lists new b.core) {id : Nat} {r : Row}
    (hr : (rows ++ [new])[id]? = some r) :
    ∃ b', (σ.add b).2.table[id]? = some b' ∧ Describes (rows ++ [new]) lists r b' := by
  rw [Scopes.table_add]
  rcases getElem?_concat_cases hr with hr | ⟨rfl, rfl⟩
  · obtain ⟨b', hb', hdesc⟩ := h.row hr
    obtain ⟨hid, -⟩ := List.getElem?_eq_some_iff.mp hb'
    refine ⟨b', ?_, by simpa using hdesc.append [new] []⟩
    rwa [List.getElem?_append_left hid]
  · refine ⟨b.core, ?_, by simpa using hnew.append [r] []⟩
    rw [← h.size]
    simp

/-- A new local takes the next row. -/
theorem add_local (h : Sim rows lists env σ) {b : Binding} {d : Decl} {hid : Option Decl}
    (hnew : Describes rows lists (.local d hid) b.core) :
    Sim (rows ++ [.local d hid]) lists env (σ.add b).2 where
  opened := h.opened
  size := by simp [h.size]
  row hr := h.row_add hnew hr
  active := h.active.imp fun _ _ hb => ⟨hb.1, hb.2.append _⟩
  globals := by
    intro x id
    refine h.globals.trans ⟨fun hd => hd.append _, ?_⟩
    intro hd
    rcases hd.of_concat with hd | ⟨-, ht⟩
    · exact hd
    · cases ht

/-- A global is found in its row, or takes the next one. -/
theorem global (h : Sim rows lists env σ) (x : Ident) :
    ∃ new, Sim (rows ++ new) lists env (σ.global x).2 ∧
      Denotes (rows ++ new) (σ.global x).1 (.global x.name) ∧
      new.filterMap Row.declared? = [] := by
  cases hfind : σ.globals.find? (fun b => b.1 = x.name) with
  | some g =>
    have hden := h.globals.mp (congrArg (Option.map (·.2)) hfind)
    refine ⟨[], ?_, ?_, rfl⟩
    · simpa [Scopes.global, hfind] using h
    · simpa [Scopes.global, hfind] using hden
  | none =>
    obtain ⟨b, hb⟩ : ∃ b : Binding, b = ⟨x.name, globalScope, .global, some x.pos, none, none, 0, 0⟩ :=
      ⟨_, rfl⟩
    have hglobal : σ.global x
        = ((σ.add b).1, { (σ.add b).2 with globals := (x.name, (σ.add b).1) :: σ.globals }) := by
      subst hb
      simp only [Scopes.global, hfind]
      rfl
    have hdesc : Describes rows lists (.global x.name x.pos) b.core := by
      subst hb
      rfl
    have hlast : Denotes (rows ++ [.global x.name x.pos]) (σ.add b).1 (.global x.name) := by
      rw [Scopes.add_fst, h.size, Denotes]
      simp [Row.target]
    rw [hglobal]
    refine ⟨[.global x.name x.pos], ?_, hlast, rfl⟩
    exact {
      opened := h.opened
      size := by simpa [Scopes.table, Scopes.add] using h.size
      row := fun hr => h.row_add hdesc hr
      active := h.active.imp fun _ _ hb => ⟨hb.1, hb.2.append _⟩
      globals := by
        intro y id
        by_cases hy : x.name = y
        · subst hy
          simp only [List.find?_cons, decide_true, Option.map_some, Option.some.injEq]
          refine ⟨fun hid => hid ▸ hlast, ?_⟩
          intro hd
          rcases hd.of_concat with hd | ⟨rfl, -⟩
          · -- an older row for the same name would have been found
            have hfound := h.globals.mpr hd
            rw [hfind] at hfound
            cases hfound
          · rw [Scopes.add_fst, h.size]
        · simp only [List.find?_cons, hy, decide_false]
          refine h.globals.trans ⟨fun hd => hd.append _, ?_⟩
          intro hd
          rcases hd.of_concat with hd | ⟨-, ht⟩
          · exact hd
          · exact absurd (Target.global.inj ht).symm hy }

/-- A name that is looked up denotes what the pass says. -/
theorem reference (h : Sim rows lists env σ) (x : Ident) :
    ∃ new, Sim (rows ++ new) lists env (σ.reference x).2 ∧
      Denotes (rows ++ new) (σ.reference x).1.binding (env.target x.name) ∧
      new.filterMap Row.declared? = [] := by
  have hcount : ∀ b : Binding, ({ b with reads := b.reads + 1 } : Binding).core = b.core :=
    fun b => rfl
  have hvis := h.visible x.name
  cases hid : σ.visible? x.name with
  | some id =>
    cases hlook : env.lookup? x.name with
    | none => simp [hid, hlook, Hides] at hvis
    | some d =>
      rw [hid, hlook] at hvis
      refine ⟨[], ?_, ?_, rfl⟩
      · simp only [Scopes.reference, hid, List.append_nil]
        exact h.modify hcount id
      · simp only [Scopes.reference, hid, Env.target, hlook, List.append_nil]
        exact hvis
  | none =>
    cases hlook : env.lookup? x.name with
    | some d => simp [hid, hlook, Hides] at hvis
    | none =>
      obtain ⟨new, hsim, hden, hnew⟩ := h.global x
      refine ⟨new, ?_, ?_, hnew⟩
      · simp only [Scopes.reference, hid]
        exact hsim.modify hcount _
      · simp only [Scopes.reference, hid, Env.target, hlook]
        exact hden

/-- A name that is looked up denotes what the pass says, where a global is added to the table if it is met
first. -/
theorem useName (h : Sim rows lists env σ) {n : Name} (hn : σ.useName n = some τ) :
    ∃ new, Sim (rows ++ new) lists env τ ∧ Denotes (rows ++ new) n.binding (env.target n.name) ∧
      new.filterMap Row.declared? = [] := by
  obtain ⟨new, hsim, hden, hnew⟩ := h.reference n.ident
  rw [Scopes.reference_of_useName hn] at hsim hden
  exact ⟨new, hsim, hden, hnew⟩

/-- A store changes the counts only. -/
theorem write? (h : Sim rows lists env σ) {n : Name} (hn : σ.write? n = some τ) :
    Sim rows lists env τ := by
  obtain ⟨-, rfl⟩ := Scopes.write?_iff.mp hn
  refine h.modify ?_ n.binding
  intro b
  rfl

/-- Stores change counts only. -/
theorem writeTargets (h : Sim rows lists env σ) : ∀ {ts : List Expr},
    σ.writeTargets ts = some τ → Sim rows lists env τ
  | ts, hts => by
    induction ts generalizing σ with
    | nil =>
      cases hts
      exact h
    | cons e ts ih =>
      cases e with
      | name n =>
        rw [Scopes.writeTargets] at hts
        obtain ⟨ρ, hw, hts⟩ := Option.bind_eq_some_iff.mp hts
        exact ih (h.write? hw) hts
      | index p o k => exact ih h hts
      | _ => cases hts

/-- The locals of one list take the next rows, and all of them hide what is visible before it. -/
theorem declareNames {kind : BindingKind} {p : Pos} {scope : Nat} (hscope : 1 ≤ scope)
    (hlist : lists[scope - 1]? = some p) : ∀ {xs : List (Name × Option Attrib)} {rows : List Row}
    {σ : Scopes}, Sim rows lists env σ → σ.declareNames kind scope xs = some τ →
    let new := xs.map fun x => Row.local (.ofName kind p x) (env.lookup? x.1.name)
    Sim (rows ++ new) lists env τ ∧
      ∀ x ∈ xs, Denotes (rows ++ new) x.1.binding (.local (.ofName kind p x))
  | [], rows, σ, h, hxs => by
    cases hxs
    simpa using h
  | (n, a) :: xs, rows, σ, h, hxs => by
    obtain ⟨b, hb, -, hid, hxs⟩ := Scopes.declareNames_cons hxs
    have hdesc : Describes rows lists (.local (.ofName kind p (n, a)) (env.lookup? n.name))
        b.core := by
      subst hb
      exact ⟨rfl, rfl, rfl, rfl, hscope, hlist, h.visible n.name⟩
    obtain ⟨hsim, hden⟩ := declareNames hscope hlist (h.add_local hdesc) hxs
    rw [List.append_assoc, List.singleton_append] at hsim hden
    refine ⟨hsim, ?_⟩
    intro x hx
    rcases List.mem_cons.mp hx with rfl | hx
    · rw [← hid, Scopes.add_fst, h.size, Denotes]
      simp [Row.target]
    · exact hden x hx

/-- What a list declares becomes visible. -/
theorem activate (h : Sim rows lists env σ) {kind : BindingKind} {p : Pos}
    {xs : List (Name × Option Attrib)}
    (hxs : ∀ x ∈ xs, Denotes rows x.1.binding (.local (.ofName kind p x))) :
    Sim rows lists (env.extend (xs.map (Decl.ofName kind p))) (σ.activate (xs.map (·.1))) := by
  refine { h with active := ?_ }
  rw [Env.extend, Scopes.activate, ← List.map_reverse, ← List.map_reverse, List.map_map]
  refine List.rel_append ?_ h.active
  rw [List.forall₂_map_left_iff, List.forall₂_map_right_iff, List.forall₂_same]
  intro x hx
  exact ⟨rfl, hxs x (List.mem_reverse.mp hx)⟩

/-- The implicit parameter of a method takes the next row and becomes visible before the others. -/
theorem declareSelf (h : Sim rows lists env σ) {p : Pos} {scope : Nat} (hscope : 1 ≤ scope)
    (hlist : lists[scope - 1]? = some p) (isMethod : Bool) :
    let new := (implicitSelf isMethod p).map fun d => Row.local d (env.lookup? d.name)
    Sim (rows ++ new) lists env (σ.declareSelf isMethod scope).2 ∧
      ∀ {more : List Row} {τ : Scopes}, Sim (rows ++ new ++ more) lists env τ →
        Sim (rows ++ new ++ more) lists (env.extend (implicitSelf isMethod p))
          (τ.activateSelf (σ.declareSelf isMethod scope).1) := by
  cases isMethod with
  | false => simpa [implicitSelf, Scopes.declareSelf, Scopes.activateSelf, Env.extend] using h
  | true =>
    obtain ⟨b, hb⟩ : ∃ b : Binding, b = ⟨Scopes.selfName, scope, .param, none, none,
      σ.visible? Scopes.selfName, 0, 0⟩ := ⟨_, rfl⟩
    have hself : σ.declareSelf true scope = (some (σ.add b).1, (σ.add b).2) := by
      subst hb
      rfl
    have hdesc : Describes rows lists (.local (.self p) (env.lookup? Scopes.selfName)) b.core := by
      subst hb
      exact ⟨rfl, rfl, rfl, rfl, hscope, hlist, h.visible Scopes.selfName⟩
    rw [hself]
    refine ⟨h.add_local hdesc, ?_⟩
    intro more τ hτ
    refine { hτ with active := .cons ⟨rfl, ?_⟩ hτ.active }
    refine Denotes.append ?_ more
    rw [Scopes.add_fst, h.size, Denotes]
    simp [implicitSelf, Row.target]

/-- What became visible in a block is hidden after it. -/
theorem hide {more : List Row} {lists' : List Pos} {env' : Env} (h : Sim rows lists env σ)
    (h' : Sim (rows ++ more) lists' env' τ) : Sim (rows ++ more) lists' env (σ.hide τ) where
  opened := h'.opened
  size := h'.size
  row := h'.row
  active := h.active.imp fun _ _ hb => ⟨hb.1, hb.2.append _⟩
  globals := h'.globals

end Sim

/-! ## 4. Over the whole tree -/

/-- The reader's variables went on from `rows` and `lists` as the pass says. -/
def Follows (r : Scoping) (rows : List Row) (lists : List Pos) (env : Env) (τ : Scopes) : Prop :=
  ∃ new, Sim (rows ++ new) (lists ++ r.lists) env τ ∧
    (∀ u ∈ r.uses, Denotes (rows ++ new) u.1.binding u.2) ∧ new.filterMap Row.declared? = r.decls

namespace Follows

variable {r r₁ r₂ : Scoping} {rows : List Row} {lists : List Pos} {env env' : Env} {σ τ : Scopes}
  {p : Pos}

/-- A part with nothing to resolve. -/
theorem none (h : Sim rows lists env σ) : Follows {} rows lists env σ :=
  ⟨[], by simpa using h, by simp, rfl⟩

/-- One part after another. -/
theorem append (h₁ : Follows r₁ rows lists env σ)
    (h₂ : ∀ {rows lists}, Sim rows lists env σ → Follows r₂ rows lists env' τ) :
    Follows (r₁ ++ r₂) rows lists env' τ := by
  obtain ⟨new₁, hsim₁, huses₁, hdecls₁⟩ := h₁
  obtain ⟨new₂, hsim₂, huses₂, hdecls₂⟩ := h₂ hsim₁
  refine ⟨new₁ ++ new₂, ?_, ?_, ?_⟩
  · simpa using hsim₂
  · intro u hu
    rw [← List.append_assoc]
    rcases List.mem_append.mp hu with hu | hu
    · exact (huses₁ u hu).append new₂
    · exact huses₂ u hu
  · simp [hdecls₁, hdecls₂]

/-- After a store. -/
theorem writeTargets (h : Follows r rows lists env σ) {ts : List Expr}
    (hts : σ.writeTargets ts = some τ) : Follows r rows lists env τ := by
  obtain ⟨new, hsim, huses, hdecls⟩ := h
  exact ⟨new, hsim.writeTargets hts, huses, hdecls⟩

/-- After a block, what it declared is hidden. -/
theorem hide (h : Sim rows lists env σ) (h' : Follows r rows lists env' τ) :
    Follows r rows lists env (σ.hide τ) := by
  obtain ⟨new, hsim, huses, hdecls⟩ := h'
  exact ⟨new, h.hide hsim, huses, hdecls⟩

/-- A list of declarations takes effect after its header: the outcome before and after its names
become visible. -/
theorem declared (h : Follows r rows (lists ++ [p]) env σ) {isMethod : Bool} {kind : BindingKind}
    {xs : List (Name × Option Attrib)}
    (hxs : (σ.declareSelf isMethod (lists.length + 1)).2.declareNames kind (lists.length + 1) xs
      = some τ) :
    let r' := Scoping.declare env p (implicitSelf isMethod p) kind xs r
    ∃ new, Sim (rows ++ new) (lists ++ r'.lists) env τ ∧
      Sim (rows ++ new) (lists ++ r'.lists)
        (env.extend (implicitSelf isMethod p ++ xs.map (.ofName kind p)))
        ((τ.activateSelf (σ.declareSelf isMethod (lists.length + 1)).1).activate (xs.map (·.1))) ∧
      (∀ u ∈ r'.uses, Denotes (rows ++ new) u.1.binding u.2) ∧
      new.filterMap Row.declared? = r'.decls := by
  obtain ⟨new, hsim, huses, hdecls⟩ := h
  rw [List.append_assoc, List.singleton_append] at hsim
  have hlist : (lists ++ p :: r.lists)[lists.length + 1 - 1]? = some p := by simp
  obtain ⟨hself, hactivate⟩ := hsim.declareSelf (Nat.le_add_left 1 _) hlist isMethod
  obtain ⟨hnames, hden⟩ := Sim.declareNames (Nat.le_add_left 1 _) hlist hself hxs
  generalize hs : ((implicitSelf isMethod p).map fun d => Row.local d (env.lookup? d.name))
    = selfRows at *
  generalize hn : (xs.map fun x => Row.local (.ofName kind p x) (env.lookup? x.1.name))
    = nameRows at *
  refine ⟨new ++ (selfRows ++ nameRows), ?_, ?_, ?_, ?_⟩
  · simpa [Scoping.declare] using hnames
  · have hactive := (hactivate hnames).activate hden
    simpa [Scoping.declare, Env.extend] using hactive
  · intro u hu
    rw [Scoping.declare] at hu
    rcases List.mem_append.mp hu with hu | hu
    · obtain ⟨x, hx, rfl⟩ := List.mem_map.mp hu
      simpa using hden x hx
    · simpa using (huses u hu).append (selfRows ++ nameRows)
  · subst hs hn
    simp [Scoping.declare, hdecls, List.filterMap_map, Function.comp_def, Row.declared?,
      Decl.ofName]

/-- A declaration whose names are visible from then on. -/
theorem visible (h : Follows r rows (lists ++ [p]) env σ) {kind : BindingKind}
    {xs : List (Name × Option Attrib)}
    (hxs : σ.declareNames kind (lists.length + 1) xs = some τ) :
    Follows (.declare env p [] kind xs r) rows lists (env.extend (xs.map (.ofName kind p)))
      (τ.activate (xs.map (·.1))) := by
  have hself : (σ.declareSelf false (lists.length + 1)).2.declareNames kind (lists.length + 1) xs
      = some τ := hxs
  obtain ⟨new, -, hsim, huses, hdecls⟩ := h.declared hself
  exact ⟨new, hsim, huses, hdecls⟩

/-- Parameters, which are visible in a body only. -/
theorem parameters (h : Follows r rows (lists ++ [p]) env σ) {isMethod : Bool} {kind : BindingKind}
    {xs : List (Name × Option Attrib)}
    (hxs : (σ.declareSelf isMethod (lists.length + 1)).2.declareNames kind (lists.length + 1) xs
      = some τ) {r' : Scoping} {ρ : Scopes}
    (hbody : ∀ {rows' lists'},
      Sim rows' lists' (env.extend (implicitSelf isMethod p ++ xs.map (.ofName kind p)))
        ((τ.activateSelf (σ.declareSelf isMethod (lists.length + 1)).1).activate (xs.map (·.1))) →
      Follows r' rows' lists'
        (env.extend (implicitSelf isMethod p ++ xs.map (.ofName kind p))) ρ) :
    Follows (.declare env p (implicitSelf isMethod p) kind xs r ++ r') rows lists env (τ.hide ρ) := by
  obtain ⟨new, hsim, hactive, huses, hdecls⟩ := h.declared hxs
  obtain ⟨new', hsim', huses', hdecls'⟩ := hbody hactive
  refine ⟨new ++ new', ?_, ?_, ?_⟩
  · simpa using hsim.hide hsim'
  · intro u hu
    rw [← List.append_assoc]
    rcases List.mem_append.mp hu with hu | hu
    · exact (huses u hu).append new'
    · exact huses' u hu
  · simp [hdecls, hdecls']

/-- The variables of a loop, which are visible in its body only. -/
theorem loop (h : Follows r rows (lists ++ [p]) env σ) {kind : BindingKind}
    {xs : List (Name × Option Attrib)}
    (hxs : σ.declareNames kind (lists.length + 1) xs = some τ) {r' : Scoping} {ρ : Scopes}
    (hbody : ∀ {rows' lists'},
      Sim rows' lists' (env.extend (xs.map (.ofName kind p))) (τ.activate (xs.map (·.1))) →
      Follows r' rows' lists' (env.extend (xs.map (.ofName kind p))) ρ) :
    Follows (.declare env p [] kind xs r ++ r') rows lists env (τ.hide ρ) := by
  have hself : (σ.declareSelf false (lists.length + 1)).2.declareNames kind (lists.length + 1) xs
      = some τ := hxs
  exact h.parameters hself hbody

end Follows

mutual

/-- A name follows the pass by its lookup, and the other expressions by their parts. -/
theorem bindExpr_follows (e : Expr) {rows : List Row} {lists : List Pos} {env : Env}
    {σ τ : Scopes} (h : Sim rows lists env σ) (hb : bindExpr e σ = some τ) :
    Follows (scopeExpr env e) rows lists env τ := by
  cases e with
  | name n =>
    obtain ⟨new, hsim, hden, hnew⟩ := h.useName hb
    refine ⟨new, ?_, ?_, hnew⟩
    · simpa [scopeExpr] using hsim
    · intro u hu
      obtain rfl := List.mem_singleton.mp hu
      exact hden
  | function _ f => exact bindFunc_follows false f h hb
  | table _ fs => exact bindFields_follows fs h hb
  | binary _ _ l r =>
    obtain ⟨ρ, hl, hr⟩ := Option.bind_eq_some_iff.mp hb
    exact (bindExpr_follows l h hl).append fun h => bindExpr_follows r h hr
  | unary _ _ e => exact bindExpr_follows e h hb
  | paren _ e => exact bindExpr_follows e h hb
  | index _ o k =>
    obtain ⟨ρ, ho, hk⟩ := Option.bind_eq_some_iff.mp hb
    exact (bindExpr_follows o h ho).append fun h => bindExpr_follows k h hk
  | call _ f as =>
    obtain ⟨ρ, hf, ha⟩ := Option.bind_eq_some_iff.mp hb
    exact (bindExpr_follows f h hf).append fun h => bindExprs_follows as h ha
  | methodCall _ o _ as =>
    obtain ⟨ρ, ho, ha⟩ := Option.bind_eq_some_iff.mp hb
    exact (bindExpr_follows o h ho).append fun h => bindExprs_follows as h ha
  | _ =>
    cases hb
    exact .none h

theorem bindExprs_follows (es : List Expr) {rows : List Row} {lists : List Pos} {env : Env}
    {σ τ : Scopes} (h : Sim rows lists env σ) (hb : bindExprs es σ = some τ) :
    Follows (scopeExprs env es) rows lists env τ := by
  cases es with
  | nil =>
    cases hb
    exact .none h
  | cons e es =>
    obtain ⟨ρ, he, hes⟩ := Option.bind_eq_some_iff.mp hb
    exact (bindExpr_follows e h he).append fun h => bindExprs_follows es h hes

theorem bindExpr?_follows (e : Option Expr) {rows : List Row} {lists : List Pos} {env : Env}
    {σ τ : Scopes} (h : Sim rows lists env σ) (hb : bindExpr? e σ = some τ) :
    Follows (scopeExpr? env e) rows lists env τ := by
  cases e with
  | none =>
    cases hb
    exact .none h
  | some e => exact bindExpr_follows e h hb

theorem bindField_follows (f : TableField) {rows : List Row} {lists : List Pos} {env : Env}
    {σ τ : Scopes} (h : Sim rows lists env σ) (hb : bindField f σ = some τ) :
    Follows (scopeField env f) rows lists env τ := by
  obtain ⟨p, k, v⟩ := f
  obtain ⟨ρ, hk, hv⟩ := Option.bind_eq_some_iff.mp hb
  exact (bindExpr?_follows k h hk).append fun h => bindExpr_follows v h hv

theorem bindFields_follows (fs : List TableField) {rows : List Row} {lists : List Pos} {env : Env}
    {σ τ : Scopes} (h : Sim rows lists env σ) (hb : bindFields fs σ = some τ) :
    Follows (scopeFields env fs) rows lists env τ := by
  cases fs with
  | nil =>
    cases hb
    exact .none h
  | cons f fs =>
    obtain ⟨ρ, hf, hfs⟩ := Option.bind_eq_some_iff.mp hb
    exact (bindField_follows f h hf).append fun h => bindFields_follows fs h hfs

/-- The parameters are visible in the body of a function, and hidden after it. -/
theorem bindFunc_follows (isMethod : Bool) (f : FuncBody) {rows : List Row} {lists : List Pos}
    {env : Env} {σ τ : Scopes} (h : Sim rows lists env σ) (hb : bindFunc isMethod f σ = some τ) :
    Follows (scopeFunc env isMethod f) rows lists env τ := by
  obtain ⟨p, ps, v, b⟩ := f
  rw [bindFunc] at hb
  obtain ⟨ρ, hps, hbody⟩ := Option.bind_eq_some_iff.mp hb
  obtain ⟨ρ', hblock, rfl⟩ := Option.map_eq_some_iff.mp hbody
  rw [h.newScope_fst] at hps hblock
  refine (Follows.none (h.newScope p)).parameters hps ?_
  intro rows' lists' h'
  rw [map_fst_bare] at h'
  exact bindBlock_follows b h' hblock

/-- **The table of a block follows the pass over it.**  What the statements made visible is hidden at the
end, in the pass because it was not handed back. -/
theorem bindBlock_follows (b : Block) {rows : List Row} {lists : List Pos} {env : Env}
    {σ τ : Scopes} (h : Sim rows lists env σ) (hb : bindBlock b σ = some τ) :
    Follows (scopeBlock env b) rows lists env τ := by
  obtain ⟨p, ss⟩ := b
  obtain ⟨ρ, hss, rfl⟩ := Option.map_eq_some_iff.mp hb
  exact .hide h (bindStmts_follows ss h hss)

theorem bindBlock?_follows (b : Option Block) {rows : List Row} {lists : List Pos} {env : Env}
    {σ τ : Scopes} (h : Sim rows lists env σ) (hb : bindBlock? b σ = some τ) :
    Follows (scopeBlock? env b) rows lists env τ := by
  cases b with
  | none =>
    cases hb
    exact .none h
  | some b => exact bindBlock_follows b h hb

/-- What a statement declares is visible in those after it, for the reader and for the pass. -/
theorem bindStmts_follows (ss : List Stmt) {rows : List Row} {lists : List Pos} {env : Env}
    {σ τ : Scopes} (h : Sim rows lists env σ) (hb : bindStmts ss σ = some τ) :
    Follows (scopeStmts env ss) rows lists (env.after ss) τ := by
  cases ss with
  | nil =>
    cases hb
    exact .none h
  | cons s ss =>
    obtain ⟨ρ, hs, hss⟩ := Option.bind_eq_some_iff.mp hb
    exact (bindStmt_follows s h hs).append fun h => bindStmts_follows ss h hss

theorem bindClause_follows (c : IfClause) {rows : List Row} {lists : List Pos} {env : Env}
    {σ τ : Scopes} (h : Sim rows lists env σ) (hb : bindClause c σ = some τ) :
    Follows (scopeClause env c) rows lists env τ := by
  obtain ⟨p, e, b⟩ := c
  obtain ⟨ρ, he, hbody⟩ := Option.bind_eq_some_iff.mp hb
  exact (bindExpr_follows e h he).append fun h => bindBlock_follows b h hbody

theorem bindClauses_follows (cs : List IfClause) {rows : List Row} {lists : List Pos} {env : Env}
    {σ τ : Scopes} (h : Sim rows lists env σ) (hb : bindClauses cs σ = some τ) :
    Follows (scopeClauses env cs) rows lists env τ := by
  cases cs with
  | nil =>
    cases hb
    exact .none h
  | cons c cs =>
    obtain ⟨ρ, hc, hcs⟩ := Option.bind_eq_some_iff.mp hb
    exact (bindClause_follows c h hc).append fun h => bindClauses_follows cs h hcs

/-- A statement: the reader opens a scope where the pass has a list of declarations. -/
theorem bindStmt_follows (s : Stmt) {rows : List Row} {lists : List Pos} {env : Env}
    {σ τ : Scopes} (h : Sim rows lists env σ) (hb : bindStmt s σ = some τ) :
    Follows (scopeStmt env s) rows lists (env.extend s.declares) τ := by
  cases s with
  | «local» p ns as vs =>
    obtain ⟨ρ, hvs, hrest⟩ := Option.bind_eq_some_iff.mp hb
    obtain ⟨ρ', hns, rfl⟩ := Option.map_eq_some_iff.mp hrest
    rw [h.newScope_fst] at hns
    have hvisible := (bindExprs_follows vs (h.newScope p) hvs).visible hns
    rwa [map_fst_withAttribs] at hvisible
  | assign _ ts vs =>
    obtain ⟨ρ, hts, hvs⟩ := Option.bind_eq_some_iff.mp hb
    obtain ⟨ρ', hw, hvs⟩ := Option.bind_eq_some_iff.mp hvs
    exact ((bindExprs_follows ts h hts).writeTargets hw).append fun h => bindExprs_follows vs h hvs
  | call _ e => exact bindExpr_follows e h hb
  | «do» _ b => exact bindBlock_follows b h hb
  | «while» _ c b =>
    obtain ⟨ρ, hc, hbody⟩ := Option.bind_eq_some_iff.mp hb
    exact (bindExpr_follows c h hc).append fun h => bindBlock_follows b h hbody
  | «repeat» _ b c =>
    obtain ⟨p, ss⟩ := b
    obtain ⟨ρ, hρ, rfl⟩ := Option.map_eq_some_iff.mp hb
    obtain ⟨ρ', hss, hc⟩ := Option.bind_eq_some_iff.mp hρ
    exact .hide h ((bindStmts_follows ss h hss).append fun h => bindExpr_follows c h hc)
  | «if» _ cs o =>
    obtain ⟨ρ, hcs, ho⟩ := Option.bind_eq_some_iff.mp hb
    exact (bindClauses_follows cs h hcs).append fun h => bindBlock?_follows o h ho
  | numericFor p v a b c body =>
    obtain ⟨ρ₁, ha, hrest₁⟩ := Option.bind_eq_some_iff.mp hb
    obtain ⟨ρ₂, hstop, hrest₂⟩ := Option.bind_eq_some_iff.mp hrest₁
    obtain ⟨ρ₃, hc, hrest₃⟩ := Option.bind_eq_some_iff.mp hrest₂
    obtain ⟨ρ₄, hv, hrest₄⟩ := Option.bind_eq_some_iff.mp hrest₃
    obtain ⟨ρ₅, hbody, rfl⟩ := Option.map_eq_some_iff.mp hrest₄
    rw [h.newScope_fst] at hv
    have hheader := (bindExpr_follows a (h.newScope p) ha).append fun h =>
      (bindExpr_follows b h hstop).append fun h => bindExpr?_follows c h hc
    exact hheader.loop hv fun h => bindBlock_follows body h hbody
  | genericFor p ns vs body =>
    obtain ⟨ρ₁, hvs, hrest₁⟩ := Option.bind_eq_some_iff.mp hb
    obtain ⟨ρ₂, hns, hrest₂⟩ := Option.bind_eq_some_iff.mp hrest₁
    obtain ⟨ρ₃, hbody, rfl⟩ := Option.map_eq_some_iff.mp hrest₂
    rw [h.newScope_fst] at hns
    refine (bindExprs_follows vs (h.newScope p) hvs).loop hns ?_
    intro rows' lists' h'
    rw [map_fst_bare] at h'
    exact bindBlock_follows body h' hbody
  | function _ t f m =>
    obtain ⟨ρ, ht, hf⟩ := Option.bind_eq_some_iff.mp hb
    obtain ⟨ρ', hw, hf⟩ := Option.bind_eq_some_iff.mp hf
    exact ((bindExpr_follows t h ht).writeTargets hw).append fun h => bindFunc_follows m f h hf
  | localFunction p n f =>
    obtain ⟨ρ, hn, hf⟩ := Option.bind_eq_some_iff.mp hb
    rw [h.newScope_fst] at hn
    exact ((Follows.none (h.newScope p)).visible hn).append fun h => bindFunc_follows false f h hf
  | «return» _ vs => exact bindExprs_follows vs h hb
  | _ =>
    cases hb
    exact .none h

end

end LuaServer.Lua
