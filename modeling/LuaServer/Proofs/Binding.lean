/-
# What reading a tree does to the variables

The reader resolves names while it reads.  Which names it resolves, and in which order, depends on the
tree alone, so its effect on the scopes is a function of the tree: `bindBlock` and its companions go
through a tree in the order in which it was read and do what the reader did.  Each name is declared or
looked up again, and the result must be the binding that the tree carries; `none` means that some name
has another binding, that a constant is stored to, or that a target is no variable.

`Proofs/ReaderSound.lean` shows that the reader's own effect is this one.
-/
import LuaServer.Lua.Parser

namespace LuaServer.Lua

namespace Scopes

/-- A name that is used denotes what a look-up finds. -/
def useName (n : Name) (σ : Scopes) : Option Scopes :=
  if (σ.reference n.ident).1 = n then some (σ.reference n.ident).2 else none

/-- New locals of one declaration, each with the number that it gets. -/
def declareNames (kind : BindingKind) (scope : Nat) :
    List (Name × Option Attrib) → Scopes → Option Scopes
  | [], σ => some σ
  | (n, a) :: xs, σ =>
    if (σ.declare n.ident kind scope a).1 = n then
      declareNames kind scope xs (σ.declare n.ident kind scope a).2
    else none

/-- The plain names among the targets of an assignment are stored to. -/
def writeTargets : List Expr → Scopes → Option Scopes
  | [], σ => some σ
  | .name n :: ts, σ => (σ.write? n).bind (writeTargets ts)
  | .index _ _ _ :: ts, σ => writeTargets ts σ
  | _ :: _, _ => none

/-- Hides again what became visible since `outer`. -/
def hide (outer σ : Scopes) : Scopes := { σ with active := outer.active }

/-- A name that denotes what a look-up finds is what the look-up gives. -/
theorem reference_of_useName {n : Name} {σ τ : Scopes} (h : σ.useName n = some τ) :
    σ.reference n.ident = (n, τ) := by
  rw [useName] at h
  split at h
  case isFalse => cases h
  case isTrue heq =>
    cases h
    exact Prod.ext heq rfl

/-- A name that is used denotes the local that is visible, or else the global. -/
theorem useName_iff {n : Name} {σ τ : Scopes} :
    σ.useName n = some τ ↔
      (σ.visible? n.name = some n.binding ∧
        τ = σ.modify n.binding fun b => { b with reads := b.reads + 1 }) ∨
      (σ.visible? n.name = none ∧ (σ.global n.ident).1 = n.binding ∧
        τ = (σ.global n.ident).2.modify n.binding fun b => { b with reads := b.reads + 1 }) := by
  have hn : ∀ id, (⟨n.pos, n.name, id⟩ : Name) = n ↔ id = n.binding := by
    intro id
    exact ⟨fun h => congrArg Name.binding h, fun h => by rw [h]⟩
  cases hv : σ.visible? n.name with
  | some id =>
    have href : σ.reference n.ident
        = (⟨n.pos, n.name, id⟩, σ.modify id fun b => { b with reads := b.reads + 1 }) := by
      simp [reference, Name.ident, hv]
    simp only [useName, href, hn, Option.ite_none_right_eq_some, Option.some.injEq, reduceCtorEq,
      false_and, or_false]
    constructor
    all_goals
      rintro ⟨rfl, rfl⟩
      exact ⟨rfl, rfl⟩
  | none =>
    have href : σ.reference n.ident = (⟨n.pos, n.name, (σ.global n.ident).1⟩,
        (σ.global n.ident).2.modify (σ.global n.ident).1 fun b => { b with reads := b.reads + 1 }) := by
      simp [reference, Name.ident, hv]
    simp only [useName, href, hn, Option.ite_none_right_eq_some, Option.some.injEq, reduceCtorEq,
      false_and, false_or, true_and]
    constructor
    all_goals
      rintro ⟨hid, rfl⟩
      rw [hid]
      exact ⟨rfl, rfl⟩

/-- What is stored to is no constant, and the use that was counted as a read is a store. -/
theorem write?_iff {n : Name} {σ τ : Scopes} :
    σ.write? n = some τ ↔ (σ.bindings[n.binding]?).bind (·.attrib) = none ∧
      τ = σ.modify n.binding fun b => { b with reads := b.reads - 1, writes := b.writes + 1 } := by
  have hattrib : ((σ.modify n.binding fun b =>
        { b with reads := b.reads - 1, writes := b.writes + 1 }).bindings[n.binding]?).bind (·.attrib)
      = (σ.bindings[n.binding]?).bind (·.attrib) := by
    rw [modify, Array.getElem?_modify, if_pos rfl]
    cases σ.bindings[n.binding]? <;> rfl
  rw [write?, hattrib]
  cases (σ.bindings[n.binding]?).bind (·.attrib) <;> simp [eq_comm]

/-- The first name of a declaration has the number of the binding that is added for it. -/
theorem declareNames_cons {kind : BindingKind} {scope : Nat} {n : Name} {a : Option Attrib}
    {xs : List (Name × Option Attrib)} {σ τ : Scopes}
    (h : σ.declareNames kind scope ((n, a) :: xs) = some τ) :
    ∃ b : Binding, b = ⟨n.name, scope, kind, some n.pos, a, σ.visible? n.name, 0, 0⟩ ∧
      σ.declare n.ident kind scope a = (n, (σ.add b).2) ∧ (σ.add b).1 = n.binding ∧
      (σ.add b).2.declareNames kind scope xs = some τ := by
  rw [declareNames] at h
  split at h
  case isFalse => cases h
  case isTrue hn => exact ⟨_, rfl, Prod.ext hn rfl, congrArg Name.binding hn, h⟩

end Scopes

/-- Names without attributes. -/
def bare (ns : List Name) : List (Name × Option Attrib) := ns.map fun n => (n, none)

/-- Names with their attributes, as far as there are any. -/
def withAttribs : List Name → List (Option Attrib) → List (Name × Option Attrib)
  | [], _ => []
  | n :: ns, as => (n, as.head?.join) :: withAttribs ns as.tail

@[simp] theorem map_fst_bare (ns : List Name) : (bare ns).map (·.1) = ns := by
  simp [bare, Function.comp_def]

@[simp] theorem map_fst_withAttribs : ∀ (ns : List Name) (as : List (Option Attrib)),
    (withAttribs ns as).map (·.1) = ns
  | [], _ => rfl
  | n :: ns, as => by simp [withAttribs, map_fst_withAttribs ns]

theorem withAttribs_eq_zip : ∀ {ns : List Name} {as : List (Option Attrib)},
    ns.length = as.length → withAttribs ns as = ns.zip as
  | [], _, _ => rfl
  | n :: ns, [], h => by simp at h
  | n :: ns, a :: as, h => by
    have ih := withAttribs_eq_zip (Nat.succ.inj h)
    simp [withAttribs, ih]

theorem withAttribs_map (xs : List (Name × Option Attrib)) :
    withAttribs (xs.map (·.1)) (xs.map (·.2)) = xs := by
  induction xs with
  | nil => rfl
  | cons x xs ih => simp [withAttribs, ih]

mutual

/-- The names of an expression are resolved from left to right, those of a function in a scope of their
own. -/
def bindExpr : Expr → Scopes → Option Scopes
  | .name n, σ => σ.useName n
  | .nil _, σ | .boolean _ _, σ | .number _ _ _, σ | .string _ _, σ | .vararg _, σ => some σ
  | .function _ f, σ => bindFunc false f σ
  | .table _ fs, σ => bindFields fs σ
  | .binary _ _ l r, σ => (bindExpr l σ).bind (bindExpr r)
  | .unary _ _ e, σ => bindExpr e σ
  | .paren _ e, σ => bindExpr e σ
  | .index _ o k, σ => (bindExpr o σ).bind (bindExpr k)
  | .call _ f args, σ => (bindExpr f σ).bind (bindExprs args)
  | .methodCall _ o _ args, σ => (bindExpr o σ).bind (bindExprs args)

/-- Expressions, from left to right. -/
def bindExprs : List Expr → Scopes → Option Scopes
  | [], σ => some σ
  | e :: es, σ => (bindExpr e σ).bind (bindExprs es)

/-- An expression that may be left out. -/
def bindExpr? : Option Expr → Scopes → Option Scopes
  | none, σ => some σ
  | some e, σ => bindExpr e σ

/-- A field of a table, its key before its value. -/
def bindField : TableField → Scopes → Option Scopes
  | .mk _ k v, σ => (bindExpr? k σ).bind (bindExpr v)

/-- The fields of a table in their order. -/
def bindFields : List TableField → Scopes → Option Scopes
  | [], σ => some σ
  | f :: fs, σ => (bindField f σ).bind (bindFields fs)

/-- A function: its parameters, with `self` before those of a method, are visible in its body. -/
def bindFunc (isMethod : Bool) : FuncBody → Scopes → Option Scopes
  | .mk _ ps _ b, σ =>
    let scope := σ.newScope.1
    let self := σ.newScope.2.declareSelf isMethod scope
    (self.2.declareNames .param scope (bare ps)).bind fun τ =>
      (bindBlock b ((τ.activateSelf self.1).activate ps)).map τ.hide

/-- A block.  What its statements declare is hidden after it, but stays in the table. -/
def bindBlock : Block → Scopes → Option Scopes
  | .mk _ ss, σ => (bindStmts ss σ).map σ.hide

/-- The block after `else`, if there is one. -/
def bindBlock? : Option Block → Scopes → Option Scopes
  | none, σ => some σ
  | some b, σ => bindBlock b σ

/-- Statements in their order.  What they declare stays visible after them. -/
def bindStmts : List Stmt → Scopes → Option Scopes
  | [], σ => some σ
  | s :: ss, σ => (bindStmt s σ).bind (bindStmts ss)

/-- A condition and its block. -/
def bindClause : IfClause → Scopes → Option Scopes
  | .mk _ c b, σ => (bindExpr c σ).bind (bindBlock b)

/-- The clauses of an `if` in their order. -/
def bindClauses : List IfClause → Scopes → Option Scopes
  | [], σ => some σ
  | c :: cs, σ => (bindClause c σ).bind (bindClauses cs)

/-- A statement.  The scope of a declaration is opened before its values or its header are resolved, and
its names become visible after them; those of a `local function` before the body. -/
def bindStmt : Stmt → Scopes → Option Scopes
  | .local _ ns as vs, σ =>
    (bindExprs vs σ.newScope.2).bind fun τ =>
      (τ.declareNames .local σ.newScope.1 (withAttribs ns as)).map (·.activate ns)
  | .assign _ ts vs, σ =>
    (bindExprs ts σ).bind fun τ => (τ.writeTargets ts).bind (bindExprs vs)
  | .call _ e, σ => bindExpr e σ
  | .do _ b, σ => bindBlock b σ
  | .while _ c b, σ => (bindExpr c σ).bind (bindBlock b)
  | .repeat _ (.mk _ ss) c, σ =>
    -- the condition sees the locals of the body
    ((bindStmts ss σ).bind (bindExpr c)).map σ.hide
  | .if _ cs o, σ => (bindClauses cs σ).bind (bindBlock? o)
  | .numericFor _ v a b c body, σ =>
    (bindExpr a σ.newScope.2).bind fun τ => (bindExpr b τ).bind fun τ => (bindExpr? c τ).bind fun τ =>
      (τ.declareNames .loop σ.newScope.1 (bare [v])).bind fun τ =>
        (bindBlock body (τ.activate [v])).map τ.hide
  | .genericFor _ ns vs body, σ =>
    (bindExprs vs σ.newScope.2).bind fun τ =>
      (τ.declareNames .loop σ.newScope.1 (bare ns)).bind fun τ =>
        (bindBlock body (τ.activate ns)).map τ.hide
  | .function _ t f m, σ =>
    (bindExpr t σ).bind fun τ => (τ.writeTargets [t]).bind (bindFunc m f)
  | .localFunction _ n f, σ =>
    (σ.newScope.2.declareNames .function σ.newScope.1 (bare [n])).bind fun τ =>
      bindFunc false f (τ.activate [n])
  | .return _ vs, σ => bindExprs vs σ
  | .break _, σ | .goto _ _, σ | .label _ _, σ => some σ

end

/-- A `return` binds what its values bind. -/
theorem bindStmts_return (pos : Pos) (vs : List Expr) (σ : Scopes) :
    bindStmts [.return pos vs] σ = bindExprs vs σ := by
  simp [bindStmts, bindStmt]

end LuaServer.Lua
