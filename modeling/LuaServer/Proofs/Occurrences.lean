/-
# The identifiers of a tree and their tokens

The identifiers of a tree, in the order of the walk over its nodes, are those of the tokens that were
read, in the order of the text: no token gives rise to two of them, and none gets lost.

Main result: `Reads.idents`.
-/
import LuaServer.Proofs.Grammar

namespace LuaServer.Lua

/-! ## 1. Identifiers of nodes and of marks -/

/-- The identifiers among nodes. -/
def namesIn (ns : List Node) : List Name := ns.filterMap Node.name?

@[simp] theorem namesIn_nil : namesIn [] = [] := rfl

@[simp] theorem namesIn_append (a b : List Node) : namesIn (a ++ b) = namesIn a ++ namesIn b :=
  List.filterMap_append

@[simp] theorem namesIn_declared (ns : List Name) : namesIn (ns.map .declared) = ns := by
  simp [namesIn, List.filterMap_map, Function.comp_def, Node.name?]

@[simp] theorem namesIn_map_declared {α : Type} (f : α → Name) (xs : List α) :
    namesIn (xs.map (Node.declared ∘ f)) = xs.map f := by
  rw [← List.map_map, namesIn_declared]

@[simp] theorem namesIn_cons_declared (n : Name) (ns : List Node) :
    namesIn (.declared n :: ns) = n :: namesIn ns := rfl

@[simp] theorem namesIn_cons_stmt (s : Stmt) (ns : List Node) :
    namesIn (.stmt s :: ns) = namesIn ns := rfl

@[simp] theorem namesIn_cons_block (b : Block) (ns : List Node) :
    namesIn (.block b :: ns) = namesIn ns := rfl

@[simp] theorem namesIn_cons_clause (c : IfClause) (ns : List Node) :
    namesIn (.clause c :: ns) = namesIn ns := rfl

@[simp] theorem namesIn_cons_field (f : TableField) (ns : List Node) :
    namesIn (.field f :: ns) = namesIn ns := rfl

@[simp] theorem namesIn_cons_func (f : FuncBody) (ns : List Node) :
    namesIn (.func f :: ns) = namesIn ns := rfl

@[simp] theorem namesIn_cons_expr (e : Expr) (ns : List Node) :
    namesIn (.expr e :: ns) = e.name?.toList ++ namesIn ns := by
  rw [namesIn, List.filterMap_cons]
  cases h : e.name? <;> simp [Node.name?, h, namesIn]

/-- The identifiers that tokens became. -/
def idents (ms : List Mark) : List Name := ms.filterMap Mark.ident

@[simp] theorem idents_nil : idents [] = [] := rfl

@[simp] theorem idents_plain (t : Token) (ms : List Mark) : idents (.plain t :: ms) = idents ms := rfl

@[simp] theorem idents_named (t : Token) (n : Name) (ms : List Mark) :
    idents (.named t n :: ms) = n :: idents ms := rfl

@[simp] theorem idents_append (ms ns : List Mark) : idents (ms ++ ns) = idents ms ++ idents ns :=
  List.filterMap_append

/-! ## 2. Lists of names -/

section
variable {ts next : List Token} {ms : List Mark}

theorem Optional.idents_eq {k : Kind} (h : Optional k ts ms next) : idents ms = [] := by
  cases h <;> rfl

/-- Names that are listed are all identifiers. -/
theorem Names.idents_eq {ns : List Name} (h : Names ns ts ms next) : idents ms = ns := by
  induction h <;> simp [*]

/-- An attribute is no identifier. -/
theorem Attributes.idents_eq {a : Option Attrib} (h : Attributes a ts ms next) : idents ms = [] := by
  cases h <;> rfl

/-- Of the names of a `local` statement, those of attributes are none. -/
theorem Locals.idents_eq {xs : List (Name × Option Attrib)} (h : Locals xs ts ms next) :
    idents ms = xs.map (·.1) := by
  induction h with
  | last _ ha _ => simp [ha.idents_eq]
  | cons _ ha _ _ ih => simp [ha.idents_eq, ih]

/-- Parameters are identifiers, an ellipsis is none. -/
theorem Params.idents_eq {ns : List Name} {more : Bool} (h : Params ns more ts ms next) :
    idents ms = ns := by
  induction h <;> simp [*]

theorem ParamList.idents_eq {ns : List Name} {more : Bool} (h : ParamList ns more ts ms next) :
    idents ms = ns := by
  cases h with
  | empty _ => rfl
  | some _ h => exact h.idents_eq

/-- The fields after the name of a function statement are no identifiers. -/
theorem Path.idents_eq {e r : Expr} {m : Bool} (h : Path e r m ts ms next) :
    namesIn (walkExpr r) = namesIn (walkExpr e) ++ idents ms := by
  induction h with
  | done => simp
  | method => simp [walkExpr, Expr.name?]
  | field _ _ _ ih => simpa [walkExpr, Expr.name?] using ih

end

/-! ## 3. The forms of the language -/

/-- The identifiers of a part of a program are those of its tokens.  Where the part begins with an
expression that was already read, that expression has its own tokens. -/
def Item.Idents : Item → List Mark → Prop
  | .block b, ms => namesIn (walkBlock b) = idents ms
  | .stmts ss, ms => namesIn (walkStmts ss) = idents ms
  | .stmt s, ms => namesIn (walkStmt s) = idents ms
  | .clause c, ms => namesIn (walkClauses [c]) = idents ms
  | .elses cs, ms => namesIn (walkClauses cs) = idents ms
  | .orelse b, ms => namesIn (walkBlock? b) = idents ms
  | .step e, ms => namesIn (walkExpr? e) = idents ms
  | .func f, ms => namesIn (walkFunc f) = idents ms
  | .initial es, ms | .targets es, ms | .exprs es, ms | .args es, ms =>
    namesIn (walkExprs es) = idents ms
  | .expr _ e, ms | .simple e, ms | .suffixed e, ms | .table e, ms => namesIn (walkExpr e) = idents ms
  | .operators _ l e, ms | .suffixes l e, ms =>
    namesIn (walkExpr e) = namesIn (walkExpr l) ++ idents ms
  | .fields fs, ms => namesIn (walkFields fs) = idents ms
  | .field f, ms => namesIn (walkFields [f]) = idents ms

/-- **Every part of a program has the identifiers of its tokens, in their order.** -/
theorem Reads.idents {item : Item} {ts next : List Token} {ms : List Mark}
    (h : Reads item ts ms next) : item.Idents ms := by
  induction h with
  | returnNone _ _ ho => simp [Item.Idents, walkStmts, walkStmt, walkExprs, ho.idents_eq]
  | returnSome _ _ _ _ ho ih => simp_all [Item.Idents, walkStmts, walkStmt, ho.idents_eq]
  | «if» _ _ _ _ _ ih₁ ih₂ ih₃ =>
    simp only [Item.Idents, walkStmt, namesIn_cons_stmt, namesIn_append] at ih₁ ih₂ ih₃ ⊢
    rw [walkClauses_cons, namesIn_append, ih₁, ih₂, ih₃]
    simp
  | elsesCons _ _ _ ih₁ ih₂ =>
    simp only [Item.Idents] at ih₁ ih₂ ⊢
    rw [walkClauses_cons, namesIn_append, ih₁, ih₂]
    simp
  | fieldsCons _ _ _ _ ih₁ ih₂ =>
    simp only [Item.Idents] at ih₁ ih₂ ⊢
    rw [walkFields_cons, namesIn_append, ih₁, ih₂]
    simp
  | genericFor _ hns _ _ _ _ _ ih₁ ih₂ => simp_all [Item.Idents, walkStmt, hns.idents_eq]
  | functionStat _ _ hp _ ih => simp_all [Item.Idents, walkStmt, walkExpr, Expr.name?, hp.idents_eq]
  | «local» _ hxs _ ih => simp_all [Item.Idents, walkStmt, hxs.idents_eq]
  | func _ hps _ _ _ ih => simp_all [Item.Idents, walkFunc, hps.idents_eq]
  | _ =>
    simp_all [Item.Idents, walkBlock, walkBlock?, walkStmts, walkStmt, walkClauses, walkExprs,
      walkExpr?, walkFields, walkExpr, Expr.name?]

/-! ## 4. Tokens that became identifiers -/

/-- Every identifier is written by its token. -/
def Written (ms : List Mark) : Prop := ∀ m ∈ ms, ∀ n ∈ m.ident, m.tok.writes n

@[simp] theorem written_nil : Written [] := by simp [Written]

@[simp] theorem written_plain (t : Token) (ms : List Mark) :
    Written (.plain t :: ms) ↔ Written ms := by
  simp [Written, Mark.plain]

@[simp] theorem written_named (t : Token) (n : Name) (ms : List Mark) :
    Written (.named t n :: ms) ↔ t.writes n ∧ Written ms := by
  simp [Written, Mark.named]

@[simp] theorem written_append (ms ns : List Mark) :
    Written (ms ++ ns) ↔ Written ms ∧ Written ns := by
  simp [Written, or_imp, forall_and]

section
variable {ts next : List Token} {ms : List Mark}

theorem Optional.written {k : Kind} (h : Optional k ts ms next) : Written ms := by
  cases h <;> simp

/-- Each of the names is what its token writes. -/
theorem Names.written {ns : List Name} (h : Names ns ts ms next) : Written ms := by
  induction h <;> simp [*]

theorem Attributes.written {a : Option Attrib} (h : Attributes a ts ms next) : Written ms := by
  cases h <;> simp

/-- The same for a `local` statement, of whose attributes none became an identifier. -/
theorem Locals.written {xs : List (Name × Option Attrib)} (h : Locals xs ts ms next) :
    Written ms := by
  induction h with
  | last hv ha _ => simp [hv, ha.written]
  | cons hv ha _ _ ih => simp [hv, ha.written, ih]

theorem Params.written {ns : List Name} {more : Bool} (h : Params ns more ts ms next) :
    Written ms := by
  induction h <;> simp [*]

theorem ParamList.written {ns : List Name} {more : Bool} (h : ParamList ns more ts ms next) :
    Written ms := by
  cases h with
  | empty _ => simp
  | some _ h => exact h.written

/-- After the name of a function statement no token becomes an identifier. -/
theorem Path.written {e r : Expr} {m : Bool} (h : Path e r m ts ms next) : Written ms := by
  induction h <;> simp [*]

/-- **Every identifier of a derivation is the name that its token writes, and stands at its place.** -/
theorem Reads.written {item : Item} (h : Reads item ts ms next) : Written ms := by
  induction h with
  | returnNone _ _ ho => simp [ho.written]
  | returnSome _ _ _ _ ho ih => simp [ih, ho.written]
  | genericFor _ hns _ _ _ _ _ ih₁ ih₂ => simp [hns.written, ih₁, ih₂]
  | functionStat _ _ hp _ ih => simp_all [hp.written]
  | «local» _ hxs _ ih => simp [hxs.written, ih]
  | func _ hps _ _ _ ih => simp [hps.written, ih]
  | _ => simp_all

end

end LuaServer.Lua
