/-
# The steps of the checker and the tree

Every step of the checker is for a node of the tree: it looks at nodes of the tree only, and the stores
that it makes are those of the tree.

What a node stores is said here by the value that a variable receives (`Stored`).  The table of classes
from which the checker tells whether the stores of a binding agree is made from these (`stores_eq`).

What a step reports is told once, by the cases of `CheckEnv.About`; that a report stands at a token, that
it can be shown and what it says of types all follow from there.

Main results: `blockEvents_of`, `check_report`.
-/
import LuaServer.Lua.Checker

namespace LuaServer.Lua

/-! ## 1. Stores -/

/-- What a store puts into a variable. -/
inductive Stored where
  | value (e : Expr)
  /-- A further value of the expression that ends a list, of which the number of values is open. -/
  | further
  /-- Nothing, which is nil: the list of values is too short. -/
  | missing
  /-- Nothing at all: there are no values. -/
  | unset
  | function (f : FuncBody)

/-- The class of what is stored, if it does not depend on bindings. -/
def Stored.base? : Stored → Option Base
  | .value e => e.base?
  | .further => none
  | .missing | .unset => some .nil
  | .function _ => some .function

/-- The type of what is stored.  A variable without any value is one of which nothing is known yet. -/
def CheckEnv.storedType (env : CheckEnv) (types : Types) : Stored → Ty
  | .value e => env.infer types e
  | .further | .unset => .any
  | .missing => .nil
  | .function f => .ofFunc f

/-- What a list of values stores at an index. -/
def storedAt (values : List Expr) (index : Nat) : Stored :=
  match values[index]? with
  | some e => .value e
  | none => if values.isEmpty then .unset else if endsOpen values then .further else .missing

/-- What a list of names or targets receives from a list of values, from the given index on. -/
def received (values : List Expr) : Nat → List (Option Name) → List (Name × Stored)
  | _, [] => []
  | i, none :: ts => received values (i + 1) ts
  | i, some n :: ts => (n, storedAt values i) :: received values (i + 1) ts

/-- The stores that a node makes to plain names. -/
def Node.storing : Node → List (Name × Stored)
  | .stmt (.local _ ns _ vs) => received vs 0 (ns.map some)
  | .stmt (.assign _ ts vs) => received vs 0 (ts.map Expr.name?)
  | .stmt (.localFunction _ n f) => [(n, .function f)]
  | .stmt (.function _ (.name n) f _) => [(n, .function f)]
  | _ => []

/-- The stores that nodes make. -/
def storingIn (ns : List Node) : List (Name × Stored) := ns.flatMap Node.storing

/-- The stores that a chunk makes to plain names. -/
def Chunk.storing (c : Chunk) : List (Name × Stored) := storingIn c.walk

/-- What a chunk stores in a binding, in the order of the text. -/
def Chunk.storesTo (c : Chunk) (id : BindingId) : List Stored :=
  (c.storing.filter fun x => x.1.binding = id).map (·.2)

/-- The class of a stored value is told from the value that the variable receives. -/
theorem base?_storedAt (values : List Expr) (index : Nat) :
    (storedAt values index).base? = storedBase? values index := by
  rw [storedAt, storedBase?]
  cases values[index]? with
  | some e => rfl
  | none =>
    cases values with
    | nil => rfl
    | cons v vs =>
      dsimp only [List.isEmpty_cons]
      rw [if_neg Bool.false_ne_true]
      split <;> rfl

/-- The table of stores lists what each of the targets receives. -/
theorem storesOf_eq (values : List Expr) : ∀ (i : Nat) (ts : List (Option Name)),
    storesOf values i ts = (received values i ts).map fun x => (x.1.binding, x.2.base?)
  | _, [] => rfl
  | i, none :: ts => storesOf_eq values (i + 1) ts
  | i, some n :: ts => by
    simp [storesOf, received, base?_storedAt, storesOf_eq values (i + 1) ts]

/-- The table of classes is that of what is stored. -/
theorem stores_eq (nd : Node) : nd.stores = nd.storing.map fun x => (x.1.binding, x.2.base?) := by
  unfold Node.stores
  split
  · exact storesOf_eq _ 0 _
  · exact storesOf_eq _ 0 _
  · rfl
  · rfl
  · next h₁ h₂ h₃ h₄ =>
    unfold Node.storing
    split
    · exact absurd rfl (h₁ _ _ _ _)
    · exact absurd rfl (h₂ _ _ _)
    · exact absurd rfl (h₃ _ _ _)
    · exact absurd rfl (h₄ _ _ _ _)
    · rfl

/-- The classes of what is stored in a binding. -/
theorem storedIn_eq (c : Chunk) (id : BindingId) :
    storedIn c.stores id = (c.storesTo id).map Stored.base? := by
  have hstores : c.stores = c.storing.map fun x => (x.1.binding, x.2.base?) := by
    rw [Chunk.stores, Chunk.storing, storingIn, List.map_flatMap]
    exact congrArg (List.flatMap · c.walk) (funext stores_eq)
  simp [storedIn, Chunk.storesTo, hstores, List.filter_map, Function.comp_def]

/-! ## 2. Steps -/

/-- The nodes that an event looks at. -/
def Event.nodes : Event → List Node
  | .visit (.chunk _) => []
  | .visit (.block b) => walkBlock b
  | .visit (.stmt s) => walkStmt s
  | .visit (.clause c) => walkClauses [c]
  | .visit (.expr e) => walkExpr e
  | .visit (.field f) => walkFields [f]
  | .visit (.func f) => walkFunc f
  | .visit (.declared n) => [.declared n]
  | .store n _ vs => .expr (.name n) :: walkExprs vs
  | .storeFunction n f => .expr (.name n) :: walkFunc f

/-- The stores that an event makes. -/
def Event.storing : Event → List (Name × Stored)
  | .visit (.stmt (.local _ ns _ vs)) => received vs 0 (ns.map some)
  | .visit (.stmt (.localFunction _ n f)) => [(n, .function f)]
  | .store n i vs => [(n, storedAt vs i)]
  | .storeFunction n f => [(n, .function f)]
  | _ => []

/-- An event looks at the nodes `ns` only, and makes no stores but theirs. -/
structure Event.Of (ns : List Node) (ev : Event) : Prop where
  nodes : ev.nodes ⊆ ns
  storing : ev.storing ⊆ storingIn ns

/-- All of the events are for the nodes `ns`. -/
def StepsOf (ns : List Node) (es : List Event) : Prop := ∀ ev ∈ es, ev.Of ns

section
variable {ms ns : List Node} {es fs : List Event} {ev : Event}

@[simp] theorem stepsOf_nil : StepsOf ns [] := by simp [StepsOf]

@[simp] theorem stepsOf_cons : StepsOf ns (ev :: es) ↔ ev.Of ns ∧ StepsOf ns es := by simp [StepsOf]

@[simp] theorem stepsOf_append : StepsOf ns (es ++ fs) ↔ StepsOf ns es ∧ StepsOf ns fs := by
  simp [StepsOf, or_imp, forall_and]

/-- Steps of a part are steps of the whole. -/
theorem StepsOf.mono (h : StepsOf ms es) (hle : ms ⊆ ns) : StepsOf ns es := by
  intro ev hev
  obtain ⟨hnodes, hstoring⟩ := h ev hev
  refine ⟨fun nd hnd => hle (hnodes hnd), fun x hx => ?_⟩
  obtain ⟨nd, hnd, hx⟩ := List.mem_flatMap.mp (hstoring hx)
  exact List.mem_flatMap.mpr ⟨nd, hle hnd, hx⟩

/-- Steps for what follows a node. -/
theorem StepsOf.under (h : StepsOf ns es) (nd : Node) : StepsOf (nd :: ns) es :=
  h.mono (List.subset_cons_self nd ns)

/-- A step that makes no stores. -/
theorem Event.Of.of_nodes (hnodes : ev.nodes ⊆ ns) (hstoring : ev.storing = []) : ev.Of ns :=
  ⟨hnodes, by simp [hstoring]⟩

/-- The rule of a statement. -/
theorem Event.Of.stmt {s : Stmt} (h : (Event.visit (.stmt s)).storing ⊆ (Node.stmt s).storing) :
    (Event.visit (.stmt s)).Of (walkStmt s) := by
  refine ⟨List.Subset.refl _, fun x hx => List.mem_flatMap.mpr ⟨.stmt s, ?_, h hx⟩⟩
  rw [walkStmt.eq_def]
  exact List.mem_cons_self

end

mutual

/-- The steps of an expression look at its nodes. -/
theorem exprEvents_of : ∀ e : Expr, StepsOf (walkExpr e) (exprEvents e)
  | .name _ | .nil _ | .boolean _ _ | .number _ _ _ | .string _ _ | .vararg _ =>
    stepsOf_cons.mpr ⟨.of_nodes (List.Subset.refl _) rfl, stepsOf_nil⟩
  | .function _ f =>
    stepsOf_cons.mpr ⟨.of_nodes (List.Subset.refl _) rfl, (funcEvents_of f).under _⟩
  | .table _ fs =>
    stepsOf_cons.mpr ⟨.of_nodes (List.Subset.refl _) rfl, (fieldsEvents_of fs).under _⟩
  | .binary _ _ l r => by
    simp only [exprEvents, stepsOf_append, stepsOf_cons, stepsOf_nil, and_true]
    refine ⟨⟨(exprEvents_of l).mono fun nd hnd => ?_, (exprEvents_of r).mono fun nd hnd => ?_⟩,
      .of_nodes (List.Subset.refl _) rfl⟩
    · simp [walkExpr, hnd]
    · simp [walkExpr, hnd]
  | .unary _ _ x => by
    simp only [exprEvents, stepsOf_append, stepsOf_cons, stepsOf_nil, and_true]
    exact ⟨(exprEvents_of x).under _, .of_nodes (List.Subset.refl _) rfl⟩
  | .paren _ x =>
    stepsOf_cons.mpr ⟨.of_nodes (List.Subset.refl _) rfl, (exprEvents_of x).under _⟩
  | .index _ o k => by
    simp only [exprEvents, List.cons_append, stepsOf_append, stepsOf_cons]
    refine ⟨.of_nodes (List.Subset.refl _) rfl, (exprEvents_of o).mono fun nd hnd => ?_,
      (exprEvents_of k).mono fun nd hnd => ?_⟩
    · simp [walkExpr, hnd]
    · simp [walkExpr, hnd]
  | .call _ f as => by
    simp only [exprEvents, stepsOf_append, stepsOf_cons, stepsOf_nil, and_true]
    refine ⟨⟨(exprEvents_of f).mono fun nd hnd => ?_, (exprsEvents_of as).mono fun nd hnd => ?_⟩,
      .of_nodes (List.Subset.refl _) rfl⟩
    · simp [walkExpr, hnd]
    · simp [walkExpr, hnd]
  | .methodCall _ o _ as => by
    simp only [exprEvents, List.cons_append, stepsOf_append, stepsOf_cons]
    refine ⟨.of_nodes (List.Subset.refl _) rfl, (exprEvents_of o).mono fun nd hnd => ?_,
      (exprsEvents_of as).mono fun nd hnd => ?_⟩
    · simp [walkExpr, hnd]
    · simp [walkExpr, hnd]

theorem exprsEvents_of : ∀ es : List Expr, StepsOf (walkExprs es) (exprsEvents es)
  | [] => stepsOf_nil
  | e :: es => stepsOf_append.mpr ⟨(exprEvents_of e).mono (List.subset_append_left _ _),
      (exprsEvents_of es).mono (List.subset_append_right _ _)⟩

theorem expr?Events_of : ∀ e : Option Expr, StepsOf (walkExpr? e) (expr?Events e)
  | none => stepsOf_nil
  | some e => exprEvents_of e

theorem fieldsEvents_of : ∀ fs : List TableField, StepsOf (walkFields fs) (fieldsEvents fs)
  | [] => stepsOf_nil
  | .mk _ k v :: fs => by
    simp only [fieldsEvents, List.cons_append, List.append_assoc, stepsOf_append, stepsOf_cons]
    refine ⟨.of_nodes (fun nd hnd => ?_) rfl, (expr?Events_of k).mono fun nd hnd => ?_,
      (exprEvents_of v).mono fun nd hnd => ?_, (fieldsEvents_of fs).mono fun nd hnd => ?_⟩
    · simp only [Event.nodes, walkFields, List.append_nil] at hnd
      exact List.mem_append_left _ hnd
    · simp [walkFields, hnd]
    · simp [walkFields, hnd]
    · simp [walkFields, hnd]

/-- The steps of a function look at its parameters and at its body. -/
theorem funcEvents_of : ∀ f : FuncBody, StepsOf (walkFunc f) (funcEvents f)
  | .mk _ ps _ b => by
    refine stepsOf_cons.mpr ⟨.of_nodes (List.Subset.refl _) rfl, (blockEvents_of b).mono fun nd hnd => ?_⟩
    simp [walkFunc, hnd]

/-- **The steps for a block are for its nodes.** -/
theorem blockEvents_of : ∀ b : Block, StepsOf (walkBlock b) (blockEvents b)
  | .mk _ ss => stepsOf_cons.mpr ⟨.of_nodes (List.Subset.refl _) rfl, (stmtsEvents_of ss).under _⟩

theorem block?Events_of : ∀ b : Option Block, StepsOf (walkBlock? b) (block?Events b)
  | none => stepsOf_nil
  | some b => blockEvents_of b

theorem stmtsEvents_of : ∀ ss : List Stmt, StepsOf (walkStmts ss) (stmtsEvents ss)
  | [] => stepsOf_nil
  | s :: ss => stepsOf_append.mpr ⟨(stmtEvents_of s).mono (List.subset_append_left _ _),
      (stmtsEvents_of ss).mono (List.subset_append_right _ _)⟩

theorem clausesEvents_of : ∀ cs : List IfClause, StepsOf (walkClauses cs) (clausesEvents cs)
  | [] => stepsOf_nil
  | .mk _ c b :: cs => by
    simp only [clausesEvents, List.cons_append, List.append_assoc, stepsOf_append, stepsOf_cons]
    refine ⟨.of_nodes (fun nd hnd => ?_) rfl, (exprEvents_of c).mono fun nd hnd => ?_,
      (blockEvents_of b).mono fun nd hnd => ?_, (clausesEvents_of cs).mono fun nd hnd => ?_⟩
    · simp only [Event.nodes, walkClauses, List.append_nil] at hnd
      exact List.mem_append_left _ hnd
    · simp [walkClauses, hnd]
    · simp [walkClauses, hnd]
    · simp [walkClauses, hnd]

/-- The targets of an assignment from an index on. -/
theorem targetsEvents_of {vs : List Expr} {ns : List Node} : ∀ (i : Nat) (ts : List Expr),
    walkExprs ts ⊆ ns → walkExprs vs ⊆ ns → received vs i (ts.map Expr.name?) ⊆ storingIn ns →
      StepsOf ns (targetsEvents vs i ts)
  | _, [], _, _, _ => stepsOf_nil
  | i, t :: ts, hts, hvs, hstores => by
    obtain ⟨ht, hrest⟩ : walkExpr t ⊆ ns ∧ walkExprs ts ⊆ ns := List.append_subset.mp hts
    have hexpr := (exprEvents_of t).mono ht
    cases t with
    | name n =>
      obtain ⟨hstore, hstores⟩ := List.cons_subset.mp hstores
      refine stepsOf_cons.mpr ⟨⟨List.cons_subset.mpr ⟨ht List.mem_cons_self, hvs⟩, ?_⟩,
        targetsEvents_of (i + 1) ts hrest hvs hstores⟩
      exact List.cons_subset.mpr ⟨hstore, List.nil_subset _⟩
    | _ => exact stepsOf_append.mpr ⟨hexpr, targetsEvents_of (i + 1) ts hrest hvs hstores⟩

/-- The steps of a statement make its stores. -/
theorem stmtEvents_of (s : Stmt) : StepsOf (walkStmt s) (stmtEvents s) := by
  have hself := @Event.Of.stmt s
  cases s with
  | «local» _ ns _ vs =>
    simp only [stmtEvents, stepsOf_append, stepsOf_cons, stepsOf_nil, and_true]
    refine ⟨(exprsEvents_of vs).mono fun nd hnd => ?_, hself (List.Subset.refl _)⟩
    simp [walkStmt, hnd]
  | assign p ts vs =>
    simp only [stmtEvents, List.cons_append, stepsOf_append, stepsOf_cons]
    have hvs : walkExprs vs ⊆ walkStmt (.assign p ts vs) := fun nd hnd => by simp [walkStmt, hnd]
    have hts : walkExprs ts ⊆ walkStmt (.assign p ts vs) := fun nd hnd => by simp [walkStmt, hnd]
    refine ⟨hself (List.nil_subset _), (exprsEvents_of vs).mono hvs, targetsEvents_of 0 ts hts hvs ?_⟩
    exact List.subset_append_left _ _
  | call _ e => exact stepsOf_cons.mpr ⟨hself (List.nil_subset _), (exprEvents_of e).under _⟩
  | «do» _ b => exact stepsOf_cons.mpr ⟨hself (List.nil_subset _), (blockEvents_of b).under _⟩
  | «while» _ c b =>
    simp only [stmtEvents, List.cons_append, stepsOf_append, stepsOf_cons]
    refine ⟨hself (List.nil_subset _), (exprEvents_of c).mono fun nd hnd => ?_,
      (blockEvents_of b).mono fun nd hnd => ?_⟩
    · simp [walkStmt, hnd]
    · simp [walkStmt, hnd]
  | «repeat» _ b c =>
    simp only [stmtEvents, List.cons_append, stepsOf_append, stepsOf_cons]
    refine ⟨hself (List.nil_subset _), (blockEvents_of b).mono fun nd hnd => ?_,
      (exprEvents_of c).mono fun nd hnd => ?_⟩
    · simp [walkStmt, hnd]
    · simp [walkStmt, hnd]
  | «if» _ cs o =>
    simp only [stmtEvents, List.cons_append, stepsOf_append, stepsOf_cons]
    refine ⟨hself (List.nil_subset _), (clausesEvents_of cs).mono fun nd hnd => ?_,
      (block?Events_of o).mono fun nd hnd => ?_⟩
    · simp [walkStmt, hnd]
    · simp [walkStmt, hnd]
  | numericFor _ _ a b c body =>
    simp only [stmtEvents, stepsOf_append, stepsOf_cons]
    refine ⟨⟨⟨(exprEvents_of a).mono fun nd hnd => ?_, (exprEvents_of b).mono fun nd hnd => ?_⟩,
      (expr?Events_of c).mono fun nd hnd => ?_⟩, hself (List.nil_subset _),
      (blockEvents_of body).mono fun nd hnd => ?_⟩
    · simp [walkStmt, hnd]
    · simp [walkStmt, hnd]
    · simp [walkStmt, hnd]
    · simp [walkStmt, hnd]
  | genericFor _ ns vs body =>
    simp only [stmtEvents, stepsOf_append, stepsOf_cons]
    refine ⟨(exprsEvents_of vs).mono fun nd hnd => ?_, hself (List.nil_subset _),
      (blockEvents_of body).mono fun nd hnd => ?_⟩
    · simp [walkStmt, hnd]
    · simp [walkStmt, hnd]
  | function p t f m =>
    have hf : walkFunc f ⊆ walkStmt (.function p t f m) := fun nd hnd => by simp [walkStmt, hnd]
    have ht : walkExpr t ⊆ walkStmt (.function p t f m) := fun nd hnd => by simp [walkStmt, hnd]
    have hbody := (funcEvents_of f).mono hf
    have htarget := (exprEvents_of t).mono ht
    cases t with
    | name n =>
      refine stepsOf_cons.mpr ⟨hself (List.nil_subset _), stepsOf_cons.mpr ⟨⟨?_, ?_⟩, hbody⟩⟩
      · exact List.cons_subset.mpr ⟨ht List.mem_cons_self, hf⟩
      · exact List.subset_append_left _ _
    | _ => exact stepsOf_cons.mpr ⟨hself (List.nil_subset _), stepsOf_append.mpr ⟨htarget, hbody⟩⟩
  | localFunction _ n f =>
    refine stepsOf_cons.mpr ⟨hself (List.Subset.refl _), (funcEvents_of f).mono fun nd hnd => ?_⟩
    simp [walkStmt, hnd]
  | «return» _ vs => exact stepsOf_cons.mpr ⟨hself (List.nil_subset _), (exprsEvents_of vs).under _⟩
  | _ => exact stepsOf_cons.mpr ⟨hself (List.nil_subset _), stepsOf_nil⟩

end

/-- The steps for a chunk are for its nodes. -/
theorem Chunk.events_of (c : Chunk) : StepsOf c.walk c.events :=
  stepsOf_cons.mpr ⟨.of_nodes (List.nil_subset _) rfl, (blockEvents_of c.body).under _⟩

/-- A statement that is visited is one of the chunk. -/
theorem Chunk.stmt_of_event {c : Chunk} {s : Stmt} (h : .visit (.stmt s) ∈ c.events) : .stmt s ∈ c.walk := by
  refine (c.events_of _ h).nodes ?_
  rw [Event.nodes, walkStmt.eq_def]
  exact List.mem_cons_self

/-- So is a function. -/
theorem Chunk.func_of_event {c : Chunk} {f : FuncBody} (h : .visit (.func f) ∈ c.events) :
    .func f ∈ c.walk := by
  refine (c.events_of _ h).nodes ?_
  rw [Event.nodes, walkFunc.eq_def]
  split
  exact List.mem_cons_self

/-! ## 3. Reports -/

/-- The expressions of which a step looks at the types. -/
def Event.operands : Event → List Expr
  | .visit (.expr (.binary _ _ l r)) => [l, r]
  | .visit (.expr (.unary _ _ e)) => [e]
  | .visit (.expr (.call _ f _)) => [f]
  | _ => []

/-- What a step reports: on a name that it declares or reads, on the expression that it visits, or on an
operand of a type that is known. -/
inductive CheckEnv.About (env : CheckEnv) (types : Types) : Event → Message → Prop
  | untyped {ev : Event} {n : Name} (hn : n ∈ ev.declares) :
    About env types ev ⟨n.pos, n.name.length, .untyped n.name⟩
  | shadows {ev : Event} {n : Name} {line : Option Nat} (hn : n ∈ ev.declares) :
    About env types ev ⟨n.pos, n.name.length, .shadows n.name line⟩
  | undefined {n : Name} :
    About env types (.visit (.expr (.name n))) ⟨n.pos, n.name.length, .undefined n.name⟩
  | literal {p : Pos} {v : Numeral} {source : Text} :
    About env types (.visit (.expr (.number p v source))) ⟨p, source.length, .floatLiteral source⟩
  | division {p : Pos} {op : BinaryOp} {l r : Expr} :
    About env types (.visit (.expr (.binary p op l r))) ⟨p, 1, .floatDivision⟩
  | operand {ev : Event} {op : Operation} {e : Expr} {t : Ty} (he : e ∈ ev.operands)
    (hknown : env.infer types e ≠ .any)
    (ht : t = env.infer types e ∨ t = (env.infer types e).plain) :
    About env types ev (env.mistyped op e t)

section
variable {env : CheckEnv} {types : Types} {ev : Event} {m : Message}

/-- A report of shadowing stands at the name that shadows. -/
theorem CheckEnv.of_shadowing {n : Name} (h : env.shadowing n = some m) :
    ∃ line, m = ⟨n.pos, n.name.length, .shadows n.name line⟩ := by
  simp only [CheckEnv.shadowing, Option.bind_eq_bind, Option.bind_eq_some_iff] at h
  obtain ⟨b, -, hidden, -, h⟩ := h
  split at h
  · cases h
  · exact ⟨_, (Option.some.inj h).symm⟩

/-- A report of disuse stands at the name that is not used. -/
theorem CheckEnv.of_unusedReport {n : Name} (h : env.unusedReport n = some m) :
    ∃ isFunction, m = ⟨n.pos, n.name.length, .unused isFunction n.name⟩ := by
  simp only [CheckEnv.unusedReport, Option.bind_eq_bind, Option.bind_eq_some_iff] at h
  obtain ⟨b, -, h⟩ := h
  split at h
  · exact ⟨_, (Option.some.inj h).symm⟩
  · cases h

/-- A report of a missing type stands at a name of the list. -/
theorem CheckEnv.of_untyped {vs : List Expr} {ns : List Name} (h : m ∈ env.untyped vs ns) :
    ∃ n ∈ ns, m = ⟨n.pos, n.name.length, .untyped n.name⟩ := by
  unfold CheckEnv.untyped at h
  split at h
  · obtain ⟨n, hn, rfl⟩ := List.mem_map.mp h
    exact ⟨n, hn, rfl⟩
  · cases h

/-- A report on operands stands at one that has a wrong type. -/
theorem CheckEnv.of_operands {op : Operation} {wrong : Ty → Bool} {es : List Expr}
    (h : m ∈ env.operands types op wrong es) :
    ∃ e ∈ es, wrong (env.infer types e).plain = true ∧ m = env.mistyped op e (env.infer types e).plain := by
  obtain ⟨e, he, h⟩ := List.mem_filterMap.mp h
  dsimp only at h
  split at h
  · next hwrong => exact ⟨e, he, hwrong, (Option.some.inj h).symm⟩
  · cases h

/-- No operation is refused to a type that is not known. -/
theorem about_operands {op : Operation} {wrong : Ty → Bool} (hwrong : wrong .any = false)
    (h : m ∈ env.operands types op wrong ev.operands) : env.About types ev m := by
  obtain ⟨e, he, hty, rfl⟩ := CheckEnv.of_operands h
  refine .operand he (fun hany => ?_) (.inr rfl)
  rw [hany] at hty
  exact absurd (hty.symm.trans hwrong) (by decide)

/-- Every report of a step is one of these. -/
theorem report_about (h : m ∈ env.report types ev) : env.About types ev m := by
  unfold CheckEnv.report at h
  rcases List.mem_append.mp h with h | h
  · split at h
    · obtain ⟨n, hn, rfl⟩ := CheckEnv.of_untyped h
      exact .untyped hn
    · split at h
      · split at h
        · obtain rfl := List.mem_singleton.mp h
          exact .undefined
        · cases h
      · cases h
    · split at h
      · obtain rfl := List.mem_singleton.mp h
        exact .literal
      · cases h
    · rcases List.mem_append.mp h with h | h
      · split at h
        · obtain rfl := List.mem_singleton.mp h
          exact .division
        · cases h
      · repeat' split at h
        all_goals first | exact about_operands rfl h | cases h
    · split at h
      · exact about_operands rfl h
      · cases h
    · dsimp only at h
      split at h
      · next hty =>
        obtain rfl := List.mem_singleton.mp h
        refine .operand List.mem_cons_self (fun hany => ?_) (.inl rfl)
        rw [hany] at hty
        cases hty
      · cases h
    · cases h
  · obtain ⟨n, hn, h⟩ := List.mem_filterMap.mp h
    obtain ⟨line, rfl⟩ := CheckEnv.of_shadowing h
    exact .shadows hn

/-- What is reported over events is reported at one of them, with the types that there are then. -/
theorem run_report {es : List Event} (h : m ∈ (env.run es types).1) :
    ∃ before ev after, es = before ++ ev :: after ∧ m ∈ env.report (env.run before types).2 ev := by
  induction es generalizing types with
  | nil => cases h
  | cons ev es ih =>
    rcases List.mem_append.mp h with h | h
    · exact ⟨[], ev, es, rfl, h⟩
    · obtain ⟨before, e, after, rfl, hreport⟩ := ih h
      exact ⟨ev :: before, e, after, rfl, hreport⟩

/-- **What a check reports.**  A report is made by a step, with the types that there are then, or it is on a
declared name that is never read. -/
theorem check_report {settings : CheckSettings} {c : Chunk} (h : m ∈ (check settings c).messages) :
    let env : CheckEnv := ⟨settings, c.bindings, c.unsettled⟩
    (∃ before ev after, c.events = before ++ ev :: after ∧
        env.About (env.run before c.initialTypes).2 ev m) ∨
      ∃ ev ∈ c.events, ∃ n ∈ ev.declares, ∃ isFunction,
        m = ⟨n.pos, n.name.length, .unused isFunction n.name⟩ := by
  intro env
  rw [check, List.mem_mergeSort, List.mem_append] at h
  rcases h with h | h
  · obtain ⟨before, ev, after, hes, h⟩ := run_report h
    exact .inl ⟨before, ev, after, hes, report_about h⟩
  · split at h
    · obtain ⟨n, hn, h⟩ := List.mem_filterMap.mp h
      obtain ⟨ev, hev, hn⟩ := List.mem_flatMap.mp hn
      exact .inr ⟨ev, hev, n, hn, CheckEnv.of_unusedReport h⟩
    · cases h

end

/-! What a step reports on is among its nodes. -/

/-- An expression is a node of itself. -/
theorem mem_walkExpr (e : Expr) : .expr e ∈ walkExpr e := by
  rw [walkExpr.eq_def]
  exact List.mem_cons_self

/-- The operands of a step are nodes of it. -/
theorem operands_nodes {ev : Event} {e : Expr} (he : e ∈ ev.operands) : walkExpr e ⊆ ev.nodes := by
  intro nd hnd
  unfold Event.operands at he
  split at he
  · simp only [List.mem_cons, List.not_mem_nil, or_false] at he
    rcases he with rfl | rfl <;> simp [Event.nodes, walkExpr, hnd]
  · obtain rfl := List.mem_singleton.mp he
    simp [Event.nodes, walkExpr, hnd]
  · obtain rfl := List.mem_singleton.mp he
    simp [Event.nodes, walkExpr, hnd]
  · cases he

/-- So are the names that it declares. -/
theorem declares_nodes {ev : Event} {n : Name} (hn : n ∈ ev.declares) : .declared n ∈ ev.nodes := by
  unfold Event.declares at hn
  split at hn
  · simp [Event.nodes, walkStmt, hn]
  · simp_all [Event.nodes, walkStmt]
  · next f =>
    obtain ⟨p, ps, v, b⟩ := f
    simp_all [Event.nodes, walkFunc, FuncBody.params]
  · cases hn

end LuaServer.Lua
