/-
# Checking a resolved tree

The checker goes through a chunk once and keeps the type of every binding.  The order of its steps is a
list of events (`Chunk.events`): a visit of a node, or a store to a plain name.  What a step reports and
how it changes the types are two functions of the event and of the types before it, and the checker is a
fold over the list.  So where a rule is applied is settled by the tree alone, and what it does by the
types alone.

Types do not follow the flow of control: a binding whose stores disagree (`unsettled`) counts as `any`
wherever it is used, though its declared type is still recorded.

* section 1: what a store puts into a binding (`storedBase?`, `unsettled`);
* section 2: the type of an expression (`infer`);
* section 3: the events;
* section 4: what an event reports and changes;
* section 5: `check`.
-/
import LuaServer.Lua.Issue

namespace LuaServer.Lua

/-- What the checker is asked to report. -/
structure CheckSettings where
  strict : Bool := false
  integer : Bool := false
  unused : Bool := true
deriving DecidableEq, Repr

/-! ## 1. Stores -/

/-- An expression without the parentheses around it. -/
def Expr.unparen : Expr → Expr
  | .paren _ e => e.unparen
  | e => e

/-- The class of the value of an expression, if it does not depend on bindings. -/
def Expr.base? (e : Expr) : Option Base :=
  match e.unparen with
  | .nil _ => some .nil
  | .boolean _ _ => some .boolean
  | .number _ _ _ => some .number
  | .string _ _ => some .string
  | .table _ _ => some .table
  | .function _ _ => some .function
  | .binary _ op _ _ =>
    if op.isComparison then some .boolean
    else if op = .concat then some .string
    else if op.isArithmetic || op.isBitwise then some .number
    else none
  | .unary _ op _ => some (if op = .not then .boolean else .number)
  | _ => none

/-- A list of expressions ends in one that may stand for any number of values. -/
def endsOpen (values : List Expr) : Bool := values.getLast?.any Expr.isOpen

/-- The class of the value that a list of expressions gives at an index, if it is known.  Past the end
of the list it is nil, unless the list ends open. -/
def storedBase? (values : List Expr) (index : Nat) : Option Base :=
  match values[index]? with
  | some e => e.base?
  | none => if endsOpen values then none else some .nil

/-- What a list of names or targets, from the given index on, receives from a list of values. -/
def storesOf (values : List Expr) : Nat → List (Option Name) → List (BindingId × Option Base)
  | _, [] => []
  | i, none :: ts => storesOf values (i + 1) ts
  | i, some n :: ts => (n.binding, storedBase? values i) :: storesOf values (i + 1) ts

/-- The stores that a node makes. -/
def Node.stores : Node → List (BindingId × Option Base)
  | .stmt (.local _ ns _ vs) => storesOf vs 0 (ns.map some)
  | .stmt (.assign _ ts vs) => storesOf vs 0 (ts.map Expr.name?)
  | .stmt (.localFunction _ n _) => [(n.binding, some .function)]
  | .stmt (.function _ (.name n) _ _) => [(n.binding, some .function)]
  | _ => []

/-- The classes stored in a binding, of which there are several that differ or are not all known. -/
def disagree (stored : List (Option Base)) : Bool :=
  match stored with
  | [] | [_] => false
  | t :: ts => t.isNone || ts.any (· ≠ t)

/-- The stores of a chunk. -/
def Chunk.stores (c : Chunk) : List (BindingId × Option Base) := c.walk.flatMap Node.stores

/-- The classes stored in a binding. -/
def storedIn (stores : List (BindingId × Option Base)) (id : BindingId) : List (Option Base) :=
  (stores.filter (fun s => s.1 = id)).map (·.2)

/-- For every binding, whether its stores disagree. -/
def Chunk.unsettled (c : Chunk) : Array Bool :=
  let stores := c.stores
  Array.ofFn (fun i : Fin c.bindings.size => disagree (storedIn stores i))

/-! ## 2. The type of an expression -/

/-- What does not change while a chunk is checked. -/
structure CheckEnv where
  settings : CheckSettings
  bindings : Array Binding
  unsettled : Array Bool

/-- The types of the bindings. -/
abbrev Types := Array Ty

/-- The type of a binding. -/
def Types.of (types : Types) (id : BindingId) : Ty := (types[id]?).getD .any

/-- The type as which a binding counts where it is used. -/
def CheckEnv.typeOf (env : CheckEnv) (types : Types) (id : BindingId) : Ty :=
  if (env.unsettled[id]?).getD false then .any else types.of id

/-- The binding is a global. -/
def CheckEnv.isGlobal (env : CheckEnv) (id : BindingId) : Bool :=
  (env.bindings[id]?).any Binding.isGlobal

/-- The type of a binary operation on operands of the given types. -/
def BinaryOp.result (op : BinaryOp) (left right : Ty) : Ty :=
  if op.isComparison then .boolean
  else if op = .concat then .string
  else if op.isBitwise then .integer
  else if op.isArithmetic then
    if op = .div ∨ op = .pow then .number
    else if left = .integer ∧ right = .integer then .integer
    else .number
  else .any

/-- The type of a unary operation on an operand of the given type. -/
def UnaryOp.result (op : UnaryOp) (operand : Ty) : Ty :=
  match op with
  | .not => .boolean
  | .len | .bitNot => .integer
  | .neg => if operand.isNumeric then operand else .number

/-- The type of an expression. -/
def CheckEnv.infer (env : CheckEnv) (types : Types) : Expr → Ty
  | .nil _ => .nil
  | .boolean _ _ => .boolean
  | .number _ v _ => if v.isFloat then .number else .integer
  | .string _ _ => .string
  | .table _ _ => .table
  | .function _ f => .ofFunc f
  | .paren _ e => env.infer types e
  | .name n => env.typeOf types n.binding
  | .unary _ op e => op.result (env.infer types e)
  | .binary _ op l r => op.result (env.infer types l) (env.infer types r)
  | .vararg _ | .index _ _ _ | .call _ _ _ | .methodCall _ _ _ _ => .any

/-! ## 3. Events -/

/-- A step of the checker. -/
inductive Event where
  /-- The rule of a node is applied. -/
  | visit (n : Node)
  /-- A plain name receives the value at an index. -/
  | store (target : Name) (index : Nat) (values : List Expr)
  /-- A plain name receives a function. -/
  | storeFunction (target : Name) (func : FuncBody)

mutual

/-- The steps for an expression.  The rules of operations and calls come after their parts. -/
def exprEvents (e : Expr) : List Event :=
  match e with
  | .name _ | .nil _ | .boolean _ _ | .number _ _ _ | .string _ _ | .vararg _ => [.visit (.expr e)]
  | .function _ f => .visit (.expr e) :: funcEvents f
  | .table _ fs => .visit (.expr e) :: fieldsEvents fs
  | .binary _ _ l r => exprEvents l ++ exprEvents r ++ [.visit (.expr e)]
  | .unary _ _ x => exprEvents x ++ [.visit (.expr e)]
  | .paren _ x => .visit (.expr e) :: exprEvents x
  | .index _ o k => .visit (.expr e) :: exprEvents o ++ exprEvents k
  | .call _ f args => exprEvents f ++ exprsEvents args ++ [.visit (.expr e)]
  | .methodCall _ o _ args => .visit (.expr e) :: exprEvents o ++ exprsEvents args

/-- The steps for a list of expressions. -/
def exprsEvents : List Expr → List Event
  | [] => []
  | e :: es => exprEvents e ++ exprsEvents es

/-- The steps for an expression that may be absent. -/
def expr?Events : Option Expr → List Event
  | none => []
  | some e => exprEvents e

/-- The steps for the fields of a table. -/
def fieldsEvents : List TableField → List Event
  | [] => []
  | .mk p k v :: fs =>
    .visit (.field (.mk p k v)) :: expr?Events k ++ exprEvents v ++ fieldsEvents fs

/-- The steps for a function: its parameters, then its body. -/
def funcEvents : FuncBody → List Event
  | .mk p ps v b => .visit (.func (.mk p ps v b)) :: blockEvents b

/-- The steps for a block. -/
def blockEvents : Block → List Event
  | .mk p ss => .visit (.block (.mk p ss)) :: stmtsEvents ss

/-- The steps for a block that may be absent. -/
def block?Events : Option Block → List Event
  | none => []
  | some b => blockEvents b

/-- The steps for a list of statements. -/
def stmtsEvents : List Stmt → List Event
  | [] => []
  | s :: ss => stmtEvents s ++ stmtsEvents ss

/-- The steps for the clauses of a conditional. -/
def clausesEvents : List IfClause → List Event
  | [] => []
  | .mk p c b :: cs =>
    .visit (.clause (.mk p c b)) :: exprEvents c ++ blockEvents b ++ clausesEvents cs

/-- The steps for the targets of an assignment from an index on. -/
def targetsEvents (values : List Expr) : Nat → List Expr → List Event
  | _, [] => []
  | i, .name n :: ts => .store n i values :: targetsEvents values (i + 1) ts
  | i, t :: ts => exprEvents t ++ targetsEvents values (i + 1) ts

/-- The steps for a statement.  A declaration takes effect after its values and before the body in which
it is visible. -/
def stmtEvents (s : Stmt) : List Event :=
  match s with
  | .local _ _ _ vs => exprsEvents vs ++ [.visit (.stmt s)]
  | .assign _ ts vs => .visit (.stmt s) :: exprsEvents vs ++ targetsEvents vs 0 ts
  | .call _ e => .visit (.stmt s) :: exprEvents e
  | .do _ b => .visit (.stmt s) :: blockEvents b
  | .while _ c b => .visit (.stmt s) :: exprEvents c ++ blockEvents b
  | .repeat _ b c => .visit (.stmt s) :: blockEvents b ++ exprEvents c
  | .if _ cs b => .visit (.stmt s) :: clausesEvents cs ++ block?Events b
  | .numericFor _ _ a b c body =>
    exprEvents a ++ exprEvents b ++ expr?Events c ++ .visit (.stmt s) :: blockEvents body
  | .genericFor _ _ vs body => exprsEvents vs ++ .visit (.stmt s) :: blockEvents body
  | .function _ (.name n) f _ => .visit (.stmt s) :: .storeFunction n f :: funcEvents f
  | .function _ t f _ => .visit (.stmt s) :: exprEvents t ++ funcEvents f
  | .localFunction _ _ f => .visit (.stmt s) :: funcEvents f
  | .return _ vs => .visit (.stmt s) :: exprsEvents vs
  | .break _ | .goto _ _ | .label _ _ => [.visit (.stmt s)]

end

/-- The steps for a chunk. -/
def Chunk.events (c : Chunk) : List Event := .visit (.chunk c) :: blockEvents c.body

/-- The names that an event declares. -/
def Event.declares : Event → List Name
  | .visit (.stmt (.local _ ns _ _)) => ns
  | .visit (.stmt (.localFunction _ n _)) => [n]
  | .visit (.func f) => f.params
  | _ => []

/-! ## 4. Rules -/

/-- The type that each of the names of a `local` gets, from an index on. -/
def CheckEnv.assignTypes (env : CheckEnv) (values : List Expr) :
    Nat → List Name → Types → Types
  | _, [], types => types
  | i, n :: ns, types =>
    let t := match values[i]? with
      | some e => env.infer types e
      | none => if values.isEmpty || endsOpen values then .any else .nil
    env.assignTypes values (i + 1) ns (types.setIfInBounds n.binding t)

/-- The types after an event. -/
def CheckEnv.retype (env : CheckEnv) (types : Types) : Event → Types
  | .visit (.stmt (.local _ ns _ vs)) => env.assignTypes vs 0 ns types
  | .visit (.stmt (.localFunction _ n f)) => types.setIfInBounds n.binding (.ofFunc f)
  | .visit (.stmt (.numericFor _ var start stop step _)) =>
    let bounds := [start, stop] ++ step.toList
    types.setIfInBounds var.binding
      (if bounds.all (fun e => env.infer types e = .integer) then .integer else .number)
  | .visit (.stmt (.genericFor _ ns _ _)) =>
    ns.foldl (fun types n => types.setIfInBounds n.binding .any) types
  | .visit (.func f) =>
    f.params.foldl (fun types n => types.setIfInBounds n.binding .any) types
  | .storeFunction n f =>
    if (types.of n.binding).isOpen then types.setIfInBounds n.binding (.ofFunc f) else types
  | .store n i values =>
    match values[i]? with
    | some e =>
      if (types.of n.binding).isOpen && !(env.isGlobal n.binding && isBuiltin n.name) then
        types.setIfInBounds n.binding (env.infer types e)
      else types
    | none => types
  | _ => types

/-- The number of code points that a report on an expression concerns. -/
def Expr.span : Expr → Nat
  | .name n => n.name.length
  | _ => 1

/-- The variable that an expression is. -/
def CheckEnv.subject? (env : CheckEnv) (e : Expr) : Option Subject :=
  e.name?.map fun n => ⟨n.name, env.isGlobal n.binding⟩

/-- A report on an operand of which the type is wrong. -/
def CheckEnv.mistyped (env : CheckEnv) (op : Operation) (e : Expr) (t : Ty) : Message :=
  ⟨e.pos, e.span, .mistyped op t (env.subject? e)⟩

/-- The reports on operands whose types are wrong for an operation. -/
def CheckEnv.operands (env : CheckEnv) (types : Types) (op : Operation) (wrong : Ty → Bool)
    (es : List Expr) : List Message :=
  es.filterMap fun e =>
    let t := (env.infer types e).plain
    if wrong t then some (env.mistyped op e t) else none

/-- The report on a name that hides a visible local. -/
def CheckEnv.shadowing (env : CheckEnv) (n : Name) : Option Message := do
  let b ← env.bindings[n.binding]?
  let hidden ← b.shadows
  if n.name = text "_" then none
  else
    let line := ((env.bindings[hidden]?).bind (·.declaration)).map (·.line)
    some ⟨n.pos, n.name.length, .shadows n.name line⟩

/-- The reports on the names of a `local` without values. -/
def CheckEnv.untyped (env : CheckEnv) (values : List Expr) (ns : List Name) : List Message :=
  if env.settings.strict && values.isEmpty then
    ns.map fun n => ⟨n.pos, n.name.length, .untyped n.name⟩
  else []

/-- What an event reports, given the types before it. -/
def CheckEnv.report (env : CheckEnv) (types : Types) (event : Event) : List Message :=
  (match event with
  | .visit (.stmt (.local _ ns _ vs)) => env.untyped vs ns
  | .visit (.expr (.name n)) =>
    match env.bindings[n.binding]? with
    | some b =>
      if b.isGlobal && env.settings.strict && !isBuiltin n.name && b.writes = 0 then
        [⟨n.pos, n.name.length, .undefined n.name⟩]
      else []
    | none => []
  | .visit (.expr (.number p v source)) =>
    if env.settings.integer && v.isFloat then [⟨p, source.length, .floatLiteral source⟩] else []
  | .visit (.expr (.binary p op l r)) =>
    (if env.settings.integer && op = .div then [⟨p, 1, .floatDivision⟩] else [])
      ++ (if op.isArithmetic then env.operands types .arithmetic Ty.notArithmetic [l, r]
        else if op.isBitwise then env.operands types .bitwise Ty.notArithmetic [l, r]
        else if op = .concat then env.operands types .concatenate Ty.notConcatenable [l, r]
        else [])
  | .visit (.expr (.unary _ op e)) =>
    if op = .neg then env.operands types .arithmetic Ty.notArithmetic [e] else []
  | .visit (.expr (.call _ f _)) =>
    let t := env.infer types f
    if t.notCallable then [env.mistyped .call f t] else []
  | _ => [])
  ++ event.declares.filterMap env.shadowing

/-! ## 5. The whole chunk -/

/-- The reports of a list of events and the types after it. -/
def CheckEnv.run (env : CheckEnv) : List Event → Types → List Message × Types
  | [], types => ([], types)
  | e :: es, types =>
    let (ms, after) := env.run es (env.retype types e)
    (env.report types e ++ ms, after)

/-- The types before the first event: a builtin has its own, all else is open. -/
def Chunk.initialTypes (c : Chunk) : Types :=
  c.bindings.map fun b => if b.isGlobal then (builtinType? b.name).getD .any else .any

/-- The report on a declared name that is never read.  Parameters and names that begin with an
underscore are exempt. -/
def CheckEnv.unusedReport (env : CheckEnv) (n : Name) : Option Message := do
  let b ← env.bindings[n.binding]?
  if (b.kind = .local ∨ b.kind = .function) ∧ b.reads = 0 ∧ n.name.head? ≠ some (code '_') then
    some ⟨n.pos, n.name.length, .unused (b.kind = .function) n.name⟩
  else none

/-- What checking a chunk gives: the reports in the order of their places, and the types. -/
structure Checked where
  messages : List Message
  types : Types

/-- Checks a chunk. -/
def check (settings : CheckSettings) (c : Chunk) : Checked :=
  let env : CheckEnv := ⟨settings, c.bindings, c.unsettled⟩
  let events := c.events
  let (ms, types) := env.run events c.initialTypes
  let unused :=
    if settings.unused then (events.flatMap Event.declares).filterMap env.unusedReport else []
  ⟨(ms ++ unused).mergeSort (fun a b => a.pos.le b.pos), types⟩

/-! ## 6. Identifiers -/

/-- An identifier with what is known of the variable that it denotes. -/
structure Identifier where
  name : Text
  pos : Pos
  scope : Nat
  type : Ty
  isGlobal : Bool
deriving DecidableEq, Repr

/-- The identifiers of a chunk in source order. -/
def Chunk.identifiers (c : Chunk) (types : Types) : List Identifier :=
  c.names.filterMap fun n => (c.bindings[n.binding]?).map fun b =>
    ⟨n.name, n.pos, b.scope, types.of n.binding, b.isGlobal⟩

end LuaServer.Lua
