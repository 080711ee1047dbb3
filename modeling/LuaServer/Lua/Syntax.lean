/-
# The syntax tree

Every node records the place of its first token, except a binary operation, which records the place of
its operator, and a function body, which records its opening parenthesis.

A `Name` is an identifier with the number of the binding that it denotes.  Bindings stand in a table
beside the tree (`Chunk.bindings`): one for each declared name, one for the implicit `self` of each
method, and one for each global.

* `Expr`, `Stmt`, `Block` and their parts: the tree.
* `Binding`: what the parser knows of a variable.
* `Node`, `walk`: every node of a chunk, parents first and in source order.
-/
import LuaServer.Lua.Token

namespace LuaServer.Lua

/-! ## 1. Operators -/

/-- The binary operators. -/
inductive BinaryOp where
  | or | and | lt | gt | le | ge | ne | eq | bitOr | bitXor | bitAnd | shiftLeft | shiftRight
  | concat | add | sub | mul | div | intDiv | mod | pow
deriving DecidableEq, Repr

namespace BinaryOp

/-- The operator that a token writes. -/
def ofKind? : Kind → Option BinaryOp
  | .keyword .or => some .or
  | .keyword .and => some .and
  | .symbol .lt => some .lt
  | .symbol .gt => some .gt
  | .symbol .le => some .le
  | .symbol .ge => some .ge
  | .symbol .ne => some .ne
  | .symbol .eq => some .eq
  | .symbol .pipe => some .bitOr
  | .symbol .tilde => some .bitXor
  | .symbol .amp => some .bitAnd
  | .symbol .shiftLeft => some .shiftLeft
  | .symbol .shiftRight => some .shiftRight
  | .symbol .concat => some .concat
  | .symbol .plus => some .add
  | .symbol .minus => some .sub
  | .symbol .star => some .mul
  | .symbol .slash => some .div
  | .symbol .intDiv => some .intDiv
  | .symbol .percent => some .mod
  | .symbol .caret => some .pow
  | _ => none

/-- The token that writes an operator. -/
def kind : BinaryOp → Kind
  | .or => .keyword .or
  | .and => .keyword .and
  | .lt => .symbol .lt
  | .gt => .symbol .gt
  | .le => .symbol .le
  | .ge => .symbol .ge
  | .ne => .symbol .ne
  | .eq => .symbol .eq
  | .bitOr => .symbol .pipe
  | .bitXor => .symbol .tilde
  | .bitAnd => .symbol .amp
  | .shiftLeft => .symbol .shiftLeft
  | .shiftRight => .symbol .shiftRight
  | .concat => .symbol .concat
  | .add => .symbol .plus
  | .sub => .symbol .minus
  | .mul => .symbol .star
  | .div => .symbol .slash
  | .intDiv => .symbol .intDiv
  | .mod => .symbol .percent
  | .pow => .symbol .caret

@[simp] theorem ofKind?_kind (op : BinaryOp) : ofKind? op.kind = some op := by cases op <;> rfl

/-- How strongly an operator holds the operand on its left. -/
def leftPower : BinaryOp → Nat
  | .or => 1
  | .and => 2
  | .lt | .gt | .le | .ge | .ne | .eq => 3
  | .bitOr => 4
  | .bitXor => 5
  | .bitAnd => 6
  | .shiftLeft | .shiftRight => 7
  | .concat => 9
  | .add | .sub => 10
  | .mul | .div | .intDiv | .mod => 11
  | .pow => 14

/-- How strongly an operator holds the operand on its right.  Concatenation and power hold it less
than the one on the left, so they associate to the right. -/
def rightPower : BinaryOp → Nat
  | .concat => 8
  | .pow => 13
  | op => op.leftPower

/-- Comparisons. -/
def isComparison : BinaryOp → Bool
  | .lt | .gt | .le | .ge | .ne | .eq => true
  | _ => false

/-- Arithmetic. -/
def isArithmetic : BinaryOp → Bool
  | .add | .sub | .mul | .div | .intDiv | .mod | .pow => true
  | _ => false

/-- Operations on bits. -/
def isBitwise : BinaryOp → Bool
  | .bitOr | .bitXor | .bitAnd | .shiftLeft | .shiftRight => true
  | _ => false

end BinaryOp

/-- The unary operators. -/
inductive UnaryOp where
  | not | neg | len | bitNot
deriving DecidableEq, Repr

namespace UnaryOp

/-- The operator that a token writes. -/
def ofKind? : Kind → Option UnaryOp
  | .keyword .not => some .not
  | .symbol .minus => some .neg
  | .symbol .hash => some .len
  | .symbol .tilde => some .bitNot
  | _ => none

/-- The token that writes an operator. -/
def kind : UnaryOp → Kind
  | .not => .keyword .not
  | .neg => .symbol .minus
  | .len => .symbol .hash
  | .bitNot => .symbol .tilde

@[simp] theorem ofKind?_kind (op : UnaryOp) : ofKind? op.kind = some op := by cases op <;> rfl

/-- How strongly a unary operator holds its operand. -/
def power : Nat := 12

end UnaryOp

/-! ## 2. Bindings -/

/-- The number of a binding in its chunk's table. -/
abbrev BindingId := Nat

/-- How a binding came to be. -/
inductive BindingKind where
  | local | param | loop | function | global
deriving DecidableEq, Repr

/-- The attributes of a local. -/
inductive Attrib where
  | const | close
deriving DecidableEq, Repr

/-- The attribute that a name spells. -/
def Attrib.ofText? (t : Text) : Option Attrib :=
  if t = text "const" then some .const else if t = text "close" then some .close else none

/-- How an attribute is written. -/
def Attrib.name : Attrib → String
  | .const => "const"
  | .close => "close"

/-- A variable: the name, the scope that its declaration opened (0 for globals), the place of its
declaration (none for an implicit `self`), the local that it hides, and how often it is read and
written. -/
structure Binding where
  name : Text
  scope : Nat
  kind : BindingKind
  declaration : Option Pos
  attrib : Option Attrib := none
  shadows : Option BindingId := none
  reads : Nat := 0
  writes : Nat := 0
deriving DecidableEq, Repr

/-- The scope of all globals. -/
def globalScope : Nat := 0

/-- A global variable. -/
def Binding.isGlobal (b : Binding) : Bool := b.kind = .global

/-! ## 3. The tree -/

/-- An occurrence of an identifier. -/
structure Name where
  pos : Pos
  name : Text
  binding : BindingId
deriving DecidableEq, Repr

mutual

/-- Expressions. -/
inductive Expr where
  | name (n : Name)
  | nil (pos : Pos)
  | boolean (pos : Pos) (value : Bool)
  | number (pos : Pos) (value : Numeral) (source : Text)
  | string (pos : Pos) (value : Text)
  | vararg (pos : Pos)
  | function (pos : Pos) (func : FuncBody)
  | table (pos : Pos) (fields : List TableField)
  | binary (pos : Pos) (op : BinaryOp) (left right : Expr)
  | unary (pos : Pos) (op : UnaryOp) (operand : Expr)
  | paren (pos : Pos) (inner : Expr)
  | index (pos : Pos) (obj key : Expr)
  | call (pos : Pos) (func : Expr) (args : List Expr)
  | methodCall (pos : Pos) (obj : Expr) (method : Text) (args : List Expr)

/-- A field of a table constructor: a value, with a key or without. -/
inductive TableField where
  | mk (pos : Pos) (key : Option Expr) (value : Expr)

/-- Parameters and body of a function. -/
inductive FuncBody where
  | mk (pos : Pos) (params : List Name) (isVararg : Bool) (body : Block)

/-- A sequence of statements. -/
inductive Block where
  | mk (pos : Pos) (stmts : List Stmt)

/-- A condition with the block that it guards. -/
inductive IfClause where
  | mk (pos : Pos) (cond : Expr) (body : Block)

/-- Statements. -/
inductive Stmt where
  | local (pos : Pos) (names : List Name) (attribs : List (Option Attrib)) (values : List Expr)
  | assign (pos : Pos) (targets values : List Expr)
  | call (pos : Pos) (call : Expr)
  | do (pos : Pos) (body : Block)
  | while (pos : Pos) (cond : Expr) (body : Block)
  | repeat (pos : Pos) (body : Block) (cond : Expr)
  | if (pos : Pos) (clauses : List IfClause) (orelse : Option Block)
  | numericFor (pos : Pos) (var : Name) (start stop : Expr) (step : Option Expr) (body : Block)
  | genericFor (pos : Pos) (names : List Name) (values : List Expr) (body : Block)
  | function (pos : Pos) (target : Expr) (func : FuncBody) (isMethod : Bool)
  | localFunction (pos : Pos) (name : Name) (func : FuncBody)
  | return (pos : Pos) (values : List Expr)
  | break (pos : Pos)
  | goto (pos : Pos) (label : Text)
  | label (pos : Pos) (name : Text)

end

deriving instance Repr for Expr
deriving instance Inhabited for Expr

/-- The place that an expression records. -/
def Expr.pos : Expr → Pos
  | .name n => n.pos
  | .nil p | .boolean p _ | .number p _ _ | .string p _ | .vararg p | .function p _ | .table p _
  | .binary p _ _ _ | .unary p _ _ | .paren p _ | .index p _ _ | .call p _ _
  | .methodCall p _ _ _ => p

/-- The identifier that an expression is. -/
def Expr.name? : Expr → Option Name
  | .name n => some n
  | _ => none

/-- A call of a function or of a method. -/
def Expr.isCall : Expr → Bool
  | .call _ _ _ | .methodCall _ _ _ _ => true
  | _ => false

/-- An expression that may stand for any number of values. -/
def Expr.isOpen : Expr → Bool
  | .call _ _ _ | .methodCall _ _ _ _ | .vararg _ => true
  | _ => false

/-- The parameters of a function. -/
def FuncBody.params : FuncBody → List Name
  | .mk _ ps _ _ => ps

/-- The function takes further arguments. -/
def FuncBody.isVararg : FuncBody → Bool
  | .mk _ _ v _ => v

/-- A parsed document with the table of its bindings. -/
structure Chunk where
  pos : Pos
  body : Block
  uri : Text
  bindings : Array Binding

/-! ## 4. Nodes in order -/

/-- A node of the tree. -/
inductive Node where
  | chunk (c : Chunk)
  | block (b : Block)
  | stmt (s : Stmt)
  | clause (c : IfClause)
  | expr (e : Expr)
  | field (f : TableField)
  | func (f : FuncBody)
  /-- A name in the place where it is declared. -/
  | declared (n : Name)

/-- The identifier that a node is. -/
def Node.name? : Node → Option Name
  | .declared n => some n
  | .expr e => e.name?
  | _ => none

mutual

/-- The nodes of an expression, itself first. -/
def walkExpr (e : Expr) : List Node :=
  .expr e :: match e with
    | .name _ | .nil _ | .boolean _ _ | .number _ _ _ | .string _ _ | .vararg _ => []
    | .function _ f => walkFunc f
    | .table _ fields => walkFields fields
    | .binary _ _ l r => walkExpr l ++ walkExpr r
    | .unary _ _ e => walkExpr e
    | .paren _ e => walkExpr e
    | .index _ o k => walkExpr o ++ walkExpr k
    | .call _ f args => walkExpr f ++ walkExprs args
    | .methodCall _ o _ args => walkExpr o ++ walkExprs args

/-- The nodes of a list of expressions. -/
def walkExprs : List Expr → List Node
  | [] => []
  | e :: es => walkExpr e ++ walkExprs es

/-- The nodes of an expression that may be absent. -/
def walkExpr? : Option Expr → List Node
  | none => []
  | some e => walkExpr e

/-- The nodes of the fields of a table. -/
def walkFields : List TableField → List Node
  | [] => []
  | .mk p k v :: fs => .field (.mk p k v) :: walkExpr? k ++ walkExpr v ++ walkFields fs

/-- The nodes of a function. -/
def walkFunc : FuncBody → List Node
  | .mk p ps v b => .func (.mk p ps v b) :: ps.map .declared ++ walkBlock b

/-- The nodes of a block. -/
def walkBlock : Block → List Node
  | .mk p ss => .block (.mk p ss) :: walkStmts ss

/-- The nodes of a block that may be absent. -/
def walkBlock? : Option Block → List Node
  | none => []
  | some b => walkBlock b

/-- The nodes of a list of statements. -/
def walkStmts : List Stmt → List Node
  | [] => []
  | s :: ss => walkStmt s ++ walkStmts ss

/-- The nodes of the clauses of a conditional. -/
def walkClauses : List IfClause → List Node
  | [] => []
  | .mk p c b :: cs => .clause (.mk p c b) :: walkExpr c ++ walkBlock b ++ walkClauses cs

/-- The nodes of a statement, itself first. -/
def walkStmt (s : Stmt) : List Node :=
  .stmt s :: match s with
    | .local _ ns _ vs => ns.map .declared ++ walkExprs vs
    | .assign _ ts vs => walkExprs ts ++ walkExprs vs
    | .call _ e => walkExpr e
    | .do _ b => walkBlock b
    | .while _ c b => walkExpr c ++ walkBlock b
    | .repeat _ b c => walkBlock b ++ walkExpr c
    | .if _ cs b => walkClauses cs ++ walkBlock? b
    | .numericFor _ v a b c body =>
      .declared v :: walkExpr a ++ walkExpr b ++ walkExpr? c ++ walkBlock body
    | .genericFor _ ns vs body => ns.map .declared ++ walkExprs vs ++ walkBlock body
    | .function _ t f _ => walkExpr t ++ walkFunc f
    | .localFunction _ n f => .declared n :: walkFunc f
    | .return _ vs => walkExprs vs
    | .break _ | .goto _ _ | .label _ _ => []

end

theorem walkFields_cons (f : TableField) (fs : List TableField) :
    walkFields (f :: fs) = walkFields [f] ++ walkFields fs := by
  cases f
  simp [walkFields]

theorem walkClauses_cons (c : IfClause) (cs : List IfClause) :
    walkClauses (c :: cs) = walkClauses [c] ++ walkClauses cs := by
  cases c
  simp [walkClauses]

/-- Every node of a chunk, parents first and in source order. -/
def Chunk.walk (c : Chunk) : List Node := .chunk c :: walkBlock c.body

/-- The identifiers of a chunk in source order. -/
def Chunk.names (c : Chunk) : List Name := c.walk.filterMap Node.name?

/-- The bindings that the identifiers of a chunk denote, in the order of their first occurrence. -/
def Chunk.bindingOrder (c : Chunk) : List BindingId :=
  (c.names.map (·.binding)).foldl (fun seen b => if b ∈ seen then seen else seen ++ [b]) []

end LuaServer.Lua
