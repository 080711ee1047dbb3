/-
# From tokens to a resolved tree

A recursive-descent reader of the grammar.  Names are resolved while reading: the state holds the locals
that are visible at the current token, innermost first, and a block restores the list with which it
began.  Every declaration (one `local` list, one parameter list, one loop header, one `local function`)
opens a scope of its own, so two `local x` in one block declare two variables.

Section 1 is scopes, section 2 the state and the moves on tokens, section 3 the grammar.  The
functions of section 3 call one another; the number that each takes first bounds the depth of these
calls.  `parseTokens` starts with ten times the number of tokens and a little, and between two tokens
there are never that many calls, so the bound is not reached.
-/
import LuaServer.Lua.Lexer
import LuaServer.Lua.Syntax

namespace LuaServer.Lua

/-! ## 1. Scopes -/

/-- An identifier as written: the name and its place. -/
structure Ident where
  name : Text
  pos : Pos
deriving DecidableEq, Repr

/-- An identifier of the tree as it was written. -/
def Name.ident (n : Name) : Ident := ⟨n.name, n.pos⟩

/-- What is known of variables at a place: the locals visible there with the innermost first, the
globals met so far, the number of scopes opened so far, and the bindings. -/
structure Scopes where
  active : List (Text × BindingId) := []
  globals : List (Text × BindingId) := []
  opened : Nat := 0
  bindings : Array Binding := #[]
deriving DecidableEq, Repr

namespace Scopes

/-- The number of a new scope. -/
def newScope (σ : Scopes) : Nat × Scopes := (σ.opened + 1, { σ with opened := σ.opened + 1 })

/-- The visible local with a name. -/
def visible? (σ : Scopes) (name : Text) : Option BindingId :=
  (σ.active.find? (fun b => b.1 = name)).map (·.2)

/-- Adds a binding to the table. -/
def add (b : Binding) (σ : Scopes) : BindingId × Scopes :=
  (σ.bindings.size, { σ with bindings := σ.bindings.push b })

/-- Changes a binding. -/
def modify (id : BindingId) (f : Binding → Binding) (σ : Scopes) : Scopes :=
  { σ with bindings := σ.bindings.modify id f }

/-- A new local with a name.  It is not visible yet. -/
def declare (x : Ident) (kind : BindingKind) (scope : Nat) (attrib : Option Attrib) (σ : Scopes) :
    Name × Scopes :=
  let (id, τ) := σ.add
    { name := x.name, scope, kind, declaration := some x.pos, attrib, shadows := σ.visible? x.name }
  (⟨x.pos, x.name, id⟩, τ)

/-- New locals of one declaration, none of them visible yet. -/
def declareAll (kind : BindingKind) (scope : Nat) :
    List (Ident × Option Attrib) → Scopes → List Name × Scopes
  | [], σ => ([], σ)
  | (x, a) :: xs, σ =>
    let (n, σ) := σ.declare x kind scope a
    let (ns, σ) := declareAll kind scope xs σ
    (n :: ns, σ)

/-- The name of the parameter that a method has besides those that are written. -/
def selfName : Text := text "self"

/-- The further parameter of a method, which has no token of its own.  It is not visible yet. -/
def declareSelf (isMethod : Bool) (scope : Nat) (σ : Scopes) : Option BindingId × Scopes :=
  if isMethod then
    let (id, τ) := σ.add
      { name := selfName, scope, kind := .param, declaration := none,
        shadows := σ.visible? selfName }
    (some id, τ)
  else (none, σ)

/-- Makes names visible, the last one innermost. -/
def activate (names : List Name) (σ : Scopes) : Scopes :=
  { σ with active := names.reverse.map (fun n => (n.name, n.binding)) ++ σ.active }

/-- Makes the further parameter of a method visible. -/
def activateSelf (self : Option BindingId) (σ : Scopes) : Scopes :=
  { σ with active := self.toList.map (fun id => (selfName, id)) ++ σ.active }

/-- The global with a name, which is new if it was not met before. -/
def global (x : Ident) (σ : Scopes) : BindingId × Scopes :=
  match σ.globals.find? (fun b => b.1 = x.name) with
  | some (_, id) => (id, σ)
  | none =>
    let (id, τ) := σ.add
      { name := x.name, scope := globalScope, kind := .global, declaration := some x.pos }
    (id, { τ with globals := (x.name, id) :: τ.globals })

/-- An identifier in a place where it is used: the visible local, else the global. -/
def reference (x : Ident) (σ : Scopes) : Name × Scopes :=
  let (id, τ) := match σ.visible? x.name with
    | some id => (id, σ)
    | none => σ.global x
  (⟨x.pos, x.name, id⟩, τ.modify id fun b => { b with reads := b.reads + 1 })

/-- A variable that was read when its name was taken, and that is stored to instead.  A constant has no
stores. -/
def write? (n : Name) (σ : Scopes) : Option Scopes :=
  let τ := σ.modify n.binding fun b => { b with reads := b.reads - 1, writes := b.writes + 1 }
  match (τ.bindings[n.binding]?).bind (·.attrib) with
  | some _ => none
  | none => some τ

end Scopes

/-! ## 2. Tokens -/

/-- The state of the reader: the current token and those after it, and what is known of variables. -/
structure ParseState where
  tok : Token
  rest : List Token
  scopes : Scopes := {}

/-- The state after taking the current token.  The end of the text is never passed. -/
def ParseState.advance (s : ParseState) : ParseState :=
  match s.tok.kind, s.rest with
  | .eof, _ | _, [] => s
  | _, t :: ts => { s with tok := t, rest := ts }

/-- A step of the reader. -/
abbrev Parse (α : Type) := StateT ParseState (Except SyntaxError) α

namespace Parse

/-- The current token. -/
def peek : Parse Token := return (← get).tok

/-- The token after the current one; the end of the text stands after itself. -/
def peekNext : Parse Token := do
  let s ← get
  return s.rest.head?.getD s.tok

/-- Takes the current token. -/
def next : Parse Token := do
  let s ← get
  set s.advance
  return s.tok

/-- A fault at a place. -/
def failAt {α : Type} (pos : Pos) (fault : Fault) : Parse α := throw ⟨pos, fault⟩

/-- A fault at the current token, which it names. -/
def fail {α : Type} (fault : Text → Fault) : Parse α := do
  let t ← peek
  failAt t.pos (fault t.near)

/-- The current token is of a kind. -/
def check (k : Kind) : Parse Bool := return (← peek).kind = k

/-- Takes the current token if it is of a kind. -/
def accept (k : Kind) : Parse Bool := do
  if ← check k then
    let _ ← next
    return true
  else return false

/-- Takes the current token if it is of one of two kinds. -/
def acceptEither (k l : Kind) : Parse Bool := do
  if ← accept k then return true else accept l

/-- What follows a token of a kind, if there is one. -/
def after? {α : Type} (k : Kind) (p : Parse α) : Parse (Option α) := do
  if ← accept k then some <$> p else return none

/-- What stands before a token of a kind, or `a` if nothing does. -/
def before {α : Type} (k : Kind) (a : α) (p : Parse α) : Parse α := do
  if ← check k then return a else p

/-- What a message calls a kind of token. -/
def wanted : Kind → Wanted
  | .keyword k => .keyword k
  | .symbol s => .symbol s
  | .eof => .eof
  | _ => .name

/-- Takes the current token, which must be of the given kind. -/
def expect (k : Kind) : Parse Token := do
  if ← check k then next else fail (.expected (wanted k))

/-- Takes the current token, which must be of the given kind and closes what `opener` opened.  The
message names the opener if it stands on another line. -/
def expectClosing (k : Kind) (opener : Token) : Parse Token := do
  if ← check k then next
  else if opener.pos.line ≠ (← peek).pos.line then
    fail (.expectedToClose (wanted k) opener.value opener.pos.line)
  else fail (.expected (wanted k))

/-- Takes an identifier. -/
def expectName : Parse Ident := do
  let t ← peek
  match t.kind with
  | .name n =>
    let _ ← next
    return ⟨n, t.pos⟩
  | _ => fail (.expected .name)

/-- A step that concerns variables only. -/
def onScopes {α : Type} (f : Scopes → α × Scopes) : Parse α :=
  modifyGet fun s => ((f s.scopes).1, { s with scopes := (f s.scopes).2 })

/-- Makes names visible, the last one innermost. -/
def activate (names : List Name) : Parse Unit := onScopes fun σ => ((), σ.activate names)

/-- Runs a step and hides again the locals that became visible in it. -/
def inScope {α : Type} (p : Parse α) : Parse α := do
  let outer := (← get).scopes.active
  let a ← p
  onScopes fun σ => ((), { σ with active := outer })
  return a

/-- The identifier, read when it was taken, turns out to be the target of a store. -/
def markWritten (n : Name) : Parse Unit := do
  let s ← get
  match s.scopes.write? n with
  | some σ => set { s with scopes := σ }
  | none => failAt n.pos (.constAssigned n.name)

/-- What a function statement names is stored to, if it is a variable. -/
def markTarget : Expr → Parse Unit
  | .name n => markWritten n
  | _ => return ()

/-! ## 3. The grammar -/

/-- A block ends before a token of this kind. -/
def endsBlock : Kind → Bool
  | .eof | .keyword .end | .keyword .else | .keyword .elseif | .keyword .until => true
  | _ => false

/-- A block ends before the current token. -/
def blockFollow : Parse Bool := return endsBlock (← peek).kind

/-- The bound on the depth of calls was reached. -/
def tooDeep {α : Type} : Parse α := fail fun _ => .tooDeep

/-- Names separated by commas, from one of them on. -/
def names : Nat → Parse (List Ident)
  | 0 => tooDeep
  | depth + 1 => do
    let x ← expectName
    if ← accept (.symbol .comma) then return x :: (← names depth) else return [x]

/-- The attribute between angle brackets that may follow the name of a local. -/
def attribute? : Parse (Option Attrib) := do
  if ← accept (.symbol .lt) then
    let a ← expectName
    match Attrib.ofText? a.name with
    | none => failAt a.pos (.unknownAttribute a.name a.name)
    | some attrib =>
      let _ ← expect (.symbol .gt)
      return some attrib
  else return none

/-- The names of a `local` statement with their attributes. -/
def attributedNames : Nat → Parse (List (Ident × Option Attrib))
  | 0 => tooDeep
  | depth + 1 => do
    let x ← expectName
    let a ← attribute?
    if ← accept (.symbol .comma) then return (x, a) :: (← attributedNames depth)
    else return [(x, a)]

/-- The parameters of a function before its closing parenthesis, and whether it takes further
arguments. -/
def parameters (scope : Nat) : Nat → Parse (List Name × Bool)
  | 0 => tooDeep
  | depth + 1 => do
    if ← accept (.symbol .ellipsis) then return ([], true)
    let x ← expectName
    let x ← onScopes (·.declare x .param scope none)
    if ← accept (.symbol .comma) then
      let (xs, more) ← parameters scope depth
      return (x :: xs, more)
    else return ([x], false)

/-- The fields of the name in a function statement, from `target` on; the last one may be a method. -/
def functionName (target : Expr) : Nat → Parse (Expr × Bool)
  | 0 => tooDeep
  | depth + 1 => do
    let method ← check (.symbol .colon)
    let field ← check (.symbol .dot)
    if method || field then
      let _ ← next
      let key ← expectName
      let target := .index target.pos target (.string key.pos key.name)
      if method then return (target, true) else functionName target depth
    else return (target, false)

/-- The targets of an assignment must be names or fields.  `first` is the first token of the
statement. -/
def checkTargets (first : Token) : List Expr → Parse Unit
  | [] => return ()
  | .name n :: ts => do
    markWritten n
    checkTargets first ts
  | .index _ _ _ :: ts => checkTargets first ts
  | _ :: _ => failAt first.pos (.notAStatement first.near)

mutual

/-- A block: statements up to a token that ends it. -/
def block : Nat → Parse Block
  | 0 => tooDeep
  | depth + 1 => do
    let first ← peek
    let ss ← inScope (statements depth)
    return .mk first.pos ss

/-- The statements of a block; nothing follows a `return`. -/
def statements : Nat → Parse (List Stmt)
  | 0 => tooDeep
  | depth + 1 => do
    if ← blockFollow then return []
    else if ← check (.keyword .return) then return [← returnStat depth]
    else if ← accept (.symbol .semicolon) then statements depth
    else
      let s ← statement depth
      return s :: (← statements depth)

/-- A statement other than `return` and the empty one. -/
def statement : Nat → Parse Stmt
  | 0 => tooDeep
  | depth + 1 => do
    let t ← peek
    match t.kind with
    | .keyword .if => do
      let opener ← next
      let c ← clause depth opener
      let cs ← elseClauses depth
      let orelse ← after? (.keyword .else) (block depth)
      let _ ← expectClosing (.keyword .end) opener
      return .if opener.pos (c :: cs) orelse
    | .keyword .while => do
      let opener ← next
      let cond ← expr depth 0
      let _ ← expect (.keyword .do)
      let body ← block depth
      let _ ← expectClosing (.keyword .end) opener
      return .while opener.pos cond body
    | .keyword .do => do
      let opener ← next
      let body ← block depth
      let _ ← expectClosing (.keyword .end) opener
      return .do opener.pos body
    | .keyword .for => do
      let opener ← next
      forLoop depth opener
    | .keyword .repeat => do
      let opener ← next
      let first ← peek
      -- the condition sees the locals of the body
      let (ss, cond) ← inScope do
        let ss ← statements depth
        let _ ← expectClosing (.keyword .until) opener
        let cond ← expr depth 0
        return (ss, cond)
      return .repeat opener.pos (.mk first.pos ss) cond
    | .keyword .function => do
      let opener ← next
      let x ← expectName
      let root ← onScopes (·.reference x)
      let (target, isMethod) ← functionName (.name root) depth
      markTarget target
      let f ← funcBody depth opener isMethod
      return .function opener.pos target f isMethod
    | .keyword .local => do
      let opener ← next
      localStat depth opener
    | .keyword .break => do
      let t ← next
      return .break t.pos
    | .keyword .goto => do
      let t ← next
      let x ← expectName
      return .goto t.pos x.name
    | .symbol .colons => do
      let t ← next
      let x ← expectName
      let _ ← expect (.symbol .colons)
      return .label t.pos x.name
    | _ => exprStat depth

/-- A `return` with its values. -/
def returnStat : Nat → Parse Stmt
  | 0 => tooDeep
  | depth + 1 => do
    let t ← next
    let done ← blockFollow
    let empty ← check (.symbol .semicolon)
    let vs ← if done || empty then pure [] else exprs depth
    let _ ← accept (.symbol .semicolon)
    return .return t.pos vs

/-- A condition and its block, after the word `t` that opens them. -/
def clause : Nat → Token → Parse IfClause
  | 0, _ => tooDeep
  | depth + 1, t => do
    let cond ← expr depth 0
    let _ ← expect (.keyword .then)
    let body ← block depth
    return .mk t.pos cond body

/-- The `elseif` clauses. -/
def elseClauses : Nat → Parse (List IfClause)
  | 0 => tooDeep
  | depth + 1 => do
    if ← check (.keyword .elseif) then
      let t ← next
      let c ← clause depth t
      return c :: (← elseClauses depth)
    else return []

/-- A loop after its `for`. -/
def forLoop : Nat → Token → Parse Stmt
  | 0, _ => tooDeep
  | depth + 1, opener => do
    let x ← expectName
    let scope ← onScopes (·.newScope)
    if ← accept (.symbol .assign) then
      let start ← expr depth 0
      let _ ← expect (.symbol .comma)
      let stop ← expr depth 0
      let step ← after? (.symbol .comma) (expr depth 0)
      let var ← onScopes (·.declare x .loop scope none)
      let body ← loopBody depth opener [var]
      return .numericFor opener.pos var start stop step body
    else
      let several ← check (.symbol .comma)
      let single ← check (.keyword .in)
      if several || single then
        let xs ← after? (.symbol .comma) (names depth)
        let _ ← expect (.keyword .in)
        let vs ← exprs depth
        let ns ← onScopes (Scopes.declareAll .loop scope ((x :: xs.getD []).map fun x => (x, none)))
        let body ← loopBody depth opener ns
        return .genericFor opener.pos ns vs body
      else fail (.expected .assignOrIn)

/-- The body of a loop, in which its variables are visible. -/
def loopBody : Nat → Token → List Name → Parse Block
  | 0, _, _ => tooDeep
  | depth + 1, opener, ns => do
    let _ ← expect (.keyword .do)
    let body ← inScope do
      activate ns
      block depth
    let _ ← expectClosing (.keyword .end) opener
    return body

/-- A declaration after its `local`. -/
def localStat : Nat → Token → Parse Stmt
  | 0, _ => tooDeep
  | depth + 1, opener => do
    if ← check (.keyword .function) then
      let word ← next
      let x ← expectName
      let scope ← onScopes (·.newScope)
      let n ← onScopes (·.declare x .function scope none)
      -- visible in its own body
      activate [n]
      let f ← funcBody depth word false
      return .localFunction opener.pos n f
    else
      let scope ← onScopes (·.newScope)
      let xs ← attributedNames depth
      let vs ← after? (.symbol .assign) (exprs depth)
      let ns ← onScopes (Scopes.declareAll .local scope xs)
      activate ns
      return .local opener.pos ns (xs.map (·.2)) (vs.getD [])

/-- A call, or an assignment. -/
def exprStat : Nat → Parse Stmt
  | 0 => tooDeep
  | depth + 1 => do
    let first ← peek
    let e ← suffixedExpr depth
    let assigns ← check (.symbol .assign)
    let more ← check (.symbol .comma)
    if assigns || more then
      let ts ← moreTargets depth
      let _ ← expect (.symbol .assign)
      checkTargets first (e :: ts)
      let vs ← exprs depth
      return .assign first.pos (e :: ts) vs
    else if e.isCall then return .call first.pos e
    else fail .notAStatement

/-- The targets of an assignment after the first. -/
def moreTargets : Nat → Parse (List Expr)
  | 0 => tooDeep
  | depth + 1 => do
    if ← accept (.symbol .comma) then
      let e ← suffixedExpr depth
      return e :: (← moreTargets depth)
    else return []

/-- Parameters and body of a function.  A method has the further parameter `self`, which has no token
of its own and so does not appear in the tree. -/
def funcBody : Nat → Token → Bool → Parse FuncBody
  | 0, _, _ => tooDeep
  | depth + 1, opener, isMethod => do
    let paren ← expect (.symbol .parenOpen)
    let scope ← onScopes (·.newScope)
    let self ← onScopes (·.declareSelf isMethod scope)
    let (params, more) ← before (.symbol .parenClose) ([], false) (parameters scope depth)
    let _ ← expect (.symbol .parenClose)
    let body ← inScope do
      onScopes fun σ => ((), σ.activateSelf self)
      activate params
      block depth
    let _ ← expectClosing (.keyword .end) opener
    return .mk paren.pos params more body

/-- Expressions separated by commas. -/
def exprs : Nat → Parse (List Expr)
  | 0 => tooDeep
  | depth + 1 => do
    let e ← expr depth 0
    if ← accept (.symbol .comma) then return e :: (← exprs depth) else return [e]

/-- An expression whose operators hold their left operand more strongly than `limit`. -/
def expr : Nat → Nat → Parse Expr
  | 0, _ => tooDeep
  | depth + 1, limit => do
    let t ← peek
    match UnaryOp.ofKind? t.kind with
    | some op => do
      let _ ← next
      let e ← expr depth UnaryOp.power
      operators depth limit (.unary t.pos op e)
    | none => do
      let left ← simpleExpr depth
      operators depth limit left

/-- The operators after a left operand. -/
def operators : Nat → Nat → Expr → Parse Expr
  | 0, _, _ => tooDeep
  | depth + 1, limit, left => do
    let t ← peek
    match BinaryOp.ofKind? t.kind with
    | none => return left
    | some op =>
      if op.leftPower ≤ limit then return left
      else
        let _ ← next
        let right ← expr depth op.rightPower
        operators depth limit (.binary t.pos op left right)

/-- An operand. -/
def simpleExpr : Nat → Parse Expr
  | 0 => tooDeep
  | depth + 1 => do
    let t ← peek
    match t.kind with
    | .number v => do
      let _ ← next
      return .number t.pos v t.text
    | .string s => do
      let _ ← next
      return .string t.pos s
    | .keyword .nil => do
      let _ ← next
      return .nil t.pos
    | .keyword .true => do
      let _ ← next
      return .boolean t.pos true
    | .keyword .false => do
      let _ ← next
      return .boolean t.pos false
    | .symbol .ellipsis => do
      let _ ← next
      return .vararg t.pos
    | .symbol .braceOpen => table depth
    | .keyword .function => do
      let _ ← next
      let f ← funcBody depth t false
      return .function t.pos f
    | _ => suffixedExpr depth

/-- A name or a parenthesis, with everything applied to it. -/
def suffixedExpr : Nat → Parse Expr
  | 0 => tooDeep
  | depth + 1 => do
    let t ← peek
    match t.kind with
    | .name n => do
      let _ ← next
      let x ← onScopes (·.reference ⟨n, t.pos⟩)
      suffixes depth (.name x)
    | .symbol .parenOpen => do
      let _ ← next
      let e ← expr depth 0
      let _ ← expectClosing (.symbol .parenClose) t
      suffixes depth (.paren t.pos e)
    | _ => fail .unexpectedSymbol

/-- The fields, indices and calls applied to an expression. -/
def suffixes : Nat → Expr → Parse Expr
  | 0, _ => tooDeep
  | depth + 1, e => do
    match (← peek).kind with
    | .symbol .dot => do
      let _ ← next
      let key ← expectName
      suffixes depth (.index e.pos e (.string key.pos key.name))
    | .symbol .bracketOpen => do
      let _ ← next
      let key ← expr depth 0
      let _ ← expect (.symbol .bracketClose)
      suffixes depth (.index e.pos e key)
    | .symbol .colon => do
      let _ ← next
      let method ← expectName
      let args ← callArgs depth
      suffixes depth (.methodCall e.pos e method.name args)
    | .symbol .parenOpen | .symbol .braceOpen | .string _ => do
      let args ← callArgs depth
      suffixes depth (.call e.pos e args)
    | _ => return e

/-- The arguments of a call: a string, a table, or expressions in parentheses. -/
def callArgs : Nat → Parse (List Expr)
  | 0 => tooDeep
  | depth + 1 => do
    let t ← peek
    match t.kind with
    | .string s => do
      let _ ← next
      return [.string t.pos s]
    | .symbol .braceOpen => return [← table depth]
    | _ => do
      let opener ← expect (.symbol .parenOpen)
      let args ← before (.symbol .parenClose) [] (exprs depth)
      let _ ← expectClosing (.symbol .parenClose) opener
      return args

/-- A table constructor. -/
def table : Nat → Parse Expr
  | 0 => tooDeep
  | depth + 1 => do
    let opener ← expect (.symbol .braceOpen)
    let fs ← fields depth
    let _ ← expectClosing (.symbol .braceClose) opener
    return .table opener.pos fs

/-- The fields of a table constructor. -/
def fields : Nat → Parse (List TableField)
  | 0 => tooDeep
  | depth + 1 => do
    if ← check (.symbol .braceClose) then return []
    else
      let f ← field depth
      if ← acceptEither (.symbol .comma) (.symbol .semicolon) then return f :: (← fields depth)
      else return [f]

/-- A field: `[key] = value`, `name = value` or a value. -/
def field : Nat → Parse TableField
  | 0 => tooDeep
  | depth + 1 => do
    let t ← peek
    match t.kind, (← peekNext).kind with
    | .symbol .bracketOpen, _ => do
      let _ ← next
      let key ← expr depth 0
      let _ ← expect (.symbol .bracketClose)
      let _ ← expect (.symbol .assign)
      let value ← expr depth 0
      return .mk t.pos (some key) value
    | .name n, .symbol .assign => do
      let _ ← next
      let _ ← next
      let value ← expr depth 0
      return .mk t.pos (some (.string t.pos n)) value
    | _, _ => do
      let value ← expr depth 0
      return .mk t.pos none value

end

/-- A whole document. -/
def chunk (depth : Nat) (uri : Text) : Parse Chunk := do
  let first ← peek
  let body ← block depth
  let _ ← expect .eof
  return ⟨first.pos, body, uri, (← get).scopes.bindings⟩

end Parse

/-- The tree of a list of tokens that ends with the end of the text. -/
def parseTokens (tokens : List Token) (uri : Text) : Except SyntaxError Chunk :=
  match tokens with
  | [] => .error ⟨.start, .tooDeep⟩
  | t :: ts =>
    let depth := 10 * (ts.length + 2)
    match (Parse.chunk depth uri).run { tok := t, rest := ts } with
    | .ok (c, _) => .ok c
    | .error e => .error e

/-- The tree of a text. -/
def parse (source : Text) (uri : Text) : Except SyntaxError Chunk :=
  match tokenize source with
  | .ok tokens => parseTokens tokens uri
  | .error e => .error e

end LuaServer.Lua
