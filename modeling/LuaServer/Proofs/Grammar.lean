/-
# The grammar, with what becomes of every token

`Reads item ts ms next` says that the tokens `ts` begin with `item` and that `next` follows it.  The
list `ms` holds the tokens in between; where a token became an identifier of the tree, its mark carries
that identifier.  There is one rule for each form of the language.

Which rule applies is decided by the tokens in front, as a reader with one token of lookahead decides it
(two inside a table constructor): where a rule stops, it says what does not follow.  Nothing here knows
about variables; what reading does to them is a function of the tree (`Proofs/Binding.lean`), and the
reader is the two together (`Proofs/ReaderSound.lean`, `Proofs/ReaderComplete.lean`).
-/
import LuaServer.Lua.Parser

namespace LuaServer.Lua

open Parse (endsBlock)

/-! ## 1. Tokens and their marks -/

/-- A token that was read, and the identifier of the tree that it became, if it did. -/
structure Mark where
  tok : Token
  ident : Option Name
deriving DecidableEq, Repr

/-- A token that became no identifier. -/
def Mark.plain (t : Token) : Mark := ⟨t, none⟩

/-- A token that became an identifier. -/
def Mark.named (t : Token) (n : Name) : Mark := ⟨t, some n⟩

/-- The kind of the first token; nothing but the end stands after the last one. -/
def kindOf : List Token → Kind
  | [] => .eof
  | t :: _ => t.kind

@[simp] theorem kindOf_cons (t : Token) (ts : List Token) : kindOf (t :: ts) = t.kind := rfl

/-- The token writes the identifier. -/
def Token.writes (t : Token) (n : Name) : Prop := t.kind = .name n.name ∧ t.pos = n.pos

/-- A statement other than `return` and the empty one begins with a token of this kind, unless the
text is refused. -/
def startsStatement (k : Kind) : Prop :=
  endsBlock k = false ∧ k ≠ .keyword .return ∧ k ≠ .symbol .semicolon

/-- Something is applied to the expression before a token of this kind. -/
def startsSuffix : Kind → Bool
  | .symbol .dot | .symbol .bracketOpen | .symbol .colon | .symbol .parenOpen | .symbol .braceOpen
  | .string _ => true
  | _ => false

/-! ## 2. Lists of names -/

/-- A sign that may be left out. -/
inductive Optional (k : Kind) : List Token → List Mark → List Token → Prop
  | absent : kindOf next ≠ k → Optional k next [] next
  | present : t.kind = k → Optional k (t :: next) [.plain t] next

/-- Names separated by commas. -/
inductive Names : List Name → List Token → List Mark → List Token → Prop
  | last : v.writes n → kindOf next ≠ .symbol .comma → Names [n] (v :: next) [.named v n] next
  | cons : v.writes n → y.kind = .symbol .comma → Names ns ts ms next →
      Names (n :: ns) (v :: y :: ts) (.named v n :: .plain y :: ms) next

/-- The attribute that may follow the name of a local. -/
inductive Attributes : Option Attrib → List Token → List Mark → List Token → Prop
  | absent : kindOf next ≠ .symbol .lt → Attributes none next [] next
  | present : t.kind = .symbol .lt → w.kind = .name x → Attrib.ofText? x = some a →
      z.kind = .symbol .gt →
      Attributes (some a) (t :: w :: z :: next) [.plain t, .plain w, .plain z] next

/-- The names of a `local` statement with their attributes. -/
inductive Locals : List (Name × Option Attrib) → List Token → List Mark → List Token → Prop
  | last : v.writes n → Attributes a ts ms next → kindOf next ≠ .symbol .comma →
      Locals [(n, a)] (v :: ts) (.named v n :: ms) next
  | cons : v.writes n → Attributes a ts m₁ (y :: ts₁) → y.kind = .symbol .comma →
      Locals xs ts₁ m₂ next →
      Locals ((n, a) :: xs) (v :: ts) (.named v n :: (m₁ ++ .plain y :: m₂)) next

/-- Parameters, of which there is at least one or an ellipsis. -/
inductive Params : List Name → Bool → List Token → List Mark → List Token → Prop
  | ellipsis : t.kind = .symbol .ellipsis → Params [] true (t :: next) [.plain t] next
  | last : v.writes n → kindOf next ≠ .symbol .comma →
      Params [n] false (v :: next) [.named v n] next
  | cons : v.writes n → y.kind = .symbol .comma → Params ns more ts ms next →
      Params (n :: ns) more (v :: y :: ts) (.named v n :: .plain y :: ms) next

/-- What stands between the parentheses of a function. -/
inductive ParamList : List Name → Bool → List Token → List Mark → List Token → Prop
  | empty : kindOf next = .symbol .parenClose → ParamList [] false next [] next
  | some : kindOf ts ≠ .symbol .parenClose → Params ns more ts ms next → ParamList ns more ts ms next

/-- The fields of the name in a function statement after `target`; the last one may be a method. -/
inductive Path : Expr → Expr → Bool → List Token → List Mark → List Token → Prop
  | done : kindOf next ≠ .symbol .colon → kindOf next ≠ .symbol .dot → Path e e false next [] next
  | method : t.kind = .symbol .colon → k.kind = .name x →
      Path e (.index e.pos e (.string k.pos x)) true (t :: k :: next) [.plain t, .plain k] next
  | field : t.kind = .symbol .dot → k.kind = .name x →
      Path (.index e.pos e (.string k.pos x)) r m ts ms next →
      Path e r m (t :: k :: ts) (.plain t :: .plain k :: ms) next

/-! ## 3. The forms of the language -/

/-- A part of a program, with what its reader already holds. -/
inductive Item where
  | block (b : Block)
  | stmts (ss : List Stmt)
  | stmt (s : Stmt)
  /-- A condition and its block, after the word that opens them. -/
  | clause (c : IfClause)
  /-- The `elseif` clauses. -/
  | elses (cs : List IfClause)
  | orelse (b : Option Block)
  /-- The step of a numeric loop, with its comma. -/
  | step (e : Option Expr)
  /-- The values of a `local` statement, with their sign. -/
  | initial (es : List Expr)
  /-- The targets of an assignment after the first. -/
  | targets (es : List Expr)
  | func (f : FuncBody)
  | exprs (es : List Expr)
  /-- An expression whose operators hold their left operand more strongly than `limit`. -/
  | expr (limit : Nat) (e : Expr)
  /-- The operators after `left`, which with it make up `e`. -/
  | operators (limit : Nat) (left e : Expr)
  | simple (e : Expr)
  | suffixed (e : Expr)
  /-- What is applied to `head`, and with it makes up `e`. -/
  | suffixes (head e : Expr)
  | args (es : List Expr)
  | table (e : Expr)
  | fields (fs : List TableField)
  | field (f : TableField)

/-- The targets of an assignment are names or fields. -/
def Expr.assignable : Expr → Bool
  | .name _ | .index _ _ _ => true
  | _ => false

open Mark in
/-- `Reads item ts ms next`: the tokens `ts` begin with `item`, whose tokens are those of `ms`, and
`next` follows. -/
inductive Reads : Item → List Token → List Mark → List Token → Prop
  -- blocks
  | block : Reads (.stmts ss) (t :: ts) ms next → Reads (.block (.mk t.pos ss)) (t :: ts) ms next
  | stmtsEnd : endsBlock (kindOf next) = true → Reads (.stmts []) next [] next
  | returnNone : t.kind = .keyword .return →
      (endsBlock (kindOf ts) = true ∨ kindOf ts = .symbol .semicolon) →
      Optional (.symbol .semicolon) ts ms next →
      Reads (.stmts [.return t.pos []]) (t :: ts) (plain t :: ms) next
  | returnSome : t.kind = .keyword .return →
      endsBlock (kindOf ts) = false → kindOf ts ≠ .symbol .semicolon →
      Reads (.exprs vs) ts m₁ ts₁ → Optional (.symbol .semicolon) ts₁ m₂ next →
      Reads (.stmts [.return t.pos vs]) (t :: ts) (plain t :: (m₁ ++ m₂)) next
  | stmtsSkip : t.kind = .symbol .semicolon → Reads (.stmts ss) ts ms next →
      Reads (.stmts ss) (t :: ts) (plain t :: ms) next
  | stmtsCons : startsStatement (kindOf ts) → Reads (.stmt s) ts m₁ ts₁ →
      Reads (.stmts ss) ts₁ m₂ next → Reads (.stmts (s :: ss)) ts (m₁ ++ m₂) next
  -- statements
  | if : t.kind = .keyword .if → Reads (.clause (.mk t.pos c b)) ts m₁ ts₁ →
      Reads (.elses cs) ts₁ m₂ ts₂ → Reads (.orelse o) ts₂ m₃ (z :: next) →
      z.kind = .keyword .end →
      Reads (.stmt (.if t.pos (.mk t.pos c b :: cs) o)) (t :: ts)
        (plain t :: (m₁ ++ (m₂ ++ (m₃ ++ [plain z])))) next
  | while : t.kind = .keyword .while → Reads (.expr 0 c) ts m₁ (y :: ts₁) →
      y.kind = .keyword .do → Reads (.block b) ts₁ m₂ (z :: next) → z.kind = .keyword .end →
      Reads (.stmt (.while t.pos c b)) (t :: ts) (plain t :: (m₁ ++ plain y :: (m₂ ++ [plain z])))
        next
  | do : t.kind = .keyword .do → Reads (.block b) ts ms (z :: next) → z.kind = .keyword .end →
      Reads (.stmt (.do t.pos b)) (t :: ts) (plain t :: (ms ++ [plain z])) next
  | repeat : t.kind = .keyword .repeat → Reads (.stmts ss) (u :: ts) m₁ (y :: ts₁) →
      y.kind = .keyword .until → Reads (.expr 0 c) ts₁ m₂ next →
      Reads (.stmt (.repeat t.pos (.mk u.pos ss) c)) (t :: u :: ts)
        (plain t :: (m₁ ++ plain y :: m₂)) next
  | numericFor : t.kind = .keyword .for → v.writes n → q.kind = .symbol .assign →
      Reads (.expr 0 a) ts m₁ (y₁ :: ts₁) → y₁.kind = .symbol .comma →
      Reads (.expr 0 b) ts₁ m₂ ts₂ → Reads (.step o) ts₂ m₃ (y₂ :: ts₃) → y₂.kind = .keyword .do →
      Reads (.block body) ts₃ m₄ (z :: next) → z.kind = .keyword .end →
      Reads (.stmt (.numericFor t.pos n a b o body)) (t :: v :: q :: ts)
        (plain t :: named v n :: plain q :: (m₁ ++ plain y₁ :: (m₂ ++ (m₃ ++ plain y₂ ::
          (m₄ ++ [plain z]))))) next
  | genericFor : t.kind = .keyword .for → Names ns ts m₁ (y₁ :: ts₁) → y₁.kind = .keyword .in →
      Reads (.exprs vs) ts₁ m₂ (y₂ :: ts₂) → y₂.kind = .keyword .do →
      Reads (.block body) ts₂ m₃ (z :: next) → z.kind = .keyword .end →
      Reads (.stmt (.genericFor t.pos ns vs body)) (t :: ts)
        (plain t :: (m₁ ++ plain y₁ :: (m₂ ++ plain y₂ :: (m₃ ++ [plain z])))) next
  | functionStat : t.kind = .keyword .function → v.writes n → Path (.name n) target m ts m₁ ts₁ →
      Reads (.func f) ts₁ m₂ next →
      Reads (.stmt (.function t.pos target f m)) (t :: v :: ts)
        (plain t :: named v n :: (m₁ ++ m₂)) next
  | localFunction : t.kind = .keyword .local → w.kind = .keyword .function → v.writes n →
      Reads (.func f) ts ms next →
      Reads (.stmt (.localFunction t.pos n f)) (t :: w :: v :: ts)
        (plain t :: plain w :: named v n :: ms) next
  | local : t.kind = .keyword .local → Locals xs ts m₁ ts₁ → Reads (.initial vs) ts₁ m₂ next →
      Reads (.stmt (.local t.pos (xs.map (·.1)) (xs.map (·.2)) vs)) (t :: ts)
        (plain t :: (m₁ ++ m₂)) next
  | break : t.kind = .keyword .break → Reads (.stmt (.break t.pos)) (t :: next) [plain t] next
  | goto : t.kind = .keyword .goto → k.kind = .name x →
      Reads (.stmt (.goto t.pos x)) (t :: k :: next) [plain t, plain k] next
  | label : t.kind = .symbol .colons → k.kind = .name x → z.kind = .symbol .colons →
      Reads (.stmt (.label t.pos x)) (t :: k :: z :: next) [plain t, plain k, plain z] next
  | assign : Reads (.suffixed e) (t :: ts) m₁ ts₁ → Reads (.targets es) ts₁ m₂ (q :: ts₂) →
      q.kind = .symbol .assign → (e :: es).all Expr.assignable = true →
      Reads (.exprs vs) ts₂ m₃ next →
      Reads (.stmt (.assign t.pos (e :: es) vs)) (t :: ts) (m₁ ++ (m₂ ++ plain q :: m₃)) next
  | callStat : Reads (.suffixed e) (t :: ts) ms next → e.isCall = true →
      kindOf next ≠ .symbol .assign → kindOf next ≠ .symbol .comma →
      Reads (.stmt (.call t.pos e)) (t :: ts) ms next
  -- parts of statements
  | clause : Reads (.expr 0 c) ts m₁ (y :: ts₁) → y.kind = .keyword .then →
      Reads (.block b) ts₁ m₂ next → Reads (.clause (.mk p c b)) ts (m₁ ++ plain y :: m₂) next
  | elsesEnd : kindOf next ≠ .keyword .elseif → Reads (.elses []) next [] next
  | elsesCons : t.kind = .keyword .elseif → Reads (.clause (.mk t.pos c b)) ts m₁ ts₁ →
      Reads (.elses cs) ts₁ m₂ next →
      Reads (.elses (.mk t.pos c b :: cs)) (t :: ts) (plain t :: (m₁ ++ m₂)) next
  | orelseNone : kindOf next ≠ .keyword .else → Reads (.orelse none) next [] next
  | orelseSome : t.kind = .keyword .else → Reads (.block b) ts ms next →
      Reads (.orelse (some b)) (t :: ts) (plain t :: ms) next
  | stepNone : kindOf next ≠ .symbol .comma → Reads (.step none) next [] next
  | stepSome : t.kind = .symbol .comma → Reads (.expr 0 e) ts ms next →
      Reads (.step (some e)) (t :: ts) (plain t :: ms) next
  | initialNone : kindOf next ≠ .symbol .assign → Reads (.initial []) next [] next
  | initialSome : t.kind = .symbol .assign → Reads (.exprs vs) ts ms next →
      Reads (.initial vs) (t :: ts) (plain t :: ms) next
  | targetsEnd : kindOf next ≠ .symbol .comma → Reads (.targets []) next [] next
  | targetsCons : t.kind = .symbol .comma → Reads (.suffixed e) ts m₁ ts₁ →
      Reads (.targets es) ts₁ m₂ next →
      Reads (.targets (e :: es)) (t :: ts) (plain t :: (m₁ ++ m₂)) next
  | func : t.kind = .symbol .parenOpen → ParamList ns more ts m₁ (y :: ts₁) →
      y.kind = .symbol .parenClose → Reads (.block b) ts₁ m₂ (z :: next) → z.kind = .keyword .end →
      Reads (.func (.mk t.pos ns more b)) (t :: ts)
        (plain t :: (m₁ ++ plain y :: (m₂ ++ [plain z]))) next
  -- expressions
  | exprsOne : Reads (.expr 0 e) ts ms next → kindOf next ≠ .symbol .comma →
      Reads (.exprs [e]) ts ms next
  | exprsCons : Reads (.expr 0 e) ts m₁ (y :: ts₁) → y.kind = .symbol .comma →
      Reads (.exprs es) ts₁ m₂ next → Reads (.exprs (e :: es)) ts (m₁ ++ plain y :: m₂) next
  | unary : UnaryOp.ofKind? t.kind = some op → Reads (.expr UnaryOp.power e) ts m₁ ts₁ →
      Reads (.operators limit (.unary t.pos op e) r) ts₁ m₂ next →
      Reads (.expr limit r) (t :: ts) (plain t :: (m₁ ++ m₂)) next
  | operand : UnaryOp.ofKind? (kindOf ts) = none → Reads (.simple e) ts m₁ ts₁ →
      Reads (.operators limit e r) ts₁ m₂ next → Reads (.expr limit r) ts (m₁ ++ m₂) next
  | operatorsEnd : (∀ op, BinaryOp.ofKind? (kindOf next) = some op → op.leftPower ≤ limit) →
      Reads (.operators limit e e) next [] next
  | operator : BinaryOp.ofKind? t.kind = some op → limit < op.leftPower →
      Reads (.expr op.rightPower r) ts m₁ ts₁ →
      Reads (.operators limit (.binary t.pos op l r) e) ts₁ m₂ next →
      Reads (.operators limit l e) (t :: ts) (plain t :: (m₁ ++ m₂)) next
  | number : t.kind = .number a → Reads (.simple (.number t.pos a t.text)) (t :: next) [plain t] next
  | string : t.kind = .string x → Reads (.simple (.string t.pos x)) (t :: next) [plain t] next
  | nil : t.kind = .keyword .nil → Reads (.simple (.nil t.pos)) (t :: next) [plain t] next
  | true : t.kind = .keyword .true →
      Reads (.simple (.boolean t.pos true)) (t :: next) [plain t] next
  | false : t.kind = .keyword .false →
      Reads (.simple (.boolean t.pos false)) (t :: next) [plain t] next
  | vararg : t.kind = .symbol .ellipsis → Reads (.simple (.vararg t.pos)) (t :: next) [plain t] next
  | tableExpr : Reads (.table e) ts ms next → Reads (.simple e) ts ms next
  | functionExpr : t.kind = .keyword .function → Reads (.func f) ts ms next →
      Reads (.simple (.function t.pos f)) (t :: ts) (plain t :: ms) next
  | suffixedExpr : Reads (.suffixed e) ts ms next → Reads (.simple e) ts ms next
  | name : v.writes n → Reads (.suffixes (.name n) e) ts ms next →
      Reads (.suffixed e) (v :: ts) (named v n :: ms) next
  | paren : t.kind = .symbol .parenOpen → Reads (.expr 0 i) ts m₁ (z :: ts₁) →
      z.kind = .symbol .parenClose → Reads (.suffixes (.paren t.pos i) e) ts₁ m₂ next →
      Reads (.suffixed e) (t :: ts) (plain t :: (m₁ ++ plain z :: m₂)) next
  | suffixesEnd : startsSuffix (kindOf next) = false → Reads (.suffixes e e) next [] next
  | dot : t.kind = .symbol .dot → k.kind = .name x →
      Reads (.suffixes (.index h.pos h (.string k.pos x)) e) ts ms next →
      Reads (.suffixes h e) (t :: k :: ts) (plain t :: plain k :: ms) next
  | bracket : t.kind = .symbol .bracketOpen → Reads (.expr 0 i) ts m₁ (z :: ts₁) →
      z.kind = .symbol .bracketClose → Reads (.suffixes (.index h.pos h i) e) ts₁ m₂ next →
      Reads (.suffixes h e) (t :: ts) (plain t :: (m₁ ++ plain z :: m₂)) next
  | method : t.kind = .symbol .colon → k.kind = .name x → Reads (.args as) ts m₁ ts₁ →
      Reads (.suffixes (.methodCall h.pos h x as) e) ts₁ m₂ next →
      Reads (.suffixes h e) (t :: k :: ts) (plain t :: plain k :: (m₁ ++ m₂)) next
  | call : Reads (.args as) ts m₁ ts₁ → Reads (.suffixes (.call h.pos h as) e) ts₁ m₂ next →
      Reads (.suffixes h e) ts (m₁ ++ m₂) next
  | argString : t.kind = .string x → Reads (.args [.string t.pos x]) (t :: next) [plain t] next
  | argTable : Reads (.table e) ts ms next → Reads (.args [e]) ts ms next
  | argsNone : t.kind = .symbol .parenOpen → z.kind = .symbol .parenClose →
      Reads (.args []) (t :: z :: next) [plain t, plain z] next
  | argsSome : t.kind = .symbol .parenOpen → kindOf ts ≠ .symbol .parenClose →
      Reads (.exprs as) ts ms (z :: next) → z.kind = .symbol .parenClose →
      Reads (.args as) (t :: ts) (plain t :: (ms ++ [plain z])) next
  | table : t.kind = .symbol .braceOpen → Reads (.fields fs) ts ms (z :: next) →
      z.kind = .symbol .braceClose →
      Reads (.table (.table t.pos fs)) (t :: ts) (plain t :: (ms ++ [plain z])) next
  | fieldsEnd : kindOf next = .symbol .braceClose → Reads (.fields []) next [] next
  | fieldsLast : kindOf ts ≠ .symbol .braceClose → Reads (.field f) ts ms next →
      kindOf next ≠ .symbol .comma → kindOf next ≠ .symbol .semicolon →
      Reads (.fields [f]) ts ms next
  | fieldsCons : kindOf ts ≠ .symbol .braceClose → Reads (.field f) ts m₁ (y :: ts₁) →
      (y.kind = .symbol .comma ∨ y.kind = .symbol .semicolon) → Reads (.fields fs) ts₁ m₂ next →
      Reads (.fields (f :: fs)) ts (m₁ ++ plain y :: m₂) next
  | fieldKeyed : t.kind = .symbol .bracketOpen → Reads (.expr 0 i) ts m₁ (y :: q :: ts₁) →
      y.kind = .symbol .bracketClose → q.kind = .symbol .assign → Reads (.expr 0 e) ts₁ m₂ next →
      Reads (.field (.mk t.pos (some i) e)) (t :: ts)
        (plain t :: (m₁ ++ plain y :: plain q :: m₂)) next
  | fieldNamed : k.kind = .name x → q.kind = .symbol .assign → Reads (.expr 0 e) ts ms next →
      Reads (.field (.mk k.pos (some (.string k.pos x)) e)) (k :: q :: ts)
        (plain k :: plain q :: ms) next
  | fieldPlain : t.kind ≠ .symbol .bracketOpen →
      (∀ x, t.kind = .name x → kindOf ts ≠ .symbol .assign) → Reads (.expr 0 e) (t :: ts) ms next →
      Reads (.field (.mk t.pos none e)) (t :: ts) ms next

/-! ## 4. The tokens of a derivation -/

/-- The tokens that were read. -/
def tokensOf (ms : List Mark) : List Token := ms.map Mark.tok

@[simp] theorem tokensOf_nil : tokensOf [] = [] := rfl

@[simp] theorem tokensOf_plain (t : Token) (ms : List Mark) :
    tokensOf (.plain t :: ms) = t :: tokensOf ms := rfl

@[simp] theorem tokensOf_named (t : Token) (n : Name) (ms : List Mark) :
    tokensOf (.named t n :: ms) = t :: tokensOf ms := rfl

@[simp] theorem tokensOf_append (ms ns : List Mark) :
    tokensOf (ms ++ ns) = tokensOf ms ++ tokensOf ns := List.map_append

section
variable {ts next : List Token} {ms : List Mark}

theorem Optional.tokens {k : Kind} (h : Optional k ts ms next) : ts = tokensOf ms ++ next := by
  cases h <;> simp

theorem Names.tokens {ns : List Name} (h : Names ns ts ms next) : ts = tokensOf ms ++ next := by
  induction h <;> simp [*]

theorem Attributes.tokens {a : Option Attrib} (h : Attributes a ts ms next) :
    ts = tokensOf ms ++ next := by
  cases h <;> simp

theorem Locals.tokens {xs : List (Name × Option Attrib)} (h : Locals xs ts ms next) :
    ts = tokensOf ms ++ next := by
  induction h with
  | last _ ha _ => simp [ha.tokens]
  | cons _ ha _ _ ih => simp [ha.tokens, ih]

theorem Params.tokens {ns : List Name} {more : Bool} (h : Params ns more ts ms next) :
    ts = tokensOf ms ++ next := by
  induction h <;> simp [*]

theorem ParamList.tokens {ns : List Name} {more : Bool} (h : ParamList ns more ts ms next) :
    ts = tokensOf ms ++ next := by
  cases h with
  | empty _ => rfl
  | some _ h => exact h.tokens

theorem Path.tokens {e r : Expr} {m : Bool} (h : Path e r m ts ms next) :
    ts = tokensOf ms ++ next := by
  induction h <;> simp [*]

/-- A derivation reads exactly the tokens of its marks. -/
theorem Reads.tokens {item : Item} (h : Reads item ts ms next) : ts = tokensOf ms ++ next := by
  induction h with
  | returnNone _ _ ho => simp [ho.tokens]
  | returnSome _ _ _ _ ho ih => simp [ih, ho.tokens]
  | genericFor _ hns _ _ _ _ _ ih₁ ih₂ => simp [hns.tokens, ih₁, ih₂]
  | functionStat _ _ hp _ ih => simp [hp.tokens, ih]
  | «local» _ hxs _ ih => simp [hxs.tokens, ih]
  | func _ hps _ _ _ ih => simp [hps.tokens, ih]
  | _ => simp_all

end

end LuaServer.Lua
