/-
# The grammar of the language, by concatenation

`Derives phrase u rest` says that the tokens `u`, with `rest` behind them, are a `phrase`.  There is
one rule for each production, and it says of which phrases a phrase consists, one after the other.
Nothing decides between rules: `exp op exp` is a production as it stands, so operators may be grouped
in any way.  Nothing is said of places and bindings either, so the tree of a phrase is meant up to
these.

Only `Derives.suffixed` looks at what follows: a name or a parenthesis takes everything that can be
applied to it, so it never ends before a `(`.

Main result: `Reads.derives`, by which everything that is read is derived.
-/
import LuaServer.Proofs.Grammar

namespace LuaServer.Lua

/-! ## 1. Lists of names -/

/-- The token writes the name, wherever it stands. -/
def Token.spells (t : Token) (n : Name) : Prop := t.kind = .name n.name

theorem Token.spells.kind {t : Token} {n : Name} (h : t.spells n) : t.kind = .name n.name := h

/-- A sign that may be left out. -/
inductive Sign (k : Kind) : List Token → Prop
  | absent : Sign k []
  | present : t.kind = k → Sign k [t]

/-- `Name {',' Name}` -/
inductive NameList : List Name → List Token → Prop
  | one : v.spells n → NameList [n] [v]
  | cons : v.spells n → y.kind = .symbol .comma → NameList ns u → NameList (n :: ns) (v :: y :: u)

/-- `['<' Name '>']` -/
inductive Attribute : Option Attrib → List Token → Prop
  | absent : Attribute none []
  | present : t.kind = .symbol .lt → w.kind = .name x → Attrib.ofText? x = some a →
      z.kind = .symbol .gt → Attribute (some a) [t, w, z]

/-- `Name attribute {',' Name attribute}` -/
inductive LocalList : List (Name × Option Attrib) → List Token → Prop
  | one : v.spells n → Attribute a u → LocalList [(n, a)] (v :: u)
  | cons : v.spells n → Attribute a u₁ → y.kind = .symbol .comma → LocalList xs u₂ →
      LocalList ((n, a) :: xs) (v :: (u₁ ++ y :: u₂))

/-- `'...'`, or names and after them perhaps `',' '...'` -/
inductive Parameters : List Name → Bool → List Token → Prop
  | ellipsis : t.kind = .symbol .ellipsis → Parameters [] true [t]
  | one : v.spells n → Parameters [n] false [v]
  | cons : v.spells n → y.kind = .symbol .comma → Parameters ns more u →
      Parameters (n :: ns) more (v :: y :: u)

/-- `[parameters]` -/
inductive ParameterPart : List Name → Bool → List Token → Prop
  | absent : ParameterPart [] false []
  | present : Parameters ns more u → ParameterPart ns more u

/-- `{'.' Name} [':' Name]`, the fields after an expression. -/
inductive FieldPath : Expr → Expr → Bool → List Token → Prop
  | done : FieldPath e e false []
  | method : t.kind = .symbol .colon → k.kind = .name x →
      FieldPath e (.index p e (.string q x)) true [t, k]
  | field : t.kind = .symbol .dot → k.kind = .name x →
      FieldPath (.index p e (.string q x)) r m u → FieldPath e r m (t :: k :: u)

/-! ## 2. The productions -/

/-- The kinds of phrases, each with its tree. -/
inductive Phrase where
  | block (b : Block)
  | stmts (ss : List Stmt)
  | stmt (s : Stmt)
  /-- `exp then block` -/
  | clause (c : IfClause)
  /-- `{elseif exp then block}` -/
  | elses (cs : List IfClause)
  /-- `[else block]` -/
  | orelse (b : Option Block)
  /-- `[',' exp]` -/
  | step (e : Option Expr)
  /-- `['=' explist]` -/
  | initial (es : List Expr)
  /-- `{',' var}` -/
  | targets (es : List Expr)
  /-- `'(' [parameters] ')' block end` -/
  | func (f : FuncBody)
  /-- `exp {',' exp}` -/
  | exprs (es : List Expr)
  | expr (e : Expr)
  /-- A name or a parenthesis with all that is applied to it. -/
  | suffixed (e : Expr)
  /-- A name or a parenthesis with some of what is applied to it. -/
  | applied (e : Expr)
  | args (es : List Expr)
  | table (e : Expr)
  | fields (fs : List TableField)
  | field (f : TableField)

/-- `Derives phrase u rest`: the tokens `u` are a `phrase` where `rest` follows. -/
inductive Derives : Phrase → List Token → List Token → Prop
  -- blocks
  | block : Derives (.stmts ss) u rest → Derives (.block (.mk p ss)) u rest
  | stmtsEnd : Derives (.stmts []) [] rest
  | returnNone : t.kind = .keyword .return → Sign (.symbol .semicolon) u →
      Derives (.stmts [.return p []]) (t :: u) rest
  | returnSome : t.kind = .keyword .return → Derives (.exprs vs) u (w ++ rest) →
      Sign (.symbol .semicolon) w → Derives (.stmts [.return p vs]) (t :: (u ++ w)) rest
  | stmtsSkip : t.kind = .symbol .semicolon → Derives (.stmts ss) u rest →
      Derives (.stmts ss) (t :: u) rest
  | stmtsCons : Derives (.stmt s) u (w ++ rest) → Derives (.stmts ss) w rest →
      Derives (.stmts (s :: ss)) (u ++ w) rest
  -- statements
  | if : t.kind = .keyword .if → Derives (.clause c) u₁ (u₂ ++ (u₃ ++ z :: rest)) →
      Derives (.elses cs) u₂ (u₃ ++ z :: rest) → Derives (.orelse o) u₃ (z :: rest) →
      z.kind = .keyword .end →
      Derives (.stmt (.if p (c :: cs) o)) (t :: (u₁ ++ (u₂ ++ (u₃ ++ [z])))) rest
  | while : t.kind = .keyword .while → Derives (.expr c) u₁ (y :: (u₂ ++ z :: rest)) →
      y.kind = .keyword .do → Derives (.block b) u₂ (z :: rest) → z.kind = .keyword .end →
      Derives (.stmt (.while p c b)) (t :: (u₁ ++ y :: (u₂ ++ [z]))) rest
  | do : t.kind = .keyword .do → Derives (.block b) u (z :: rest) → z.kind = .keyword .end →
      Derives (.stmt (.do p b)) (t :: (u ++ [z])) rest
  | repeat : t.kind = .keyword .repeat → Derives (.block b) u₁ (y :: (u₂ ++ rest)) →
      y.kind = .keyword .until → Derives (.expr c) u₂ rest →
      Derives (.stmt (.repeat p b c)) (t :: (u₁ ++ y :: u₂)) rest
  | numericFor : t.kind = .keyword .for → v.spells n → q.kind = .symbol .assign →
      Derives (.expr a) u₁ (y₁ :: (u₂ ++ (u₃ ++ y₂ :: (u₄ ++ z :: rest)))) →
      y₁.kind = .symbol .comma → Derives (.expr b) u₂ (u₃ ++ y₂ :: (u₄ ++ z :: rest)) →
      Derives (.step o) u₃ (y₂ :: (u₄ ++ z :: rest)) → y₂.kind = .keyword .do →
      Derives (.block body) u₄ (z :: rest) → z.kind = .keyword .end →
      Derives (.stmt (.numericFor p n a b o body))
        (t :: v :: q :: (u₁ ++ y₁ :: (u₂ ++ (u₃ ++ y₂ :: (u₄ ++ [z]))))) rest
  | genericFor : t.kind = .keyword .for → NameList ns u₁ → y₁.kind = .keyword .in →
      Derives (.exprs vs) u₂ (y₂ :: (u₃ ++ z :: rest)) → y₂.kind = .keyword .do →
      Derives (.block body) u₃ (z :: rest) → z.kind = .keyword .end →
      Derives (.stmt (.genericFor p ns vs body))
        (t :: (u₁ ++ y₁ :: (u₂ ++ y₂ :: (u₃ ++ [z])))) rest
  | functionStat : t.kind = .keyword .function → v.spells n → FieldPath (.name n) target m u₁ →
      Derives (.func f) u₂ rest →
      Derives (.stmt (.function p target f m)) (t :: v :: (u₁ ++ u₂)) rest
  | localFunction : t.kind = .keyword .local → w.kind = .keyword .function → v.spells n →
      Derives (.func f) u rest → Derives (.stmt (.localFunction p n f)) (t :: w :: v :: u) rest
  | local : t.kind = .keyword .local → LocalList xs u₁ → Derives (.initial vs) u₂ rest →
      Derives (.stmt (.local p (xs.map (·.1)) (xs.map (·.2)) vs)) (t :: (u₁ ++ u₂)) rest
  | break : t.kind = .keyword .break → Derives (.stmt (.break p)) [t] rest
  | goto : t.kind = .keyword .goto → k.kind = .name x → Derives (.stmt (.goto p x)) [t, k] rest
  | label : t.kind = .symbol .colons → k.kind = .name x → z.kind = .symbol .colons →
      Derives (.stmt (.label p x)) [t, k, z] rest
  | assign : Derives (.suffixed e) u₁ (u₂ ++ q :: (u₃ ++ rest)) →
      Derives (.targets es) u₂ (q :: (u₃ ++ rest)) → q.kind = .symbol .assign →
      (e :: es).all Expr.assignable = true → Derives (.exprs vs) u₃ rest →
      Derives (.stmt (.assign p (e :: es) vs)) (u₁ ++ (u₂ ++ q :: u₃)) rest
  | callStat : Derives (.suffixed e) u rest → e.isCall = true → Derives (.stmt (.call p e)) u rest
  -- parts of statements
  | clause : Derives (.expr c) u₁ (y :: (u₂ ++ rest)) → y.kind = .keyword .then →
      Derives (.block b) u₂ rest → Derives (.clause (.mk p c b)) (u₁ ++ y :: u₂) rest
  | elsesEnd : Derives (.elses []) [] rest
  | elsesCons : t.kind = .keyword .elseif → Derives (.clause c) u₁ (u₂ ++ rest) →
      Derives (.elses cs) u₂ rest → Derives (.elses (c :: cs)) (t :: (u₁ ++ u₂)) rest
  | orelseNone : Derives (.orelse none) [] rest
  | orelseSome : t.kind = .keyword .else → Derives (.block b) u rest →
      Derives (.orelse (some b)) (t :: u) rest
  | stepNone : Derives (.step none) [] rest
  | stepSome : t.kind = .symbol .comma → Derives (.expr e) u rest →
      Derives (.step (some e)) (t :: u) rest
  | initialNone : Derives (.initial []) [] rest
  | initialSome : t.kind = .symbol .assign → Derives (.exprs vs) u rest →
      Derives (.initial vs) (t :: u) rest
  | targetsEnd : Derives (.targets []) [] rest
  | targetsCons : t.kind = .symbol .comma → Derives (.suffixed e) u₁ (u₂ ++ rest) →
      Derives (.targets es) u₂ rest → Derives (.targets (e :: es)) (t :: (u₁ ++ u₂)) rest
  | func : t.kind = .symbol .parenOpen → ParameterPart ns more u₁ → y.kind = .symbol .parenClose →
      Derives (.block b) u₂ (z :: rest) → z.kind = .keyword .end →
      Derives (.func (.mk p ns more b)) (t :: (u₁ ++ y :: (u₂ ++ [z]))) rest
  -- expressions
  | exprsOne : Derives (.expr e) u rest → Derives (.exprs [e]) u rest
  | exprsCons : Derives (.expr e) u₁ (y :: (u₂ ++ rest)) → y.kind = .symbol .comma →
      Derives (.exprs es) u₂ rest → Derives (.exprs (e :: es)) (u₁ ++ y :: u₂) rest
  | unary : UnaryOp.ofKind? t.kind = some op → Derives (.expr e) u rest →
      Derives (.expr (.unary p op e)) (t :: u) rest
  | binary : Derives (.expr l) u₁ (t :: (u₂ ++ rest)) → BinaryOp.ofKind? t.kind = some op →
      Derives (.expr r) u₂ rest → Derives (.expr (.binary p op l r)) (u₁ ++ t :: u₂) rest
  | number : t.kind = .number a → Derives (.expr (.number p a t.text)) [t] rest
  | string : t.kind = .string x → Derives (.expr (.string p x)) [t] rest
  | nil : t.kind = .keyword .nil → Derives (.expr (.nil p)) [t] rest
  | true : t.kind = .keyword .true → Derives (.expr (.boolean p true)) [t] rest
  | false : t.kind = .keyword .false → Derives (.expr (.boolean p false)) [t] rest
  | vararg : t.kind = .symbol .ellipsis → Derives (.expr (.vararg p)) [t] rest
  | tableExpr : Derives (.table e) u rest → Derives (.expr e) u rest
  | functionExpr : t.kind = .keyword .function → Derives (.func f) u rest →
      Derives (.expr (.function p f)) (t :: u) rest
  | suffixedExpr : Derives (.suffixed e) u rest → Derives (.expr e) u rest
  | suffixed : Derives (.applied e) u rest → startsSuffix (kindOf rest) = false →
      Derives (.suffixed e) u rest
  | name : v.spells n → Derives (.applied (.name n)) [v] rest
  | paren : t.kind = .symbol .parenOpen → Derives (.expr e) u (z :: rest) →
      z.kind = .symbol .parenClose → Derives (.applied (.paren p e)) (t :: (u ++ [z])) rest
  | dot : Derives (.applied h) u (t :: k :: rest) → t.kind = .symbol .dot → k.kind = .name x →
      Derives (.applied (.index p h (.string q x))) (u ++ [t, k]) rest
  | bracket : Derives (.applied h) u₁ (t :: (u₂ ++ z :: rest)) → t.kind = .symbol .bracketOpen →
      Derives (.expr i) u₂ (z :: rest) → z.kind = .symbol .bracketClose →
      Derives (.applied (.index p h i)) (u₁ ++ t :: (u₂ ++ [z])) rest
  | method : Derives (.applied h) u₁ (t :: k :: (u₂ ++ rest)) → t.kind = .symbol .colon →
      k.kind = .name x → Derives (.args as) u₂ rest →
      Derives (.applied (.methodCall p h x as)) (u₁ ++ t :: k :: u₂) rest
  | call : Derives (.applied h) u₁ (u₂ ++ rest) → Derives (.args as) u₂ rest →
      Derives (.applied (.call p h as)) (u₁ ++ u₂) rest
  | argString : t.kind = .string x → Derives (.args [.string p x]) [t] rest
  | argTable : Derives (.table e) u rest → Derives (.args [e]) u rest
  | argsNone : t.kind = .symbol .parenOpen → z.kind = .symbol .parenClose →
      Derives (.args []) [t, z] rest
  | argsSome : t.kind = .symbol .parenOpen → Derives (.exprs as) u (z :: rest) →
      z.kind = .symbol .parenClose → Derives (.args as) (t :: (u ++ [z])) rest
  | table : t.kind = .symbol .braceOpen → Derives (.fields fs) u (z :: rest) →
      z.kind = .symbol .braceClose → Derives (.table (.table p fs)) (t :: (u ++ [z])) rest
  | fieldsEnd : Derives (.fields []) [] rest
  | fieldsLast : Derives (.field f) u rest → Derives (.fields [f]) u rest
  | fieldsCons : Derives (.field f) u₁ (y :: (u₂ ++ rest)) →
      (y.kind = .symbol .comma ∨ y.kind = .symbol .semicolon) → Derives (.fields fs) u₂ rest →
      Derives (.fields (f :: fs)) (u₁ ++ y :: u₂) rest
  | fieldKeyed : t.kind = .symbol .bracketOpen → Derives (.expr i) u₁ (y :: q :: (u₂ ++ rest)) →
      y.kind = .symbol .bracketClose → q.kind = .symbol .assign → Derives (.expr e) u₂ rest →
      Derives (.field (.mk p (some i) e)) (t :: (u₁ ++ y :: q :: u₂)) rest
  | fieldNamed : k.kind = .name x → q.kind = .symbol .assign → Derives (.expr e) u rest →
      Derives (.field (.mk p (some (.string p' x)) e)) (k :: q :: u) rest
  | fieldPlain : Derives (.expr e) u rest → Derives (.field (.mk p none e)) u rest

/-! ## 3. What is read is derived -/

theorem Token.writes.spells {v : Token} {n : Name} (h : v.writes n) : v.spells n := h.1

section
variable {ts next : List Token} {ms : List Mark}

theorem Optional.toSign {k : Kind} (h : Optional k ts ms next) : Sign k (tokensOf ms) := by
  cases h with
  | absent _ => exact .absent
  | present ht => exact .present ht

theorem Names.toNameList {ns : List Name} (h : Names ns ts ms next) : NameList ns (tokensOf ms) := by
  induction h with
  | last hv _ => exact .one hv.spells
  | cons hv hy _ ih => exact .cons hv.spells hy ih

theorem Attributes.toAttribute {a : Option Attrib} (h : Attributes a ts ms next) :
    Attribute a (tokensOf ms) := by
  cases h with
  | absent _ => exact .absent
  | present ht hw ha hz => exact .present ht hw ha hz

theorem Locals.toLocalList {xs : List (Name × Option Attrib)} (h : Locals xs ts ms next) :
    LocalList xs (tokensOf ms) := by
  induction h with
  | last hv ha _ => exact .one hv.spells ha.toAttribute
  | cons hv ha hy _ ih => simpa using LocalList.cons hv.spells ha.toAttribute hy ih

theorem Params.toParameters {ns : List Name} {more : Bool} (h : Params ns more ts ms next) :
    Parameters ns more (tokensOf ms) := by
  induction h with
  | ellipsis ht => exact .ellipsis ht
  | last hv _ => exact .one hv.spells
  | cons hv hy _ ih => exact .cons hv.spells hy ih

theorem ParamList.toParameterPart {ns : List Name} {more : Bool} (h : ParamList ns more ts ms next) :
    ParameterPart ns more (tokensOf ms) := by
  cases h with
  | empty _ => exact .absent
  | some _ h => exact .present h.toParameters

theorem Path.toFieldPath {e r : Expr} {m : Bool} (h : Path e r m ts ms next) :
    FieldPath e r m (tokensOf ms) := by
  induction h with
  | done _ _ => exact .done
  | method ht hk => exact .method ht hk
  | field ht hk _ ih => exact .field ht hk ih

/-- The phrase that an item makes up, together with what its reader already held. -/
@[simp] def Item.phrase : Item → Phrase
  | .block b => .block b
  | .stmts ss => .stmts ss
  | .stmt s => .stmt s
  | .clause c => .clause c
  | .elses cs => .elses cs
  | .orelse b => .orelse b
  | .step e => .step e
  | .initial es => .initial es
  | .targets es => .targets es
  | .func f => .func f
  | .exprs es => .exprs es
  | .expr _ e | .operators _ _ e | .simple e => .expr e
  | .suffixed e | .suffixes _ e => .suffixed e
  | .args es => .args es
  | .table e => .table e
  | .fields fs => .fields fs
  | .field f => .field f

/-- The tokens of an item, after those of what its reader already held, are a phrase. -/
@[simp] def Item.Derived (ts : List Token) (u next : List Token) : Item → Prop
  | .operators _ l e => ∀ w, Derives (.expr l) w ts → Derives (.expr e) (w ++ u) next
  | .suffixes h e => ∀ w, Derives (.applied h) w ts → Derives (.suffixed e) (w ++ u) next
  | item => Derives item.phrase u next

/-- **Everything that is read is derived**, from exactly the tokens that were read. -/
theorem Reads.derives {item : Item} (h : Reads item ts ms next) :
    item.Derived ts (tokensOf ms) next := by
  induction h with
  | block _ ih => exact .block ih
  | stmtsEnd _ => exact .stmtsEnd
  | returnNone ht _ ho => exact .returnNone ht ho.toSign
  | returnSome ht _ _ _ ho ih =>
    rw [ho.tokens] at ih
    simpa using Derives.returnSome ht ih ho.toSign
  | stmtsSkip ht _ ih => exact .stmtsSkip ht ih
  | stmtsCons _ _ hss ih₁ ih₂ =>
    rw [hss.tokens] at ih₁
    simpa using Derives.stmtsCons ih₁ ih₂
  | «if» ht _ hcs ho hz ih₁ ih₂ ih₃ =>
    rw [hcs.tokens, ho.tokens] at ih₁
    rw [ho.tokens] at ih₂
    simpa using Derives.if ht ih₁ ih₂ ih₃ hz
  | «while» ht _ hy hb hz ih₁ ih₂ =>
    rw [hb.tokens] at ih₁
    simpa using Derives.while ht ih₁ hy ih₂ hz
  | «do» ht _ hz ih => simpa using Derives.do ht ih hz
  | «repeat» ht _ hy hc ih₁ ih₂ =>
    rw [hc.tokens] at ih₁
    simpa using Derives.repeat ht (.block ih₁) hy ih₂
  | numericFor ht hv hq _ hy₁ hb ho hy₂ hbody hz ih₁ ih₂ ih₃ ih₄ =>
    rw [hb.tokens, ho.tokens, hbody.tokens] at ih₁
    rw [ho.tokens, hbody.tokens] at ih₂
    rw [hbody.tokens] at ih₃
    simpa using Derives.numericFor ht hv.spells hq ih₁ hy₁ ih₂ ih₃ hy₂ ih₄ hz
  | genericFor ht hns hy₁ _ hy₂ hbody hz ih₁ ih₂ =>
    rw [hbody.tokens] at ih₁
    simpa using Derives.genericFor ht hns.toNameList hy₁ ih₁ hy₂ ih₂ hz
  | functionStat ht hv hpath _ ih =>
    simpa using Derives.functionStat ht hv.spells hpath.toFieldPath ih
  | localFunction ht hw hv _ ih => exact .localFunction ht hw hv.spells ih
  | «local» ht hxs _ ih => simpa using Derives.local ht hxs.toLocalList ih
  | «break» ht => exact .break ht
  | «goto» ht hk => exact .goto ht hk
  | label ht hk hz => exact .label ht hk hz
  | assign _ hes hq hall hvs ih₁ ih₂ ih₃ =>
    rw [hes.tokens, hvs.tokens] at ih₁
    rw [hvs.tokens] at ih₂
    simpa using Derives.assign ih₁ ih₂ hq hall ih₃
  | callStat _ hcall _ _ ih => exact .callStat ih hcall
  | clause _ hy hb ih₁ ih₂ =>
    rw [hb.tokens] at ih₁
    simpa using Derives.clause ih₁ hy ih₂
  | elsesEnd _ => exact .elsesEnd
  | elsesCons ht _ hcs ih₁ ih₂ =>
    rw [hcs.tokens] at ih₁
    simpa using Derives.elsesCons ht ih₁ ih₂
  | orelseNone _ => exact .orelseNone
  | orelseSome ht _ ih => exact .orelseSome ht ih
  | stepNone _ => exact .stepNone
  | stepSome ht _ ih => exact .stepSome ht ih
  | initialNone _ => exact .initialNone
  | initialSome ht _ ih => exact .initialSome ht ih
  | targetsEnd _ => exact .targetsEnd
  | targetsCons ht _ hes ih₁ ih₂ =>
    rw [hes.tokens] at ih₁
    simpa using Derives.targetsCons ht ih₁ ih₂
  | func ht hps hy _ hz ih => simpa using Derives.func ht hps.toParameterPart hy ih hz
  | exprsOne _ _ ih => exact .exprsOne ih
  | exprsCons _ hy hes ih₁ ih₂ =>
    rw [hes.tokens] at ih₁
    simpa using Derives.exprsCons ih₁ hy ih₂
  | unary ht _ _ ih₁ ih₂ => simpa using ih₂ _ (.unary ht ih₁)
  | operand _ _ _ ih₁ ih₂ => simpa using ih₂ _ ih₁
  | operatorsEnd _ =>
    intro w hw
    simpa using hw
  | operator ht _ hr _ ih₁ ih₂ =>
    intro w hw
    rw [hr.tokens] at hw
    simpa using ih₂ _ (.binary hw ht ih₁)
  | number ht => exact .number ht
  | string ht => exact .string ht
  | nil ht => exact .nil ht
  | «true» ht => exact .true ht
  | «false» ht => exact .false ht
  | vararg ht => exact .vararg ht
  | tableExpr _ ih => exact .tableExpr ih
  | functionExpr ht _ ih => exact .functionExpr ht ih
  | suffixedExpr _ ih => exact .suffixedExpr ih
  | name hv _ ih => exact ih _ (.name hv.spells)
  | paren ht _ hz _ ih₁ ih₂ => simpa using ih₂ _ (.paren ht ih₁ hz)
  | suffixesEnd hend =>
    intro w hw
    simpa using Derives.suffixed hw hend
  | dot ht hk _ ih =>
    intro w hw
    simpa using ih _ (.dot hw ht hk)
  | bracket ht hi hz _ ih₁ ih₂ =>
    intro w hw
    rw [hi.tokens] at hw
    simpa using ih₂ _ (.bracket hw ht ih₁ hz)
  | method ht hk hargs _ ih₁ ih₂ =>
    intro w hw
    rw [hargs.tokens] at hw
    simpa using ih₂ _ (.method hw ht hk ih₁)
  | call hargs _ ih₁ ih₂ =>
    intro w hw
    rw [hargs.tokens] at hw
    simpa using ih₂ _ (.call hw ih₁)
  | argString ht => exact .argString ht
  | argTable _ ih => exact .argTable ih
  | argsNone ht hz => exact .argsNone ht hz
  | argsSome ht _ _ hz ih => simpa using Derives.argsSome ht ih hz
  | table ht _ hz ih => simpa using Derives.table ht ih hz
  | fieldsEnd _ => exact .fieldsEnd
  | fieldsLast _ _ _ _ ih => exact .fieldsLast ih
  | fieldsCons _ _ hy hfs ih₁ ih₂ =>
    rw [hfs.tokens] at ih₁
    simpa using Derives.fieldsCons ih₁ hy ih₂
  | fieldKeyed ht _ hy hq he ih₁ ih₂ =>
    rw [he.tokens] at ih₁
    simpa using Derives.fieldKeyed ht ih₁ hy hq ih₂
  | fieldNamed hk hq _ ih => exact .fieldNamed hk hq ih
  | fieldPlain _ _ _ ih => exact .fieldPlain ih

end

/-! ## 4. The end of the text is no part of a phrase -/

section
variable {u rest : List Token}

theorem Sign.ne_eof {k : Kind} (h : Sign k u) (hk : k ≠ .eof) : ∀ t ∈ u, t.kind ≠ .eof := by
  cases h with
  | absent => simp
  | present ht => simp [ht, hk]

theorem NameList.ne_eof {ns : List Name} (h : NameList ns u) : ∀ t ∈ u, t.kind ≠ .eof := by
  induction h with
  | one hv => simp [hv.kind]
  | cons hv hy _ ih => simpa [hv.kind, hy] using ih

theorem Attribute.ne_eof {a : Option Attrib} (h : Attribute a u) : ∀ t ∈ u, t.kind ≠ .eof := by
  cases h with
  | absent => simp
  | present ht hw _ hz => simp [ht, hw, hz]

theorem LocalList.ne_eof {xs : List (Name × Option Attrib)} (h : LocalList xs u) :
    ∀ t ∈ u, t.kind ≠ .eof := by
  induction h with
  | one hv ha => simpa [hv.kind] using ha.ne_eof
  | cons hv ha hy _ ih => simpa [hv.kind, hy, or_imp, forall_and] using ⟨ha.ne_eof, ih⟩

theorem Parameters.ne_eof {ns : List Name} {more : Bool} (h : Parameters ns more u) :
    ∀ t ∈ u, t.kind ≠ .eof := by
  induction h with
  | ellipsis ht => simp [ht]
  | one hv => simp [hv.kind]
  | cons hv hy _ ih => simpa [hv.kind, hy] using ih

theorem ParameterPart.ne_eof {ns : List Name} {more : Bool} (h : ParameterPart ns more u) :
    ∀ t ∈ u, t.kind ≠ .eof := by
  cases h with
  | absent => simp
  | present h => exact h.ne_eof

theorem FieldPath.ne_eof {e r : Expr} {m : Bool} (h : FieldPath e r m u) :
    ∀ t ∈ u, t.kind ≠ .eof := by
  induction h with
  | done => simp
  | method ht hk => simp [ht, hk]
  | field ht hk _ ih => simpa [ht, hk] using ih

theorem Derives.ne_eof {phrase : Phrase} (h : Derives phrase u rest) : ∀ t ∈ u, t.kind ≠ .eof := by
  induction h with
  | returnNone ht hsign => simpa [ht] using hsign.ne_eof nofun
  | returnSome ht _ hsign ih =>
    simpa [ht, or_imp, forall_and] using ⟨ih, hsign.ne_eof nofun⟩
  | genericFor ht hns hy₁ _ hy₂ _ hz ih₁ ih₂ =>
    simpa [ht, hy₁, hy₂, hz, or_imp, forall_and] using ⟨hns.ne_eof, ih₁, ih₂⟩
  | functionStat ht hv hpath _ ih =>
    simpa [ht, hv.kind, or_imp, forall_and] using ⟨hpath.ne_eof, ih⟩
  | localFunction ht hw hv _ ih => simpa [ht, hw, hv.kind] using ih
  | «local» ht hxs _ ih => simpa [ht, or_imp, forall_and] using ⟨hxs.ne_eof, ih⟩
  | numericFor ht hv hq _ hy₁ _ _ hy₂ _ hz ih₁ ih₂ ih₃ ih₄ =>
    simpa [ht, hv.kind, hq, hy₁, hy₂, hz, or_imp, forall_and] using ⟨ih₁, ih₂, ih₃, ih₄⟩
  | func ht hps hy _ hz ih => simpa [ht, hy, hz, or_imp, forall_and] using ⟨hps.ne_eof, ih⟩
  | name hv => simp [hv.kind]
  | unary hop _ ih =>
    refine List.forall_mem_cons.mpr ⟨fun heof => ?_, ih⟩
    rw [heof] at hop
    cases hop
  | binary _ hop _ ih₁ ih₂ =>
    refine List.forall_mem_append.mpr ⟨ih₁, List.forall_mem_cons.mpr ⟨fun heof => ?_, ih₂⟩⟩
    rw [heof] at hop
    cases hop
  | fieldsCons _ hy _ ih₁ ih₂ =>
    refine List.forall_mem_append.mpr ⟨ih₁, List.forall_mem_cons.mpr ⟨?_, ih₂⟩⟩
    rcases hy with hy | hy
    · simp [hy]
    · simp [hy]
  | _ => simp_all [or_imp]

end

end LuaServer.Lua
