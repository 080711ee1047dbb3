/-
# New names, places and strings in a tree

A `Respelling` gives every identifier of a tree another name, every string another value and every node
another place; bindings and shape stay.  Applied to the tokens of a text as well, it carries a derivation
of the one over to the other: whether a token is a name or a string decides how reading goes on, and never
which one it is.

Not every name of a text is an identifier.  Labels, attributes and the names of fields and methods stay,
and so do those which the tree writes as strings, such as the key of `a.b` (`Mark.Called`).

Main result: `Reads.respell`.
-/
import LuaServer.Proofs.Occurrences

namespace LuaServer.Lua

open Parse (endsBlock)

/-! ## 1. Trees -/

/-- Where the nodes of a tree stand now, what its identifiers are called, and which value the string at a
place has. -/
structure Respelling where
  move : Pos → Pos
  name : Name → Text
  value : Pos → Text → Text := fun _ v => v

/-- An identifier with its new name and place. -/
def Respelling.ident (r : Respelling) (n : Name) : Name := ⟨r.move n.pos, r.name n, n.binding⟩

section
variable (r : Respelling)

mutual

/-- An expression with its new names, places and strings. -/
def respellExpr : Expr → Expr
  | .name n => .name (r.ident n)
  | .nil p => .nil (r.move p)
  | .boolean p v => .boolean (r.move p) v
  | .number p v source => .number (r.move p) v source
  | .string p v => .string (r.move p) (r.value p v)
  | .vararg p => .vararg (r.move p)
  | .function p f => .function (r.move p) (respellFunc f)
  | .table p fs => .table (r.move p) (respellFields fs)
  | .binary p op a b => .binary (r.move p) op (respellExpr a) (respellExpr b)
  | .unary p op e => .unary (r.move p) op (respellExpr e)
  | .paren p e => .paren (r.move p) (respellExpr e)
  | .index p o k => .index (r.move p) (respellExpr o) (respellExpr k)
  | .call p f as => .call (r.move p) (respellExpr f) (respellExprs as)
  | .methodCall p o m as => .methodCall (r.move p) (respellExpr o) m (respellExprs as)

/-- Each of some expressions, respelled. -/
def respellExprs : List Expr → List Expr
  | [] => []
  | e :: es => respellExpr e :: respellExprs es

/-- An expression that may be absent. -/
def respellExpr? : Option Expr → Option Expr
  | none => none
  | some e => some (respellExpr e)

/-- A field of a table; its key may be absent. -/
def respellField : TableField → TableField
  | .mk p k v => .mk (r.move p) (respellExpr? k) (respellExpr v)

/-- Each field of a table. -/
def respellFields : List TableField → List TableField
  | [] => []
  | f :: fs => respellField f :: respellFields fs

/-- A function; its parameters are identifiers. -/
def respellFunc : FuncBody → FuncBody
  | .mk p ps more b => .mk (r.move p) (ps.map r.ident) more (respellBlock b)

/-- A block, with its own place. -/
def respellBlock : Block → Block
  | .mk p ss => .mk (r.move p) (respellStmts ss)

/-- A block that may be absent. -/
def respellBlock? : Option Block → Option Block
  | none => none
  | some b => some (respellBlock b)

/-- Each of some statements. -/
def respellStmts : List Stmt → List Stmt
  | [] => []
  | s :: ss => respellStmt s :: respellStmts ss

/-- A condition with its block. -/
def respellClause : IfClause → IfClause
  | .mk p c b => .mk (r.move p) (respellExpr c) (respellBlock b)

/-- Each of some conditions with their blocks. -/
def respellClauses : List IfClause → List IfClause
  | [] => []
  | c :: cs => respellClause c :: respellClauses cs

/-- A statement.  Attributes and labels are no identifiers, so they stay. -/
def respellStmt : Stmt → Stmt
  | .local p ns as vs => .local (r.move p) (ns.map r.ident) as (respellExprs vs)
  | .assign p ts vs => .assign (r.move p) (respellExprs ts) (respellExprs vs)
  | .call p e => .call (r.move p) (respellExpr e)
  | .do p b => .do (r.move p) (respellBlock b)
  | .while p c b => .while (r.move p) (respellExpr c) (respellBlock b)
  | .repeat p b c => .repeat (r.move p) (respellBlock b) (respellExpr c)
  | .if p cs o => .if (r.move p) (respellClauses cs) (respellBlock? o)
  | .numericFor p v a b c body =>
    .numericFor (r.move p) (r.ident v) (respellExpr a) (respellExpr b) (respellExpr? c)
      (respellBlock body)
  | .genericFor p ns vs body =>
    .genericFor (r.move p) (ns.map r.ident) (respellExprs vs) (respellBlock body)
  | .function p t f m => .function (r.move p) (respellExpr t) (respellFunc f) m
  | .localFunction p n f => .localFunction (r.move p) (r.ident n) (respellFunc f)
  | .return p vs => .return (r.move p) (respellExprs vs)
  | .break p => .break (r.move p)
  | .goto p l => .goto (r.move p) l
  | .label p l => .label (r.move p) l

end

/-- A part of a program with its new names, places and strings. -/
def Item.respell : Item → Item
  | .block b => .block (respellBlock r b)
  | .stmts ss => .stmts (respellStmts r ss)
  | .stmt s => .stmt (respellStmt r s)
  | .clause c => .clause (respellClause r c)
  | .elses cs => .elses (respellClauses r cs)
  | .orelse b => .orelse (respellBlock? r b)
  | .step e => .step (respellExpr? r e)
  | .initial es => .initial (respellExprs r es)
  | .targets es => .targets (respellExprs r es)
  | .func f => .func (respellFunc r f)
  | .exprs es => .exprs (respellExprs r es)
  | .expr limit e => .expr limit (respellExpr r e)
  | .operators limit l e => .operators limit (respellExpr r l) (respellExpr r e)
  | .simple e => .simple (respellExpr r e)
  | .suffixed e => .suffixed (respellExpr r e)
  | .suffixes h e => .suffixes (respellExpr r h) (respellExpr r e)
  | .args es => .args (respellExprs r es)
  | .table e => .table (respellExpr r e)
  | .fields fs => .fields (respellFields r fs)
  | .field f => .field (respellField r f)

@[simp] theorem pos_respellExpr (e : Expr) : (respellExpr r e).pos = r.move e.pos := by
  cases e <;> rfl

@[simp] theorem isCall_respellExpr (e : Expr) : (respellExpr r e).isCall = e.isCall := by
  cases e <;> rfl

@[simp] theorem assignable_respellExpr (e : Expr) : (respellExpr r e).assignable = e.assignable := by
  cases e <;> rfl

/-- What can be stored to can still be stored to. -/
theorem all_assignable_respellExprs (es : List Expr) :
    (respellExprs r es).all Expr.assignable = es.all Expr.assignable := by
  induction es with
  | nil => rfl
  | cons e es ih => simp [respellExprs, ih]

end

section
variable {move : Pos → Pos} {f g : Name → Text} {value : Pos → Text → Text}

/-- A respelling goes by the new names alone. -/
theorem ident_congr {n : Name} (h : f n = g n) :
    Respelling.ident ⟨move, f, value⟩ n = Respelling.ident ⟨move, g, value⟩ n :=
  congrArg (fun x => Name.mk (move n.pos) x n.binding) h

theorem map_ident_congr {ns : List Name} (h : ∀ n ∈ ns, f n = g n) :
    ns.map (Respelling.ident ⟨move, f, value⟩) = ns.map (Respelling.ident ⟨move, g, value⟩) :=
  List.map_congr_left fun n hn => ident_congr (h n hn)

mutual

/-- A respelling is used on the identifiers of a tree only. -/
theorem respellExpr_congr : ∀ e : Expr, (∀ n ∈ namesIn (walkExpr e), f n = g n) →
    respellExpr ⟨move, f, value⟩ e = respellExpr ⟨move, g, value⟩ e
  | .name n, h => by simp_all [walkExpr, Expr.name?, respellExpr, Respelling.ident]
  | .nil _, _ | .boolean _ _, _ | .number _ _ _, _ | .string _ _, _ | .vararg _, _ => rfl
  | .function _ b, h => by
    rw [respellExpr, respellExpr, respellFunc_congr b h]
  | .table _ fs, h => by
    rw [respellExpr, respellExpr, respellFields_congr fs h]
  | .binary _ _ a b, h => by
    simp only [walkExpr, namesIn_cons_expr, namesIn_append, Expr.name?, Option.toList_none,
      List.nil_append, List.forall_mem_append] at h
    rw [respellExpr, respellExpr, respellExpr_congr a h.1, respellExpr_congr b h.2]
  | .unary _ _ e, h => by
    rw [respellExpr, respellExpr, respellExpr_congr e h]
  | .paren _ e, h => by
    rw [respellExpr, respellExpr, respellExpr_congr e h]
  | .index _ o k, h => by
    simp only [walkExpr, namesIn_cons_expr, namesIn_append, Expr.name?, Option.toList_none,
      List.nil_append, List.forall_mem_append] at h
    rw [respellExpr, respellExpr, respellExpr_congr o h.1, respellExpr_congr k h.2]
  | .call _ e as, h => by
    simp only [walkExpr, namesIn_cons_expr, namesIn_append, Expr.name?, Option.toList_none,
      List.nil_append, List.forall_mem_append] at h
    rw [respellExpr, respellExpr, respellExpr_congr e h.1, respellExprs_congr as h.2]
  | .methodCall _ o _ as, h => by
    simp only [walkExpr, namesIn_cons_expr, namesIn_append, Expr.name?, Option.toList_none,
      List.nil_append, List.forall_mem_append] at h
    rw [respellExpr, respellExpr, respellExpr_congr o h.1, respellExprs_congr as h.2]

theorem respellExprs_congr : ∀ es : List Expr, (∀ n ∈ namesIn (walkExprs es), f n = g n) →
    respellExprs ⟨move, f, value⟩ es = respellExprs ⟨move, g, value⟩ es
  | [], _ => rfl
  | e :: es, h => by
    simp only [walkExprs, namesIn_append, List.forall_mem_append] at h
    rw [respellExprs, respellExprs, respellExpr_congr e h.1, respellExprs_congr es h.2]

theorem respellExpr?_congr : ∀ e : Option Expr, (∀ n ∈ namesIn (walkExpr? e), f n = g n) →
    respellExpr? ⟨move, f, value⟩ e = respellExpr? ⟨move, g, value⟩ e
  | none, _ => rfl
  | some e, h => congrArg some (respellExpr_congr e h)

theorem respellFields_congr : ∀ fs : List TableField, (∀ n ∈ namesIn (walkFields fs), f n = g n) →
    respellFields ⟨move, f, value⟩ fs = respellFields ⟨move, g, value⟩ fs
  | [], _ => rfl
  | .mk _ k v :: fs, h => by
    simp only [walkFields, List.cons_append, namesIn_cons_field, namesIn_append,
      List.forall_mem_append] at h
    rw [respellFields, respellFields, respellField, respellField, respellExpr?_congr k h.1.1,
      respellExpr_congr v h.1.2, respellFields_congr fs h.2]

/-- The parameters of a function are names of it, too. -/
theorem respellFunc_congr : ∀ b : FuncBody, (∀ n ∈ namesIn (walkFunc b), f n = g n) →
    respellFunc ⟨move, f, value⟩ b = respellFunc ⟨move, g, value⟩ b
  | .mk _ ps _ b, h => by
    simp only [walkFunc, List.cons_append, namesIn_cons_func, namesIn_append, namesIn_declared,
      List.forall_mem_append] at h
    rw [respellFunc, respellFunc, respellBlock_congr b h.2, map_ident_congr h.1]

/-- Two respellings of a block are one if they agree on its names. -/
theorem respellBlock_congr : ∀ b : Block, (∀ n ∈ namesIn (walkBlock b), f n = g n) →
    respellBlock ⟨move, f, value⟩ b = respellBlock ⟨move, g, value⟩ b
  | .mk _ ss, h => by
    rw [respellBlock, respellBlock, respellStmts_congr ss h]

theorem respellBlock?_congr : ∀ b : Option Block, (∀ n ∈ namesIn (walkBlock? b), f n = g n) →
    respellBlock? ⟨move, f, value⟩ b = respellBlock? ⟨move, g, value⟩ b
  | none, _ => rfl
  | some b, h => congrArg some (respellBlock_congr b h)

theorem respellStmts_congr : ∀ ss : List Stmt, (∀ n ∈ namesIn (walkStmts ss), f n = g n) →
    respellStmts ⟨move, f, value⟩ ss = respellStmts ⟨move, g, value⟩ ss
  | [], _ => rfl
  | s :: ss, h => by
    simp only [walkStmts, namesIn_append, List.forall_mem_append] at h
    rw [respellStmts, respellStmts, respellStmt_congr s h.1, respellStmts_congr ss h.2]

theorem respellClauses_congr : ∀ cs : List IfClause, (∀ n ∈ namesIn (walkClauses cs), f n = g n) →
    respellClauses ⟨move, f, value⟩ cs = respellClauses ⟨move, g, value⟩ cs
  | [], _ => rfl
  | .mk _ c b :: cs, h => by
    simp only [walkClauses, List.cons_append, namesIn_cons_clause, namesIn_append,
      List.forall_mem_append] at h
    rw [respellClauses, respellClauses, respellClause, respellClause, respellExpr_congr c h.1.1,
      respellBlock_congr b h.1.2, respellClauses_congr cs h.2]

/-- The names that a statement declares are respelled as those it uses. -/
theorem respellStmt_congr : ∀ s : Stmt, (∀ n ∈ namesIn (walkStmt s), f n = g n) →
    respellStmt ⟨move, f, value⟩ s = respellStmt ⟨move, g, value⟩ s
  | .local _ ns _ vs, h => by
    simp only [walkStmt, namesIn_cons_stmt, namesIn_append, namesIn_declared,
      List.forall_mem_append] at h
    rw [respellStmt, respellStmt, map_ident_congr h.1, respellExprs_congr vs h.2]
  | .assign _ ts vs, h => by
    simp only [walkStmt, namesIn_cons_stmt, namesIn_append, List.forall_mem_append] at h
    rw [respellStmt, respellStmt, respellExprs_congr ts h.1, respellExprs_congr vs h.2]
  | .call _ e, h => by
    rw [respellStmt, respellStmt, respellExpr_congr e h]
  | .do _ b, h => by
    rw [respellStmt, respellStmt, respellBlock_congr b h]
  | .while _ c b, h => by
    simp only [walkStmt, namesIn_cons_stmt, namesIn_append, List.forall_mem_append] at h
    rw [respellStmt, respellStmt, respellExpr_congr c h.1, respellBlock_congr b h.2]
  | .repeat _ b c, h => by
    simp only [walkStmt, namesIn_cons_stmt, namesIn_append, List.forall_mem_append] at h
    rw [respellStmt, respellStmt, respellBlock_congr b h.1, respellExpr_congr c h.2]
  | .if _ cs o, h => by
    simp only [walkStmt, namesIn_cons_stmt, namesIn_append, List.forall_mem_append] at h
    rw [respellStmt, respellStmt, respellClauses_congr cs h.1, respellBlock?_congr o h.2]
  | .numericFor _ v a b c body, h => by
    simp only [walkStmt, namesIn_cons_stmt, List.cons_append, namesIn_cons_declared, namesIn_append,
      List.forall_mem_cons, List.forall_mem_append] at h
    obtain ⟨hv, ⟨⟨ha, hb⟩, hc⟩, hbody⟩ := h
    rw [respellStmt, respellStmt, respellExpr_congr a ha, respellExpr_congr b hb,
      respellExpr?_congr c hc, respellBlock_congr body hbody, ident_congr hv]
  | .genericFor _ ns vs body, h => by
    simp only [walkStmt, namesIn_cons_stmt, namesIn_append, namesIn_declared,
      List.forall_mem_append] at h
    rw [respellStmt, respellStmt, map_ident_congr h.1.1, respellExprs_congr vs h.1.2,
      respellBlock_congr body h.2]
  | .function _ t b _, h => by
    simp only [walkStmt, namesIn_cons_stmt, namesIn_append, List.forall_mem_append] at h
    rw [respellStmt, respellStmt, respellExpr_congr t h.1, respellFunc_congr b h.2]
  | .localFunction _ n b, h => by
    simp only [walkStmt, namesIn_cons_stmt, namesIn_cons_declared, List.forall_mem_cons] at h
    rw [respellStmt, respellStmt, ident_congr h.1, respellFunc_congr b h.2]
  | .return _ vs, h => by
    rw [respellStmt, respellStmt, respellExprs_congr vs h]
  | .break _, _ | .goto _ _, _ | .label _ _, _ => rfl

end

end

/-! ## 2. Tokens -/

/-- The kind of a token with another name or another string. -/
def Kind.respell (name string : Text → Text) : Kind → Kind
  | .name x => .name (name x)
  | .string s => .string (string s)
  | k => k

/-- A token after a change: `move` tells where tokens stand now, `call` what the name at a place is called,
`value` which value the string at a place has, and `spell` how a token is written. -/
def Token.respell (move : Pos → Pos) (call value : Pos → Text → Text) (spell : Token → Text) (t : Token) :
    Token where
  kind := t.kind.respell (call t.pos) (value t.pos)
  pos := move t.pos
  text := spell t

section
variable {f g : Text → Text} {k : Kind}

@[simp] theorem respell_eq_symbol {s : Symbol} : k.respell f g = .symbol s ↔ k = .symbol s := by
  cases k <;> simp [Kind.respell]

@[simp] theorem respell_eq_keyword {w : Keyword} : k.respell f g = .keyword w ↔ k = .keyword w := by
  cases k <;> simp [Kind.respell]

/-- What is a name now was a name. -/
theorem name_of_respell_eq {x : Text} (h : k.respell f g = .name x) : ∃ y, k = .name y := by
  cases k with
  | name y => exact ⟨y, rfl⟩
  | _ => cases h

@[simp] theorem endsBlock_respell : endsBlock (k.respell f g) = endsBlock k := by
  cases k <;> rfl

@[simp] theorem startsSuffix_respell : startsSuffix (k.respell f g) = startsSuffix k := by
  cases k <;> rfl

@[simp] theorem unaryOp_respell : UnaryOp.ofKind? (k.respell f g) = UnaryOp.ofKind? k := by
  cases k <;> rfl

@[simp] theorem binaryOp_respell : BinaryOp.ofKind? (k.respell f g) = BinaryOp.ofKind? k := by
  cases k <;> rfl

end

/-- A token that follows a respelling of the tree. -/
def Respelling.token (r : Respelling) (call : Pos → Text → Text) (spell : Token → Text) : Token → Token :=
  Token.respell r.move call r.value spell

/-- A mark that follows a respelling of the tree. -/
def Respelling.mark (r : Respelling) (call : Pos → Text → Text) (spell : Token → Text) (m : Mark) : Mark :=
  ⟨r.token call spell m.tok, m.ident.map r.ident⟩

/-- A token is called as the identifier that it became.  If it became none, then a name stays, also where
the tree writes it as a string.  Numbers stay as they were written. -/
structure Mark.Called (r : Respelling) (call : Pos → Text → Text) (spell : Token → Text) (m : Mark) :
    Prop where
  ident : ∀ n, m.ident = some n → call m.tok.pos n.name = r.name n
  plain : m.ident = none → ∀ x, m.tok.kind = .name x → call m.tok.pos x = x ∧ r.value m.tok.pos x = x
  number : ∀ a, m.tok.kind = .number a → spell m.tok = m.tok.text

section
variable {r : Respelling} {call : Pos → Text → Text} {spell : Token → Text}

/-- The token of an identifier writes its new name. -/
theorem Token.writes.respell {t : Token} {n : Name} (h : t.writes n)
    (hcall : (Mark.named t n).Called r call spell) : (r.token call spell t).writes (r.ident n) := by
  obtain ⟨hkind, hpos⟩ := h
  refine ⟨?_, congrArg r.move hpos⟩
  rw [Respelling.token, Token.respell, hkind]
  exact congrArg Kind.name (hcall.ident n rfl)

/-- A name that became no identifier stays. -/
theorem name_respell {t : Token} {x : Text} (h : t.kind = .name x)
    (hcall : (Mark.plain t).Called r call spell) : (r.token call spell t).kind = .name x := by
  rw [Respelling.token, Token.respell, h]
  exact congrArg Kind.name (hcall.plain rfl x h).1

/-- Where the tree writes a name as a string, that stays, too. -/
theorem key_respell {t : Token} {x : Text} (h : t.kind = .name x)
    (hcall : (Mark.plain t).Called r call spell) : r.value t.pos x = x := (hcall.plain rfl x h).2

/-- The field of a name stays, and stands where the expression before it does. -/
theorem respellExpr_key {t : Token} {x : Text} (h : t.kind = .name x)
    (hcall : (Mark.plain t).Called r call spell) (e : Expr) :
    respellExpr r (.index e.pos e (.string t.pos x))
      = .index (respellExpr r e).pos (respellExpr r e) (.string (r.move t.pos) x) := by
  rw [respellExpr, respellExpr, key_respell h hcall, pos_respellExpr]

section
variable {t : Token}

/-- Signs stay. -/
theorem symbol_respell {s : Symbol} (h : t.kind = .symbol s) :
    (r.token call spell t).kind = .symbol s :=
  respell_eq_symbol.mpr h

/-- Words stay. -/
theorem keyword_respell {w : Keyword} (h : t.kind = .keyword w) :
    (r.token call spell t).kind = .keyword w :=
  respell_eq_keyword.mpr h

/-- The value of a numeral stays. -/
theorem number_respell {a : Numeral} (h : t.kind = .number a) :
    (r.token call spell t).kind = .number a := by
  simp [Respelling.token, Token.respell, Kind.respell, h]

/-- A string has its new value. -/
theorem string_respell {x : Text} (h : t.kind = .string x) :
    (r.token call spell t).kind = .string (r.value t.pos x) := by
  simp [Respelling.token, Token.respell, Kind.respell, h]

end

section
variable {ts : List Token}

/-- What comes next is a name or a string, or it is what came next before. -/
theorem kindOf_respell (ts : List Token) :
    ∃ f g, kindOf (ts.map (r.token call spell)) = (kindOf ts).respell f g := by
  cases ts with
  | nil => exact ⟨id, id, rfl⟩
  | cons t ts => exact ⟨call t.pos, r.value t.pos, rfl⟩

@[simp] theorem kindOf_respell_symbol {s : Symbol} :
    kindOf (ts.map (r.token call spell)) = .symbol s ↔ kindOf ts = .symbol s := by
  obtain ⟨f, g, hf⟩ := kindOf_respell ts
  rw [hf, respell_eq_symbol]

@[simp] theorem kindOf_respell_keyword {w : Keyword} :
    kindOf (ts.map (r.token call spell)) = .keyword w ↔ kindOf ts = .keyword w := by
  obtain ⟨f, g, hf⟩ := kindOf_respell ts
  rw [hf, respell_eq_keyword]

@[simp] theorem endsBlock_kindOf_respell :
    endsBlock (kindOf (ts.map (r.token call spell))) = endsBlock (kindOf ts) := by
  obtain ⟨f, g, hf⟩ := kindOf_respell ts
  rw [hf, endsBlock_respell]

@[simp] theorem startsSuffix_kindOf_respell :
    startsSuffix (kindOf (ts.map (r.token call spell))) = startsSuffix (kindOf ts) := by
  obtain ⟨f, g, hf⟩ := kindOf_respell ts
  rw [hf, startsSuffix_respell]

@[simp] theorem unaryOp_kindOf_respell :
    UnaryOp.ofKind? (kindOf (ts.map (r.token call spell))) = UnaryOp.ofKind? (kindOf ts) := by
  obtain ⟨f, g, hf⟩ := kindOf_respell ts
  rw [hf, unaryOp_respell]

@[simp] theorem binaryOp_kindOf_respell :
    BinaryOp.ofKind? (kindOf (ts.map (r.token call spell))) = BinaryOp.ofKind? (kindOf ts) := by
  obtain ⟨f, g, hf⟩ := kindOf_respell ts
  rw [hf, binaryOp_respell]

@[simp] theorem startsStatement_kindOf_respell :
    startsStatement (kindOf (ts.map (r.token call spell))) ↔ startsStatement (kindOf ts) := by
  simp [startsStatement]

end

/-! ## 3. Lists of names -/

/-- All tokens that were read are called as they should be. -/
def Called (r : Respelling) (call : Pos → Text → Text) (spell : Token → Text) (ms : List Mark) : Prop :=
  ∀ m ∈ ms, m.Called r call spell

namespace Called

variable {m : Mark} {ms ns : List Mark}

theorem head (h : Called r call spell (m :: ms)) : m.Called r call spell := h m List.mem_cons_self

theorem tail (h : Called r call spell (m :: ms)) : Called r call spell ms :=
  fun x hx => h x (List.mem_cons_of_mem m hx)

theorem left (h : Called r call spell (ms ++ ns)) : Called r call spell ms :=
  fun x hx => h x (List.mem_append_left ns hx)

theorem right (h : Called r call spell (ms ++ ns)) : Called r call spell ns :=
  fun x hx => h x (List.mem_append_right ms hx)

end Called

section
variable {ts next : List Token} {ms : List Mark}

/-- A sign that may be left out is there if it was. -/
theorem Optional.respell {s : Symbol} (h : Optional (.symbol s) ts ms next) :
    Optional (.symbol s) (ts.map (r.token call spell)) (ms.map (r.mark call spell))
      (next.map (r.token call spell)) := by
  cases h with
  | absent hk => exact .absent (by simpa using hk)
  | present hk => exact .present (symbol_respell hk)

/-- Names separated by commas. -/
theorem Names.respell {ns : List Name} (h : Names ns ts ms next) (hms : Called r call spell ms) :
    Names (ns.map r.ident) (ts.map (r.token call spell)) (ms.map (r.mark call spell))
      (next.map (r.token call spell)) := by
  induction h with
  | last hv hk => exact .last (hv.respell hms.head) (by simpa using hk)
  | cons hv hy _ ih => exact .cons (hv.respell hms.head) (symbol_respell hy) (ih hms.tail.tail)

/-- The attribute of a local is no identifier, and so keeps its name. -/
theorem Attributes.respell {a : Option Attrib} (h : Attributes a ts ms next)
    (hms : Called r call spell ms) :
    Attributes a (ts.map (r.token call spell)) (ms.map (r.mark call spell))
      (next.map (r.token call spell)) := by
  cases h with
  | absent hk => exact .absent (by simpa using hk)
  | present ht hw ha hz =>
    exact .present (symbol_respell ht) (name_respell hw hms.tail.head) ha (symbol_respell hz)

/-- The names of a `local` statement, whose attributes stay. -/
theorem Locals.respell {xs : List (Name × Option Attrib)} (h : Locals xs ts ms next)
    (hms : Called r call spell ms) :
    Locals (xs.map fun x => (r.ident x.1, x.2)) (ts.map (r.token call spell))
      (ms.map (r.mark call spell)) (next.map (r.token call spell)) := by
  induction h with
  | last hv ha hk => exact .last (hv.respell hms.head) (ha.respell hms.tail) (by simpa using hk)
  | cons hv ha hy _ ih =>
    simp only [List.map_cons, List.map_append]
    exact .cons (hv.respell hms.head) (ha.respell hms.tail.left) (symbol_respell hy)
      (ih hms.tail.right.tail)

/-- Parameters. -/
theorem Params.respell {ns : List Name} {more : Bool} (h : Params ns more ts ms next)
    (hms : Called r call spell ms) :
    Params (ns.map r.ident) more (ts.map (r.token call spell)) (ms.map (r.mark call spell))
      (next.map (r.token call spell)) := by
  induction h with
  | ellipsis ht => exact .ellipsis (symbol_respell ht)
  | last hv hk => exact .last (hv.respell hms.head) (by simpa using hk)
  | cons hv hy _ ih => exact .cons (hv.respell hms.head) (symbol_respell hy) (ih hms.tail.tail)

/-- What stands between the parentheses of a function. -/
theorem ParamList.respell {ns : List Name} {more : Bool} (h : ParamList ns more ts ms next)
    (hms : Called r call spell ms) :
    ParamList (ns.map r.ident) more (ts.map (r.token call spell))
      (ms.map (r.mark call spell)) (next.map (r.token call spell)) := by
  cases h with
  | empty hk => exact .empty (by simpa using hk)
  | some hk h => exact .some (by simpa using hk) (h.respell hms)

/-- The fields after the name in a function statement keep their names. -/
theorem Path.respell {e e' : Expr} {m : Bool} (h : Path e e' m ts ms next)
    (hms : Called r call spell ms) :
    Path (respellExpr r e) (respellExpr r e') m (ts.map (r.token call spell))
      (ms.map (r.mark call spell)) (next.map (r.token call spell)) := by
  induction h with
  | done hc hd => exact .done (by simpa using hc) (by simpa using hd)
  | method ht hk =>
    rw [respellExpr_key hk hms.tail.head]
    exact .method (symbol_respell ht) (name_respell hk hms.tail.head)
  | field ht hk _ ih =>
    have ih := ih hms.tail.tail
    rw [respellExpr_key hk hms.tail.head] at ih
    exact .field (symbol_respell ht) (name_respell hk hms.tail.head) ih

end

/-! ## 4. The forms of the language -/

/-- **A derivation carries over to new names, places and strings.** -/
theorem Reads.respell {item : Item} {ts next : List Token} {ms : List Mark}
    (h : Reads item ts ms next) (hms : Called r call spell ms) :
    Reads (item.respell r) (ts.map (r.token call spell)) (ms.map (r.mark call spell))
      (next.map (r.token call spell)) := by
  induction h with
  | block _ ih => exact .block (ih hms)
  | stmtsEnd hk => exact .stmtsEnd (by simpa using hk)
  | returnNone ht hk ho => exact .returnNone (keyword_respell ht) (by simpa using hk) ho.respell
  | returnSome ht hend hk _ ho ih =>
    simp only [List.map_cons, List.map_append]
    exact .returnSome (keyword_respell ht) (by simpa using hend) (by simpa using hk)
      (ih hms.tail.left) ho.respell
  | stmtsSkip ht _ ih => exact .stmtsSkip (symbol_respell ht) (ih hms.tail)
  | stmtsCons hk _ _ ih₁ ih₂ =>
    simp only [List.map_append]
    exact .stmtsCons (by simpa using hk) (ih₁ hms.left) (ih₂ hms.right)
  | «if» ht _ _ _ hz ih₁ ih₂ ih₃ =>
    simp only [List.map_cons, List.map_append]
    exact .if (keyword_respell ht) (ih₁ hms.tail.left) (ih₂ hms.tail.right.left)
      (ih₃ hms.tail.right.right.left) (keyword_respell hz)
  | «while» ht _ hy _ hz ih₁ ih₂ =>
    simp only [List.map_cons, List.map_append]
    exact .while (keyword_respell ht) (ih₁ hms.tail.left) (keyword_respell hy)
      (ih₂ hms.tail.right.tail.left) (keyword_respell hz)
  | «do» ht _ hz ih =>
    simp only [List.map_cons, List.map_append]
    exact .do (keyword_respell ht) (ih hms.tail.left) (keyword_respell hz)
  | «repeat» ht _ hy _ ih₁ ih₂ =>
    simp only [List.map_cons, List.map_append]
    exact .repeat (keyword_respell ht) (ih₁ hms.tail.left) (keyword_respell hy)
      (ih₂ hms.tail.right.tail)
  | numericFor ht hv hq _ hy₁ _ _ hy₂ _ hz ih₁ ih₂ ih₃ ih₄ =>
    simp only [List.map_cons, List.map_append]
    have hrest := hms.tail.tail.tail
    exact .numericFor (keyword_respell ht) (hv.respell hms.tail.head) (symbol_respell hq)
      (ih₁ hrest.left) (symbol_respell hy₁) (ih₂ hrest.right.tail.left)
      (ih₃ hrest.right.tail.right.left) (keyword_respell hy₂)
      (ih₄ hrest.right.tail.right.right.tail.left) (keyword_respell hz)
  | genericFor ht hns hy₁ _ hy₂ _ hz ih₁ ih₂ =>
    simp only [List.map_cons, List.map_append]
    exact .genericFor (keyword_respell ht) (hns.respell hms.tail.left) (keyword_respell hy₁)
      (ih₁ hms.tail.right.tail.left) (keyword_respell hy₂)
      (ih₂ hms.tail.right.tail.right.tail.left) (keyword_respell hz)
  | functionStat ht hv hp _ ih =>
    simp only [List.map_cons, List.map_append]
    exact .functionStat (keyword_respell ht) (hv.respell hms.tail.head)
      (hp.respell hms.tail.tail.left) (ih hms.tail.tail.right)
  | localFunction ht hw hv _ ih =>
    exact .localFunction (keyword_respell ht) (keyword_respell hw) (hv.respell hms.tail.tail.head)
      (ih hms.tail.tail.tail)
  | @«local» xs _ _ _ vs _ _ t ht hxs _ ih =>
    have ht' : (r.token call spell t).kind = .keyword .local := keyword_respell ht
    have hlocal := Reads.local ht' (hxs.respell hms.tail.left) (ih hms.tail.right)
    simp only [List.map_map, Function.comp_def] at hlocal
    simp only [Item.respell, respellStmt, List.map_map, Function.comp_def, List.map_cons,
      List.map_append]
    exact hlocal
  | «break» ht => exact .break (keyword_respell ht)
  | goto ht hk => exact .goto (keyword_respell ht) (name_respell hk hms.tail.head)
  | label ht hk hz =>
    exact .label (symbol_respell ht) (name_respell hk hms.tail.head) (symbol_respell hz)
  | assign _ _ hq hall _ ih₁ ih₂ ih₃ =>
    simp only [List.map_cons, List.map_append]
    refine .assign (ih₁ hms.left) (ih₂ hms.right.left) (symbol_respell hq) ?_
      (ih₃ hms.right.right.tail)
    exact (all_assignable_respellExprs r (_ :: _)).trans hall
  | callStat _ hcall ha hc ih =>
    exact .callStat (ih hms) (by simpa using hcall) (by simpa using ha) (by simpa using hc)
  | clause _ hy _ ih₁ ih₂ =>
    simp only [List.map_cons, List.map_append]
    exact .clause (ih₁ hms.left) (keyword_respell hy) (ih₂ hms.right.tail)
  | elsesEnd hk => exact .elsesEnd (by simpa using hk)
  | elsesCons ht _ _ ih₁ ih₂ =>
    simp only [List.map_cons, List.map_append]
    exact .elsesCons (keyword_respell ht) (ih₁ hms.tail.left) (ih₂ hms.tail.right)
  | orelseNone hk => exact .orelseNone (by simpa using hk)
  | orelseSome ht _ ih => exact .orelseSome (keyword_respell ht) (ih hms.tail)
  | stepNone hk => exact .stepNone (by simpa using hk)
  | stepSome ht _ ih => exact .stepSome (symbol_respell ht) (ih hms.tail)
  | initialNone hk => exact .initialNone (by simpa using hk)
  | initialSome ht _ ih => exact .initialSome (symbol_respell ht) (ih hms.tail)
  | targetsEnd hk => exact .targetsEnd (by simpa using hk)
  | targetsCons ht _ _ ih₁ ih₂ =>
    simp only [List.map_cons, List.map_append]
    exact .targetsCons (symbol_respell ht) (ih₁ hms.tail.left) (ih₂ hms.tail.right)
  | func ht hps hy _ hz ih =>
    simp only [List.map_cons, List.map_append]
    exact .func (symbol_respell ht) (hps.respell hms.tail.left) (symbol_respell hy)
      (ih hms.tail.right.tail.left) (keyword_respell hz)
  | exprsOne _ hk ih => exact .exprsOne (ih hms) (by simpa using hk)
  | exprsCons _ hy _ ih₁ ih₂ =>
    simp only [List.map_cons, List.map_append]
    exact .exprsCons (ih₁ hms.left) (symbol_respell hy) (ih₂ hms.right.tail)
  | unary ht _ _ ih₁ ih₂ =>
    simp only [List.map_cons, List.map_append]
    exact .unary (unaryOp_respell.trans ht) (ih₁ hms.tail.left) (ih₂ hms.tail.right)
  | operand hk _ _ ih₁ ih₂ =>
    simp only [List.map_append]
    exact .operand (by simpa using hk) (ih₁ hms.left) (ih₂ hms.right)
  | operatorsEnd hk => exact .operatorsEnd (by simpa using hk)
  | operator ht hlimit _ _ ih₁ ih₂ =>
    simp only [List.map_cons, List.map_append]
    exact .operator (binaryOp_respell.trans ht) hlimit (ih₁ hms.tail.left) (ih₂ hms.tail.right)
  | @number a t next ht =>
    have htext : (r.token call spell t).text = t.text := hms.head.number a ht
    have hnumber : Reads (.simple (.number (r.move t.pos) a (r.token call spell t).text))
        ((t :: next).map (r.token call spell)) ([.plain t].map (r.mark call spell))
        (next.map (r.token call spell)) := .number (number_respell ht)
    rwa [htext] at hnumber
  | string ht => exact .string (string_respell ht)
  | nil ht => exact .nil (keyword_respell ht)
  | true ht => exact .true (keyword_respell ht)
  | false ht => exact .false (keyword_respell ht)
  | vararg ht => exact .vararg (symbol_respell ht)
  | tableExpr _ ih => exact .tableExpr (ih hms)
  | functionExpr ht _ ih => exact .functionExpr (keyword_respell ht) (ih hms.tail)
  | suffixedExpr _ ih => exact .suffixedExpr (ih hms)
  | name hv _ ih => exact .name (hv.respell hms.head) (ih hms.tail)
  | paren ht _ hz _ ih₁ ih₂ =>
    simp only [List.map_cons, List.map_append]
    exact .paren (symbol_respell ht) (ih₁ hms.tail.left) (symbol_respell hz)
      (ih₂ hms.tail.right.tail)
  | suffixesEnd hk => exact .suffixesEnd (by simpa using hk)
  | dot ht hk _ ih =>
    have ih := ih hms.tail.tail
    rw [Item.respell, respellExpr_key hk hms.tail.head] at ih
    exact .dot (symbol_respell ht) (name_respell hk hms.tail.head) ih
  | bracket ht _ hz _ ih₁ ih₂ =>
    have ih₂ := ih₂ hms.tail.right.tail
    simp only [Item.respell, respellExpr, ← pos_respellExpr] at ih₂
    simp only [List.map_cons, List.map_append]
    exact .bracket (symbol_respell ht) (ih₁ hms.tail.left) (symbol_respell hz) ih₂
  | method ht hk _ _ ih₁ ih₂ =>
    have ih₂ := ih₂ hms.tail.tail.right
    simp only [Item.respell, respellExpr, ← pos_respellExpr] at ih₂
    simp only [List.map_cons, List.map_append]
    exact .method (symbol_respell ht) (name_respell hk hms.tail.head) (ih₁ hms.tail.tail.left) ih₂
  | call _ _ ih₁ ih₂ =>
    have ih₂ := ih₂ hms.right
    simp only [Item.respell, respellExpr, ← pos_respellExpr] at ih₂
    simp only [List.map_append]
    exact .call (ih₁ hms.left) ih₂
  | argString ht => exact .argString (string_respell ht)
  | argTable _ ih => exact .argTable (ih hms)
  | argsNone ht hz => exact .argsNone (symbol_respell ht) (symbol_respell hz)
  | argsSome ht hk _ hz ih =>
    simp only [List.map_cons, List.map_append]
    exact .argsSome (symbol_respell ht) (by simpa using hk) (ih hms.tail.left) (symbol_respell hz)
  | table ht _ hz ih =>
    simp only [List.map_cons, List.map_append]
    exact .table (symbol_respell ht) (ih hms.tail.left) (symbol_respell hz)
  | fieldsEnd hk => exact .fieldsEnd (by simpa using hk)
  | fieldsLast hb _ hc hs ih =>
    exact .fieldsLast (by simpa using hb) (ih hms) (by simpa using hc) (by simpa using hs)
  | fieldsCons hb _ hy _ ih₁ ih₂ =>
    simp only [List.map_cons, List.map_append]
    exact .fieldsCons (by simpa using hb) (ih₁ hms.left) (hy.imp symbol_respell symbol_respell)
      (ih₂ hms.right.tail)
  | fieldKeyed ht _ hy hq _ ih₁ ih₂ =>
    simp only [List.map_cons, List.map_append]
    exact .fieldKeyed (symbol_respell ht) (ih₁ hms.tail.left) (symbol_respell hy)
      (symbol_respell hq) (ih₂ hms.tail.right.tail.tail)
  | fieldNamed hk hq _ ih =>
    rw [Item.respell, respellField, respellExpr?, respellExpr, key_respell hk hms.head]
    exact .fieldNamed (name_respell hk hms.head) (symbol_respell hq) (ih hms.tail.tail)
  | fieldPlain hb hname _ ih =>
    refine .fieldPlain (fun hb' => hb (respell_eq_symbol.mp hb')) ?_ (ih hms)
    intro x hx
    obtain ⟨y, hy⟩ := name_of_respell_eq hx
    simpa using hname y hy

/-- The end of the text stays the end. -/
theorem kindOf_respell_eof {ts : List Token} (h : kindOf ts = .eof) :
    kindOf (ts.map (r.token call spell)) = .eof := by
  obtain ⟨f, g, hf⟩ := kindOf_respell ts
  rw [hf, h]
  rfl

/-- The identifiers that are read are those from before, respelled. -/
theorem idents_respell (ms : List Mark) :
    idents (ms.map (r.mark call spell)) = (idents ms).map r.ident := by
  simp only [idents, List.filterMap_map, List.map_filterMap]
  rfl

end

end LuaServer.Lua
