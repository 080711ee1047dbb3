/-
# Other values for the strings of a program

`revalueBlock value` gives every string of a tree the value that `value` names for its place; everything
else stays.  It is a respelling that leaves names and places alone, so tokens with other strings derive the
tree with these strings (`Proofs/Respelling.lean`), and the tree does to the variables what it did before.

Main results: `bindBlock_revalue`, `parseTokens_revalue`.
-/
import LuaServer.Proofs.ReaderComplete
import LuaServer.Proofs.ReaderSound
import LuaServer.Proofs.Respelling

namespace LuaServer.Lua

/-! ## 1. Trees -/

/-- Other values for strings, and nothing else. -/
def Respelling.revaluing (value : Pos → Text → Text) : Respelling where
  move p := p
  name n := n.name
  value := value

/-- A block with other values for its strings. -/
def revalueBlock (value : Pos → Text → Text) (b : Block) : Block := respellBlock (.revaluing value) b

/-! ## 2. Variables -/

section
variable (value : Pos → Text → Text)

theorem ident_revaluing (n : Name) : (Respelling.revaluing value).ident n = n := rfl

theorem map_ident_revaluing (ns : List Name) : ns.map (Respelling.revaluing value).ident = ns :=
  List.map_id'' (ident_revaluing value) ns

theorem writeTargets_revalue (ts : List Expr) (σ : Scopes) :
    σ.writeTargets (respellExprs (.revaluing value) ts) = σ.writeTargets ts := by
  induction ts generalizing σ with
  | nil => rfl
  | cons t ts ih =>
    cases t with
    | name n => exact congrArg _ (funext ih)
    | index p o k => exact ih σ
    | _ => rfl

mutual

theorem bindExpr_revalue : ∀ (e : Expr) (σ : Scopes),
    bindExpr (respellExpr (.revaluing value) e) σ = bindExpr e σ
  | .name _, _ | .nil _, _ | .boolean _ _, _ | .number _ _ _, _ | .string _ _, _ | .vararg _, _ => rfl
  | .function _ f, σ => bindFunc_revalue false f σ
  | .table _ fs, σ => bindFields_revalue fs σ
  | .binary _ _ l r, σ => by
    rw [respellExpr, bindExpr, bindExpr, bindExpr_revalue l, funext (bindExpr_revalue r)]
  | .unary _ _ e, σ => bindExpr_revalue e σ
  | .paren _ e, σ => bindExpr_revalue e σ
  | .index _ o k, σ => by
    rw [respellExpr, bindExpr, bindExpr, bindExpr_revalue o, funext (bindExpr_revalue k)]
  | .call _ f args, σ => by
    rw [respellExpr, bindExpr, bindExpr, bindExpr_revalue f, funext (bindExprs_revalue args)]
  | .methodCall _ o _ args, σ => by
    rw [respellExpr, bindExpr, bindExpr, bindExpr_revalue o, funext (bindExprs_revalue args)]

theorem bindExprs_revalue : ∀ (es : List Expr) (σ : Scopes),
    bindExprs (respellExprs (.revaluing value) es) σ = bindExprs es σ
  | [], _ => rfl
  | e :: es, σ => by
    rw [respellExprs, bindExprs, bindExprs, bindExpr_revalue e, funext (bindExprs_revalue es)]

theorem bindExpr?_revalue : ∀ (e : Option Expr) (σ : Scopes),
    bindExpr? (respellExpr? (.revaluing value) e) σ = bindExpr? e σ
  | none, _ => rfl
  | some e, σ => bindExpr_revalue e σ

theorem bindFields_revalue : ∀ (fs : List TableField) (σ : Scopes),
    bindFields (respellFields (.revaluing value) fs) σ = bindFields fs σ
  | [], _ => rfl
  | .mk _ k v :: fs, σ => by
    rw [respellFields, respellField, bindFields, bindFields, bindField, bindField, bindExpr?_revalue k,
      funext (bindExpr_revalue v), funext (bindFields_revalue fs)]

theorem bindFunc_revalue (isMethod : Bool) : ∀ (f : FuncBody) (σ : Scopes),
    bindFunc isMethod (respellFunc (.revaluing value) f) σ = bindFunc isMethod f σ
  | .mk _ ps more b, σ => by
    rw [respellFunc, bindFunc, bindFunc, funext (bindBlock_revalue b), map_ident_revaluing]

theorem bindBlock_revalue : ∀ (b : Block) (σ : Scopes),
    bindBlock (respellBlock (.revaluing value) b) σ = bindBlock b σ
  | .mk _ ss, σ => by
    rw [respellBlock, bindBlock, bindBlock, bindStmts_revalue ss]

theorem bindBlock?_revalue : ∀ (b : Option Block) (σ : Scopes),
    bindBlock? (respellBlock? (.revaluing value) b) σ = bindBlock? b σ
  | none, _ => rfl
  | some b, σ => bindBlock_revalue b σ

theorem bindStmts_revalue : ∀ (ss : List Stmt) (σ : Scopes),
    bindStmts (respellStmts (.revaluing value) ss) σ = bindStmts ss σ
  | [], _ => rfl
  | s :: ss, σ => by
    rw [respellStmts, bindStmts, bindStmts, bindStmt_revalue s, funext (bindStmts_revalue ss)]

theorem bindClauses_revalue : ∀ (cs : List IfClause) (σ : Scopes),
    bindClauses (respellClauses (.revaluing value) cs) σ = bindClauses cs σ
  | [], _ => rfl
  | .mk _ c b :: cs, σ => by
    rw [respellClauses, respellClause, bindClauses, bindClauses, bindClause, bindClause,
      bindExpr_revalue c, funext (bindBlock_revalue b), funext (bindClauses_revalue cs)]

theorem bindStmt_revalue : ∀ (s : Stmt) (σ : Scopes),
    bindStmt (respellStmt (.revaluing value) s) σ = bindStmt s σ
  | .local _ ns as vs, σ => by
    rw [respellStmt, bindStmt, bindStmt, bindExprs_revalue vs, map_ident_revaluing]
  | .assign _ ts vs, σ => by
    rw [respellStmt, bindStmt, bindStmt, bindExprs_revalue ts]
    simp only [writeTargets_revalue, funext (bindExprs_revalue vs)]
  | .call _ e, σ => bindExpr_revalue e σ
  | .do _ b, σ => bindBlock_revalue b σ
  | .while _ c b, σ => by
    rw [respellStmt, bindStmt, bindStmt, bindExpr_revalue c, funext (bindBlock_revalue b)]
  | .repeat _ (.mk _ ss) c, σ => by
    rw [respellStmt, respellBlock, bindStmt, bindStmt, bindStmts_revalue ss, funext (bindExpr_revalue c)]
  | .if _ cs o, σ => by
    rw [respellStmt, bindStmt, bindStmt, bindClauses_revalue cs, funext (bindBlock?_revalue o)]
  | .numericFor _ v a b c body, σ => by
    rw [respellStmt, bindStmt, bindStmt, bindExpr_revalue a]
    simp only [bindExpr_revalue b, bindExpr?_revalue c, bindBlock_revalue body, ident_revaluing]
  | .genericFor _ ns vs body, σ => by
    rw [respellStmt, bindStmt, bindStmt, bindExprs_revalue vs, map_ident_revaluing]
    simp only [bindBlock_revalue body]
  | .function _ t f m, σ => by
    have ht := writeTargets_revalue value [t]
    simp only [respellExprs] at ht
    rw [respellStmt, bindStmt, bindStmt, bindExpr_revalue t]
    simp only [ht, funext (bindFunc_revalue m f)]
  | .localFunction _ n f, σ => by
    rw [respellStmt, bindStmt, bindStmt]
    simp only [bindFunc_revalue false f, ident_revaluing]
  | .return _ vs, σ => bindExprs_revalue vs σ
  | .break _, _ | .goto _ _, _ | .label _ _, _ => rfl

end

end

/-! ## 3. Tokens -/

/-- A token with another string, written in another way. -/
def Token.revalue (value : Pos → Text → Text) (spelled : Token → Text) : Token → Token :=
  (Respelling.revaluing value).token (fun _ x => x) spelled

/-- A name stays if the tree writes it as a string, and a number stays as it was written. -/
structure Token.Keeps (value : Pos → Text → Text) (spelled : Token → Text) (t : Token) : Prop where
  name : ∀ x, t.kind = .name x → value t.pos x = x
  number : ∀ a, t.kind = .number a → spelled t = t.text

/-- **Tokens with other strings are read as the program with these strings,** with the same places and
bindings. -/
theorem parseTokens_revalue {value : Pos → Text → Text} {spelled : Token → Text} {tokens : List Token}
    {uri : Text} {c : Chunk} (hended : Ended tokens) (h : parseTokens tokens uri = .ok c)
    (hkeeps : ∀ t ∈ tokens, t.Keeps value spelled) :
    parseTokens (tokens.map (Token.revalue value spelled)) uri
      = .ok { c with body := revalueBlock value c.body } := by
  obtain ⟨t, ts, ms, next, σ, rfl, hreads, hnext, heof, hbind, hc⟩ := parseTokens_sound hended h
  have hcalled : Called (.revaluing value) (fun _ x => x) spelled ms := by
    intro m hm
    have hmem : m.tok ∈ t :: ts := by
      rw [hreads.tokens]
      exact List.mem_append_left next (List.mem_map_of_mem hm)
    obtain ⟨hname, hnumber⟩ := hkeeps m.tok hmem
    exact ⟨fun _ _ => rfl, fun _ x hx => ⟨rfl, hname x hx⟩, hnumber⟩
  have hreads' := hreads.respell hcalled
  rw [← bindBlock_revalue value] at hbind
  have hparse := parseTokens_complete uri hreads' (by simpa using hnext) (kindOf_respell_eof heof) hbind
  rw [hc]
  exact hparse

end LuaServer.Lua
