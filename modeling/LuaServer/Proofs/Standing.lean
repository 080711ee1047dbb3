/-
# Where the nodes of a tree stand

Every expression of a tree stands at a token of the text, which shows its name or numeral if it has one,
and every declared name is written by a token.

Main result: `Reads.standing`.
-/
import LuaServer.Proofs.Occurrences

namespace LuaServer.Lua

/-! ## 1. Where the nodes of a tree stand -/

/-- A token shows the name or the numeral that an expression is, if it is one. -/
def Token.shows (t : Token) : Expr → Prop
  | .name n => t.writes n
  | .number _ v source => t.kind = .number v ∧ t.text = source
  | _ => True

/-- An expression that is neither a name nor a numeral. -/
def Expr.isMute : Expr → Bool
  | .name _ | .number _ _ _ => false
  | _ => true

/-- An expression stands at one of the tokens, which shows it. -/
def Expr.At (ts : List Token) (e : Expr) : Prop :=
  ∃ t ∈ ts, t.pos = e.pos ∧ t.kind ≠ .eof ∧ t.shows e

/-- An expression or a declared name stands at one of the tokens. -/
def Node.At (ts : List Token) : Node → Prop
  | .expr e => e.At ts
  | .declared n => ∃ t ∈ ts, t.writes n
  | _ => True

/-- All of the nodes stand at tokens. -/
def Standing (ts : List Token) (ns : List Node) : Prop := ∀ nd ∈ ns, nd.At ts

section
variable {ts : List Token} {ms ns : List Node}

@[simp] theorem standing_nil : Standing ts [] := by simp [Standing]

@[simp] theorem standing_cons {nd : Node} : Standing ts (nd :: ns) ↔ nd.At ts ∧ Standing ts ns := by
  simp [Standing]

@[simp] theorem standing_append : Standing ts (ms ++ ns) ↔ Standing ts ms ∧ Standing ts ns := by
  simp [Standing, or_imp, forall_and]

@[simp] theorem at_declared {n : Name} : (Node.declared n).At ts ↔ ∃ t ∈ ts, t.writes n := Iff.rfl
@[simp] theorem at_expr {e : Expr} : (Node.expr e).At ts ↔ e.At ts := Iff.rfl
@[simp] theorem at_stmt {s : Stmt} : (Node.stmt s).At ts := trivial
@[simp] theorem at_block {b : Block} : (Node.block b).At ts := trivial
@[simp] theorem at_clause {c : IfClause} : (Node.clause c).At ts := trivial
@[simp] theorem at_field {f : TableField} : (Node.field f).At ts := trivial
@[simp] theorem at_func {f : FuncBody} : (Node.func f).At ts := trivial

@[simp] theorem standing_declared {xs : List Name} :
    Standing ts (xs.map .declared) ↔ ∀ n ∈ xs, ∃ t ∈ ts, t.writes n := by
  simp [Standing]

theorem Standing.head {e : Expr} (h : Standing ts (walkExpr e)) : e.At ts := by
  rw [walkExpr.eq_def] at h
  exact (standing_cons.mp h).1

/-- An expression that shows no text stands where a token does. -/
theorem Expr.at_of_pos {e : Expr} {t : Token} (ht : t ∈ ts) (hkind : t.kind ≠ .eof)
    (hpos : t.pos = e.pos) (hmute : e.isMute = true) : e.At ts := by
  refine ⟨t, ht, hpos, hkind, ?_⟩
  cases e <;> trivial

/-- An expression that begins with another one stands where that does. -/
theorem Expr.At.extend {e r : Expr} (h : e.At ts) (hpos : r.pos = e.pos)
    (hmute : r.isMute = true) : r.At ts := by
  obtain ⟨t, ht, htpos, hkind, -⟩ := h
  exact Expr.at_of_pos ht hkind (htpos.trans hpos.symm) hmute

theorem Expr.at_name {n : Name} {t : Token} (ht : t ∈ ts) (h : t.writes n) : (Expr.name n).At ts := by
  refine ⟨t, ht, h.2, ?_, h⟩
  rw [h.1]
  nofun

theorem Expr.at_number {t : Token} {v : Numeral} (ht : t ∈ ts) (hkind : t.kind = .number v) :
    (Expr.number t.pos v t.text).At ts :=
  ⟨t, ht, rfl, by simp [hkind], hkind, rfl⟩

/-- A name after a dot or a colon. -/
theorem Standing.index {e : Expr} {k : Token} {x : Text} (he : Standing ts (walkExpr e)) (hk : k ∈ ts)
    (hkind : k.kind = .name x) : Standing ts (walkExpr (.index e.pos e (.string k.pos x))) := by
  have hkey : (Expr.string k.pos x).At ts := Expr.at_of_pos hk (by simp [hkind]) rfl rfl
  simp only [walkExpr, standing_cons, standing_append, at_expr]
  exact ⟨he.head.extend rfl rfl, he, hkey, standing_nil⟩

end

/-! ## 2. Derivations -/

section
variable {all ts next : List Token} {ms : List Mark}

/-- The tokens that were read are some of `all`. -/
def Among (all : List Token) (ms : List Mark) : Prop := ∀ t ∈ tokensOf ms, t ∈ all

@[simp] theorem among_nil : Among all [] := by simp [Among]

@[simp] theorem among_plain {t : Token} : Among all (.plain t :: ms) ↔ t ∈ all ∧ Among all ms := by
  simp [Among]

@[simp] theorem among_named {t : Token} {n : Name} :
    Among all (.named t n :: ms) ↔ t ∈ all ∧ Among all ms := by
  simp [Among]

@[simp] theorem among_append {ns : List Mark} :
    Among all (ms ++ ns) ↔ Among all ms ∧ Among all ns := by
  simp [Among, or_imp, forall_and]

/-- The names that tokens became are written by them. -/
theorem Written.standing (h : Written ms) (hms : Among all ms) :
    ∀ n ∈ idents ms, ∃ t ∈ all, t.writes n := by
  intro n hn
  obtain ⟨m, hm, hident⟩ := List.mem_filterMap.mp hn
  exact ⟨m.tok, hms _ (List.mem_map_of_mem hm), h m hm n hident⟩

theorem Path.standing {e r : Expr} {m : Bool} (h : Path e r m ts ms next) (hms : Among all ms)
    (he : Standing all (walkExpr e)) : Standing all (walkExpr r) := by
  induction h with
  | done => exact he
  | method _ hk =>
    obtain ⟨-, hkey, -⟩ : _ ∧ _ ∧ _ := by simpa only [among_plain] using hms
    exact he.index hkey hk
  | field _ hk _ ih =>
    obtain ⟨-, hkey, hms⟩ : _ ∧ _ ∧ _ := by simpa only [among_plain] using hms
    exact ih hms (he.index hkey hk)

/-- The nodes of a part of a program stand at tokens.  Where the part begins with an expression that was
already read, that is so if those of the expression do. -/
def Item.Standing (all : List Token) : Item → Prop
  | .block b => Lua.Standing all (walkBlock b)
  | .stmts ss => Lua.Standing all (walkStmts ss)
  | .stmt s => Lua.Standing all (walkStmt s)
  | .clause c => Lua.Standing all (walkClauses [c])
  | .elses cs => Lua.Standing all (walkClauses cs)
  | .orelse b => Lua.Standing all (walkBlock? b)
  | .step e => Lua.Standing all (walkExpr? e)
  | .func f => Lua.Standing all (walkFunc f)
  | .initial es | .targets es | .exprs es | .args es => Lua.Standing all (walkExprs es)
  | .expr _ e | .simple e | .suffixed e | .table e => Lua.Standing all (walkExpr e)
  | .operators _ l e | .suffixes l e => Lua.Standing all (walkExpr l) → Lua.Standing all (walkExpr e)
  | .fields fs => Lua.Standing all (walkFields fs)
  | .field f => Lua.Standing all (walkFields [f])

/-- **The nodes of a part of a program stand at its tokens.** -/
theorem Reads.standing {item : Item} (h : Reads item ts ms next) (hms : Among all ms) :
    item.Standing all := by
  induction h with
  | numericFor _ hv =>
    simp only [among_plain, among_named, among_append] at hms
    simp_all [Item.Standing, walkStmt]
    exact ⟨_, hms.2.1, hv⟩
  | genericFor _ hns _ _ _ _ _ ih₁ ih₂ =>
    simp only [among_plain, among_append] at hms
    have hnames := hns.written.standing hms.2.1
    rw [hns.idents_eq] at hnames
    simp_all [Item.Standing, walkStmt]
  | functionStat _ hv hpath _ ih =>
    simp only [among_plain, among_named, among_append] at hms
    have htarget := hpath.standing hms.2.2.1 (by simp [walkExpr, Expr.at_name hms.2.1 hv])
    simp_all [Item.Standing, walkStmt]
  | localFunction _ _ hv _ ih =>
    simp only [among_plain, among_named] at hms
    simp_all [Item.Standing, walkStmt]
    exact ⟨_, hms.2.2.1, hv⟩
  | «local» _ hxs _ ih =>
    simp only [among_plain, among_append] at hms
    have hnames := hxs.written.standing hms.2.1
    rw [hxs.idents_eq] at hnames
    simp only [Item.Standing, walkStmt, standing_cons, standing_append, standing_declared]
    exact ⟨trivial, hnames, ih hms.2.2⟩
  | func _ hps _ _ _ ih =>
    simp only [among_plain, among_append] at hms
    have hnames := hps.written.standing hms.2.1
    rw [hps.idents_eq] at hnames
    simp_all [Item.Standing, walkFunc]
  | unary hop _ _ ih₁ ih₂ =>
    simp only [among_plain, among_append] at hms
    refine ih₂ hms.2.2 ?_
    simp only [walkExpr, standing_cons]
    exact ⟨Expr.at_of_pos hms.1 (fun h => by simp [h, UnaryOp.ofKind?] at hop) rfl rfl, ih₁ hms.2.1⟩
  | operator hop _ _ _ ih₁ ih₂ =>
    simp only [among_plain, among_append] at hms
    refine fun hl => ih₂ hms.2.2 ?_
    simp only [walkExpr, standing_cons, standing_append]
    exact ⟨Expr.at_of_pos hms.1 (fun h => by simp [h, BinaryOp.ofKind?] at hop) rfl rfl, hl,
      ih₁ hms.2.1⟩
  | number hkind =>
    simp only [among_plain] at hms
    simp only [Item.Standing, walkExpr, standing_cons]
    exact ⟨Expr.at_number hms.1 hkind, standing_nil⟩
  | string hkind | nil hkind | true hkind | false hkind | vararg hkind =>
    simp only [among_plain] at hms
    simp only [Item.Standing, walkExpr, standing_cons]
    exact ⟨Expr.at_of_pos hms.1 (by simp [hkind]) rfl rfl, standing_nil⟩
  | argString hkind =>
    simp only [among_plain] at hms
    simp only [Item.Standing, walkExprs, walkExpr, standing_cons, standing_append]
    exact ⟨⟨Expr.at_of_pos hms.1 (by simp [hkind]) rfl rfl, standing_nil⟩, standing_nil⟩
  | functionExpr hkind _ ih =>
    simp only [among_plain] at hms
    simp only [Item.Standing, walkExpr, standing_cons]
    exact ⟨Expr.at_of_pos hms.1 (by simp [hkind]) rfl rfl, ih hms.2⟩
  | name hv _ ih =>
    simp only [among_named] at hms
    exact ih hms.2 (by simp [walkExpr, Expr.at_name hms.1 hv])
  | paren hkind _ _ _ ih₁ ih₂ =>
    simp only [among_plain, among_append] at hms
    refine ih₂ hms.2.2.2 ?_
    simp only [walkExpr, standing_cons]
    exact ⟨Expr.at_of_pos hms.1 (by simp [hkind]) rfl rfl, ih₁ hms.2.1⟩
  | dot _ hk _ ih =>
    simp only [among_plain] at hms
    exact fun hh => ih hms.2.2 (hh.index hms.2.1 hk)
  | bracket _ _ _ _ ih₁ ih₂ =>
    simp only [among_plain, among_append] at hms
    refine fun hh => ih₂ hms.2.2.2 ?_
    simp only [walkExpr, standing_cons, standing_append]
    exact ⟨hh.head.extend rfl rfl, hh, ih₁ hms.2.1⟩
  | method _ _ _ _ ih₁ ih₂ =>
    simp only [among_plain, among_append] at hms
    refine fun hh => ih₂ hms.2.2.2 ?_
    simp only [walkExpr, standing_cons, standing_append]
    exact ⟨hh.head.extend rfl rfl, hh, ih₁ hms.2.2.1⟩
  | call _ _ ih₁ ih₂ =>
    simp only [among_append] at hms
    refine fun hh => ih₂ hms.2 ?_
    simp only [walkExpr, standing_cons, standing_append]
    exact ⟨hh.head.extend rfl rfl, hh, ih₁ hms.1⟩
  | table hkind _ _ ih =>
    simp only [among_plain, among_append] at hms
    simp only [Item.Standing, walkExpr, standing_cons]
    exact ⟨Expr.at_of_pos hms.1 (by simp [hkind]) rfl rfl, ih hms.2.1⟩
  | fieldsCons _ _ _ _ ih₁ ih₂ =>
    simp only [among_plain, among_append] at hms
    rw [Item.Standing, walkFields_cons]
    exact standing_append.mpr ⟨ih₁ hms.1, ih₂ hms.2.2⟩
  | fieldNamed hk _ _ ih =>
    simp only [among_plain] at hms
    have hkey := fun x => Expr.at_of_pos (e := .string _ x) hms.1 (by simp [hk]) rfl rfl
    simp_all [Item.Standing, walkFields, walkExpr?, walkExpr]
  | _ =>
    simp_all [Item.Standing, walkBlock, walkBlock?, walkStmts, walkStmt, walkClauses, walkExprs,
      walkExpr?, walkFields]

end

end LuaServer.Lua
