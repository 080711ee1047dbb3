/-
# What the reader did at each node

Going through a tree (`Proofs/Binding.lean`) goes through every statement and every function in it.  What
that puts in the table of bindings is never changed afterwards, counts of uses apart.  So of each
statement and each function it can be said by itself what it did, and that the table of the whole chunk
still has it.

Main results: `parse_stmt` and `parse_func`; and of these `parse_local` to `parse_params` on what a node
declares, and `parse_targets_plain` on what it stores to.
-/
import LuaServer.Proofs.Resolution
import LuaServer.Proofs.Visits

namespace LuaServer.Lua

/-! ## 1. The reading of a node -/

/-- A statement or a function was read on the way to the table of `τ`. -/
def Node.Read (τ : Scopes) : Node → Prop
  | .stmt s => ∃ σ' τ', Tidy σ' ∧ bindStmt s σ' = some τ' ∧ τ'.table <+: τ.table
  | .func f => ∃ m σ' τ', Tidy σ' ∧ bindFunc m f σ' = some τ' ∧ τ'.table <+: τ.table
  | _ => True

/-- What was read stays read when the table grows. -/
theorem Node.Read.mono {τ τ' : Scopes} {nd : Node} (h : nd.Read τ) (hle : τ.table <+: τ'.table) :
    nd.Read τ' := by
  cases nd with
  | stmt s =>
    obtain ⟨σ', ρ, hσ, hs, hρ⟩ := h
    exact ⟨σ', ρ, hσ, hs, hρ.trans hle⟩
  | func f =>
    obtain ⟨m, σ', ρ, hσ, hf, hρ⟩ := h
    exact ⟨m, σ', ρ, hσ, hf, hρ.trans hle⟩
  | _ => trivial

/-- All of the nodes were read. -/
def AllRead (τ : Scopes) (ns : List Node) : Prop := ∀ nd ∈ ns, nd.Read τ

section
variable {τ : Scopes} {ms ns : List Node}

@[simp] theorem allRead_nil : AllRead τ [] := by simp [AllRead]

@[simp] theorem allRead_cons {nd : Node} : AllRead τ (nd :: ns) ↔ nd.Read τ ∧ AllRead τ ns := by
  simp [AllRead]

@[simp] theorem allRead_append : AllRead τ (ms ++ ns) ↔ AllRead τ ms ∧ AllRead τ ns := by
  simp [AllRead, or_imp, forall_and]

@[simp] theorem read_declared {n : Name} : (Node.declared n).Read τ := trivial
@[simp] theorem read_expr {e : Expr} : (Node.expr e).Read τ := trivial
@[simp] theorem read_block {b : Block} : (Node.block b).Read τ := trivial
@[simp] theorem read_clause {c : IfClause} : (Node.clause c).Read τ := trivial
@[simp] theorem read_field {f : TableField} : (Node.field f).Read τ := trivial

@[simp] theorem allRead_declared {xs : List Name} : AllRead τ (xs.map .declared) := by simp [AllRead]

end

/-- A step goes through the nodes `ns`. -/
def Reaches (ns : List Node) (f : Scopes → Option Scopes) : Prop :=
  ∀ σ τ, Tidy σ → f σ = some τ → AllRead τ ns

namespace Reaches

variable {ms ns ns' : List Node} {xs ys : List Name} {f g : Scopes → Option Scopes}

/-- Where there is no node, nothing was to be read. -/
theorem none : Reaches [] f := fun _ _ _ _ => allRead_nil

/-- The nodes may be listed in another way. -/
theorem congr (hf : Reaches ns f) (h : ∀ τ, AllRead τ ns → AllRead τ ns') : Reaches ns' f :=
  fun σ τ hσ hstep => h τ (hf σ τ hσ hstep)

/-- One part after another: the table only grows. -/
theorem bind (hf : Reaches ms f) (hfinds : Finds xs f) (hg : Reaches ns g) (hgrows : Finds ys g) :
    Reaches (ms ++ ns) fun σ => (f σ).bind g := by
  intro σ τ hσ h
  obtain ⟨ρ, h₁, h₂⟩ := Option.bind_eq_some_iff.mp h
  have hfirst := hf σ ρ hσ h₁
  have hle := (hgrows ρ τ h₂).grows
  refine allRead_append.mpr ⟨fun nd hnd => (hfirst nd hnd).mono hle, ?_⟩
  exact hg ρ τ ((hfinds σ ρ h₁).tidy hσ) h₂

/-- Hiding names changes nothing in the table. -/
theorem hide (hf : Reaches ns f) : Reaches ns fun σ => (f σ).map σ.hide := by
  intro σ τ hσ h
  obtain ⟨ρ, hρ, rfl⟩ := Option.map_eq_some_iff.mp h
  exact fun nd hnd => (hf σ ρ hσ hρ nd hnd).mono List.prefix_rfl

/-- A step in a new scope. -/
theorem scope {f : Nat → Scopes → Option Scopes} (hf : ∀ scope, Reaches ns (f scope)) :
    Reaches ns fun σ => f σ.newScope.1 σ.newScope.2 :=
  fun σ τ hσ h => hf σ.newScope.1 σ.newScope.2 τ ⟨hσ.locals, hσ.globals⟩ h

/-- Names that are declared, and are visible during a step only. -/
theorem loop (kind : BindingKind) (scope : Nat) (xs : List Name) (hf : Reaches ns f) :
    Reaches ns fun σ =>
      (σ.declareNames kind scope (bare xs)).bind fun τ => (f (τ.activate xs)).map τ.hide := by
  intro σ τ hσ h
  obtain ⟨ρ, h₁, h₂⟩ := Option.bind_eq_some_iff.mp h
  obtain ⟨ρ₂, hbody, rfl⟩ := Option.map_eq_some_iff.mp h₂
  have hfound := Finds.declareNames kind scope (bare xs) σ ρ h₁
  rw [map_fst_bare] at hfound
  exact fun nd hnd => (hf _ ρ₂ (hfound.activate.tidy hσ) hbody nd hnd).mono List.prefix_rfl

/-- A statement is read itself. -/
theorem stmt {s : Stmt} (h : Reaches ns (bindStmt s)) : Reaches (.stmt s :: ns) (bindStmt s) :=
  fun σ τ hσ hs => allRead_cons.mpr ⟨⟨σ, τ, hσ, hs, List.prefix_rfl⟩, h σ τ hσ hs⟩

end Reaches

mutual

/-- Functions are the nodes of an expression that were read by themselves. -/
theorem bindExpr_reaches : ∀ e : Expr, Reaches (walkExpr e) (bindExpr e)
  | .name _ | .nil _ | .boolean _ _ | .number _ _ _ | .string _ _ | .vararg _ =>
    Reaches.none.congr (by simp [walkExpr])
  | .function _ f => (bindFunc_reaches false f).congr (by simp [walkExpr])
  | .table _ fs => (bindFields_reaches fs).congr (by simp [walkExpr])
  | .binary _ _ l r =>
    ((bindExpr_reaches l).bind (bindExpr_finds l) (bindExpr_reaches r) (bindExpr_finds r)).congr
      (by simp [walkExpr])
  | .unary _ _ e => (bindExpr_reaches e).congr (by simp [walkExpr])
  | .paren _ e => (bindExpr_reaches e).congr (by simp [walkExpr])
  | .index _ o k =>
    ((bindExpr_reaches o).bind (bindExpr_finds o) (bindExpr_reaches k) (bindExpr_finds k)).congr
      (by simp [walkExpr])
  | .call _ f as =>
    ((bindExpr_reaches f).bind (bindExpr_finds f) (bindExprs_reaches as) (bindExprs_finds as)).congr
      (by simp [walkExpr])
  | .methodCall _ o _ as =>
    ((bindExpr_reaches o).bind (bindExpr_finds o) (bindExprs_reaches as) (bindExprs_finds as)).congr
      (by simp [walkExpr])

theorem bindExprs_reaches : ∀ es : List Expr, Reaches (walkExprs es) (bindExprs es)
  | [] => Reaches.none
  | e :: es => (bindExpr_reaches e).bind (bindExpr_finds e) (bindExprs_reaches es) (bindExprs_finds es)

theorem bindExpr?_reaches : ∀ e : Option Expr, Reaches (walkExpr? e) (bindExpr? e)
  | none => Reaches.none
  | some e => bindExpr_reaches e

theorem bindField_reaches : ∀ f : TableField, Reaches (walkFields [f]) (bindField f)
  | .mk _ k v =>
    ((bindExpr?_reaches k).bind (bindExpr?_finds k) (bindExpr_reaches v) (bindExpr_finds v)).congr
      (by simp [walkFields])

theorem bindFields_reaches : ∀ fs : List TableField, Reaches (walkFields fs) (bindFields fs)
  | [] => Reaches.none
  | .mk p k v :: fs =>
    ((bindField_reaches (.mk p k v)).bind (bindField_finds (.mk p k v)) (bindFields_reaches fs)
      (bindFields_finds fs)).congr (by simp [walkFields])

/-- A function was read where its scope was opened, and its body after that. -/
theorem bindFunc_reaches (isMethod : Bool) : ∀ f : FuncBody,
    Reaches (walkFunc f) (bindFunc isMethod f)
  | .mk p ps v b => by
    intro σ τ hσ hfunc
    have hbody := hfunc
    rw [bindFunc] at hbody
    obtain ⟨ρ, hps, hbody⟩ := Option.bind_eq_some_iff.mp hbody
    obtain ⟨ρ₂, hblock, rfl⟩ := Option.map_eq_some_iff.mp hbody
    obtain ⟨hself, hid⟩ := Found.declareSelf σ.newScope.2 isMethod σ.newScope.1
    have hnames := Finds.declareNames .param σ.newScope.1 (bare ps) _ ρ hps
    rw [map_fst_bare] at hnames
    have htidy := (hnames.activateSelf hid).activate.tidy (hself.tidy ⟨hσ.locals, hσ.globals⟩)
    have hread := bindBlock_reaches b _ ρ₂ htidy hblock
    simp only [walkFunc, List.cons_append, allRead_cons, allRead_append, allRead_declared, true_and]
    refine ⟨⟨isMethod, σ, _, hσ, hfunc, List.prefix_rfl⟩, fun nd hnd => ?_⟩
    exact (hread nd hnd).mono List.prefix_rfl

/-- A block has the nodes of its statements. -/
theorem bindBlock_reaches : ∀ b : Block, Reaches (walkBlock b) (bindBlock b)
  | .mk _ ss => (bindStmts_reaches ss).hide.congr (by simp [walkBlock])

theorem bindBlock?_reaches : ∀ b : Option Block, Reaches (walkBlock? b) (bindBlock? b)
  | none => Reaches.none
  | some b => bindBlock_reaches b

/-- The statements were read in their order. -/
theorem bindStmts_reaches : ∀ ss : List Stmt, Reaches (walkStmts ss) (bindStmts ss)
  | [] => Reaches.none
  | s :: ss => (bindStmt_reaches s).bind (bindStmt_finds s) (bindStmts_reaches ss) (bindStmts_finds ss)

theorem bindClause_reaches : ∀ c : IfClause, Reaches (walkClauses [c]) (bindClause c)
  | .mk _ c b =>
    ((bindExpr_reaches c).bind (bindExpr_finds c) (bindBlock_reaches b) (bindBlock_finds b)).congr
      (by simp [walkClauses])

theorem bindClauses_reaches : ∀ cs : List IfClause, Reaches (walkClauses cs) (bindClauses cs)
  | [] => Reaches.none
  | .mk p c b :: cs =>
    ((bindClause_reaches (.mk p c b)).bind (bindClause_finds (.mk p c b)) (bindClauses_reaches cs)
      (bindClauses_finds cs)).congr (by simp [walkClauses])

/-- A statement was read by itself, and its parts on the way. -/
theorem bindStmt_reaches (s : Stmt) : Reaches (walkStmt s) (bindStmt s) := by
  rw [walkStmt.eq_def]
  refine Reaches.stmt ?_
  cases s with
  | «local» _ ns as vs =>
    have hlocal := Reaches.scope fun scope =>
      (bindExprs_reaches vs).bind (bindExprs_finds vs) Reaches.none (Finds.locals scope ns as)
    exact hlocal.congr (by simp)
  | assign _ ts vs =>
    have hvs : Finds _ fun σ => (σ.writeTargets ts).bind (bindExprs vs) :=
      (Finds.writeTargets ts).bind (bindExprs_finds vs)
    have hassign := (bindExprs_reaches ts).bind (bindExprs_finds ts)
      (Reaches.none.bind (Finds.writeTargets ts) (bindExprs_reaches vs) (bindExprs_finds vs)) hvs
    exact hassign.congr (by simp)
  | call _ e => exact bindExpr_reaches e
  | «do» _ b => exact bindBlock_reaches b
  | «while» _ c b =>
    exact (bindExpr_reaches c).bind (bindExpr_finds c) (bindBlock_reaches b) (bindBlock_finds b)
  | «repeat» _ b c =>
    obtain ⟨p, ss⟩ := b
    have hbody := (bindStmts_reaches ss).bind (bindStmts_finds ss) (bindExpr_reaches c) (bindExpr_finds c)
    exact hbody.hide.congr (by simp [walkBlock])
  | «if» _ cs o =>
    exact (bindClauses_reaches cs).bind (bindClauses_finds cs) (bindBlock?_reaches o) (bindBlock?_finds o)
  | numericFor _ v a b c body =>
    have hfor := Reaches.scope fun scope =>
      have hloop := Reaches.loop .loop scope [v] (bindBlock_reaches body)
      have hfinds := Finds.loop .loop scope [v] (bindBlock_finds body)
      (bindExpr_reaches a).bind (bindExpr_finds a)
        ((bindExpr_reaches b).bind (bindExpr_finds b)
          ((bindExpr?_reaches c).bind (bindExpr?_finds c) hloop hfinds)
          ((bindExpr?_finds c).bind hfinds))
        ((bindExpr_finds b).bind ((bindExpr?_finds c).bind hfinds))
    exact hfor.congr (by simp)
  | genericFor _ ns vs body =>
    have hfor := Reaches.scope fun scope =>
      (bindExprs_reaches vs).bind (bindExprs_finds vs) (Reaches.loop .loop scope ns (bindBlock_reaches body))
        (Finds.loop .loop scope ns (bindBlock_finds body))
    exact hfor.congr (by simp)
  | function _ t f m =>
    have hfunc : Finds _ fun σ => (σ.writeTargets [t]).bind (bindFunc m f) :=
      (Finds.writeTargets [t]).bind (bindFunc_finds m f)
    have hall := (bindExpr_reaches t).bind (bindExpr_finds t)
      (Reaches.none.bind (Finds.writeTargets [t]) (bindFunc_reaches m f) (bindFunc_finds m f)) hfunc
    exact hall.congr (by simp)
  | localFunction _ n f =>
    intro σ τ hσ hlocal
    obtain ⟨ρ, hn, hf⟩ := Option.bind_eq_some_iff.mp hlocal
    have hname := Finds.declareNames .function σ.newScope.1 (bare [n]) _ ρ hn
    rw [map_fst_bare] at hname
    have hread := bindFunc_reaches false f _ τ (hname.activate.tidy ⟨hσ.locals, hσ.globals⟩) hf
    simpa using hread
  | «return» _ vs => exact bindExprs_reaches vs
  | _ => exact Reaches.none

end

/-! ## 2. Nodes of a chunk -/

section
variable {source uri : Text} {c : Chunk}

/-- The table of a chunk, counts of uses apart. -/
def Chunk.table (c : Chunk) : List Binding := c.bindings.toList.map Binding.core

/-- Every statement and every function of a chunk was read, and the table still has what that put in
it. -/
theorem parse_reaches (h : parse source uri = .ok c) :
    ∃ τ : Scopes, τ.table = c.table ∧ AllRead τ c.walk := by
  obtain ⟨tokens, ms, next, τ, -, -, -, -, hbind, hbindings⟩ := parse_sound h
  refine ⟨τ, by rw [Chunk.table, hbindings, Scopes.table], ?_⟩
  exact allRead_cons.mpr ⟨trivial, bindBlock_reaches c.body {} τ Tidy.initial hbind⟩

/-- Every statement of a chunk was read with some table, which grew to that of the chunk. -/
theorem parse_stmt (h : parse source uri = .ok c) {s : Stmt} (hs : .stmt s ∈ c.walk) :
    ∃ σ τ, Tidy σ ∧ bindStmt s σ = some τ ∧ τ.table <+: c.table := by
  obtain ⟨τ, htable, hread⟩ := parse_reaches h
  exact htable ▸ hread _ hs

/-- So was every function. -/
theorem parse_func (h : parse source uri = .ok c) {f : FuncBody} (hf : .func f ∈ c.walk) :
    ∃ m σ τ, Tidy σ ∧ bindFunc m f σ = some τ ∧ τ.table <+: c.table := by
  obtain ⟨τ, htable, hread⟩ := parse_reaches h
  exact htable ▸ hread _ hf

end

/-! ## 3. Bindings by the nodes that declare or store to them -/

/-- Names that are declared are new, and the table has what is said of them. -/
theorem declareNames_table {kind : BindingKind} {scope : Nat} : ∀ {xs : List (Name × Option Attrib)}
    {σ τ : Scopes}, σ.declareNames kind scope xs = some τ → ∀ x ∈ xs, σ.table.length ≤ x.1.binding ∧
      ∃ b, τ.table[x.1.binding]? = some b ∧ b.kind = kind ∧ b.declaration = some x.1.pos ∧
        b.attrib = x.2
  | [], _, _, _ => nofun
  | (n, a) :: xs, σ, τ, h => by
    obtain ⟨b, hb, -, hid, h⟩ := Scopes.declareNames_cons h
    rw [Scopes.add_fst] at hid
    have hgrows : (σ.add b).2.table <+: τ.table := (Finds.declareNames kind scope xs _ τ h).grows
    intro x hx
    rcases List.mem_cons.mp hx with rfl | hx
    · refine ⟨Nat.le_of_eq hid, b.core, ?_, ?_⟩
      · obtain ⟨rest, hrest⟩ := hgrows
        rw [← hrest, Scopes.table_add, List.append_assoc, ← hid, List.getElem?_append_right (Nat.le_refl _),
          Nat.sub_self]
        rfl
      · rw [hb]
        exact ⟨rfl, rfl, rfl⟩
    · obtain ⟨hle, hentry⟩ := declareNames_table h x hx
      rw [Scopes.table_add, List.length_append] at hle
      exact ⟨by omega, hentry⟩

/-- What a table has stays in it. -/
theorem getElem?_extended {table more : List Binding} {id : BindingId} {b : Binding}
    (h : table[id]? = some b) (hmore : table <+: more) : more[id]? = some b := by
  obtain ⟨rest, rfl⟩ := hmore
  obtain ⟨hlt, -⟩ := List.getElem?_eq_some_iff.mp h
  rwa [List.getElem?_append_left hlt]

/-- What is stored to is no constant. -/
theorem writeTargets_plain : ∀ {ts : List Expr} {σ τ : Scopes}, σ.writeTargets ts = some τ →
    (∀ n ∈ plainNames ts, Named σ.table n.entry) → ∀ n ∈ plainNames ts,
      ∃ b, τ.table[n.binding]? = some b ∧ b.attrib = none
  | [], _, _, _, _ => nofun
  | .index _ _ _ :: ts, σ, τ, h, hnamed => @writeTargets_plain ts _ _ h hnamed
  | .name n :: ts, σ, τ, h, hnamed => by
    rw [Scopes.writeTargets] at h
    obtain ⟨ρ, hw, h⟩ := Option.bind_eq_some_iff.mp h
    have htable : σ.table <+: ρ.table := (Finds.write? n σ ρ hw).grows
    have hgrows : ρ.table <+: τ.table := (Finds.writeTargets ts ρ τ h).grows
    intro m hm
    rcases List.mem_cons.mp hm with rfl | hm
    · obtain ⟨b, hb, -⟩ := hnamed m List.mem_cons_self
      refine ⟨b, getElem?_extended (getElem?_extended hb htable) hgrows, ?_⟩
      obtain ⟨hattrib, -⟩ := Scopes.write?_iff.mp hw
      rw [Scopes.table, List.getElem?_map, Array.getElem?_toList] at hb
      obtain ⟨b', hb', rfl⟩ := Option.map_eq_some_iff.mp hb
      have hb' : σ.bindings[m.binding]? = some b' := hb'
      rwa [hb', Option.bind_some] at hattrib
    · refine writeTargets_plain h (fun k hk => ?_) m hm
      exact (hnamed k (List.mem_cons_of_mem n hk)).mono htable
  | .nil _ :: _, _, _, h, _ | .boolean _ _ :: _, _, _, h, _ | .number _ _ _ :: _, _, _, h, _
  | .string _ _ :: _, _, _, h, _ | .vararg _ :: _, _, _, h, _ | .function _ _ :: _, _, _, h, _
  | .table _ _ :: _, _, _, h, _ | .binary _ _ _ _ :: _, _, _, h, _ | .unary _ _ _ :: _, _, _, h, _
  | .paren _ _ :: _, _, _, h, _ | .call _ _ _ :: _, _, _, h, _ | .methodCall _ _ _ _ :: _, _, _, h, _ => by
    cases h

section
variable {source uri : Text} {c : Chunk}

/-- The table of a chunk holds its bindings without counts and types. -/
theorem Chunk.table_getElem? {id : BindingId} {b : Binding} (hb : c.bindings[id]? = some b) :
    c.table[id]? = some b.core := by
  rw [Chunk.table, List.getElem?_map, Array.getElem?_toList, hb]
  rfl

/-- The binding of a name is of a kind, and declared where the name stands. -/
def Chunk.Declares (c : Chunk) (kind : BindingKind) (n : Name) : Prop :=
  ∀ b, c.bindings[n.binding]? = some b → b.kind = kind ∧ b.declaration = some n.pos

theorem mem_bare {n : Name} {ns : List Name} : (n, none) ∈ bare ns ↔ n ∈ ns := by simp [bare]

/-- A name that a step declared, which the table still has. -/
theorem Chunk.Declares.of_declareNames {kind : BindingKind} {scope : Nat}
    {xs : List (Name × Option Attrib)} {σ τ : Scopes} (h : σ.declareNames kind scope xs = some τ)
    (htable : τ.table <+: c.table) {x : Name × Option Attrib} (hx : x ∈ xs) : c.Declares kind x.1 := by
  obtain ⟨-, b', hb', hkind, hdeclaration, -⟩ := declareNames_table h x hx
  intro b hb
  obtain rfl := Option.some.inj ((Chunk.table_getElem? hb).symm.trans (getElem?_extended hb' htable))
  exact ⟨hkind, hdeclaration⟩

/-- The names of a `local` are locals, which its values do not mention. -/
theorem parse_local (h : parse source uri = .ok c) {p : Pos} {ns : List Name}
    {as : List (Option Attrib)} {vs : List Expr} (hs : .stmt (.local p ns as vs) ∈ c.walk) :
    ∀ n ∈ ns, c.Declares .local n ∧ ∀ v ∈ namesIn (walkExprs vs), v.binding ≠ n.binding := by
  obtain ⟨σ, τ, hσ, hstep, htable⟩ := parse_stmt h hs
  rw [bindStmt] at hstep
  obtain ⟨ρ, hvs, hns⟩ := Option.bind_eq_some_iff.mp hstep
  obtain ⟨ρ', hdeclare, rfl⟩ := Option.map_eq_some_iff.mp hns
  intro n hn
  obtain ⟨x, hx, rfl⟩ : ∃ x ∈ withAttribs ns as, x.1 = n := by
    rw [← map_fst_withAttribs ns as] at hn
    obtain ⟨x, hx, rfl⟩ := List.mem_map.mp hn
    exact ⟨x, hx, rfl⟩
  obtain ⟨hnew, -⟩ := declareNames_table hdeclare x hx
  refine ⟨.of_declareNames hdeclare htable hx, fun v hv heq => ?_⟩
  obtain ⟨b', hb', -⟩ := (bindExprs_finds vs _ ρ hvs).named ⟨hσ.locals, hσ.globals⟩ v hv
  obtain ⟨hlt, -⟩ := List.getElem?_eq_some_iff.mp hb'
  have hlt : v.binding < ρ.table.length := hlt
  rw [heq] at hlt
  exact absurd hnew (Nat.not_le_of_lt hlt)

/-- The variable of a numeric loop. -/
theorem parse_numericFor (h : parse source uri = .ok c) {p : Pos} {v : Name} {e₁ e₂ : Expr}
    {e₃ : Option Expr} {b : Block} (hs : .stmt (.numericFor p v e₁ e₂ e₃ b) ∈ c.walk) :
    c.Declares .loop v := by
  obtain ⟨σ, τ, hσ, hstep, htable⟩ := parse_stmt h hs
  rw [bindStmt] at hstep
  obtain ⟨ρ₁, -, hstep⟩ := Option.bind_eq_some_iff.mp hstep
  obtain ⟨ρ₂, -, hstep⟩ := Option.bind_eq_some_iff.mp hstep
  obtain ⟨ρ₃, -, hstep⟩ := Option.bind_eq_some_iff.mp hstep
  obtain ⟨ρ, hv, hstep⟩ := Option.bind_eq_some_iff.mp hstep
  obtain ⟨ρ', hbody, rfl⟩ := Option.map_eq_some_iff.mp hstep
  have hgrows := (bindBlock_finds b _ ρ' hbody).grows
  exact .of_declareNames hv (hgrows.trans htable) (mem_bare.mpr List.mem_cons_self)

/-- The variables of a generic loop. -/
theorem parse_genericFor (h : parse source uri = .ok c) {p : Pos} {ns : List Name} {vs : List Expr}
    {b : Block} (hs : .stmt (.genericFor p ns vs b) ∈ c.walk) : ∀ n ∈ ns, c.Declares .loop n := by
  obtain ⟨σ, τ, hσ, hstep, htable⟩ := parse_stmt h hs
  rw [bindStmt] at hstep
  obtain ⟨ρ₁, -, hstep⟩ := Option.bind_eq_some_iff.mp hstep
  obtain ⟨ρ, hns, hstep⟩ := Option.bind_eq_some_iff.mp hstep
  obtain ⟨ρ', hbody, rfl⟩ := Option.map_eq_some_iff.mp hstep
  have hgrows := (bindBlock_finds b _ ρ' hbody).grows
  exact fun n hn => .of_declareNames hns (hgrows.trans htable) (mem_bare.mpr hn)

/-- The name of a local function. -/
theorem parse_localFunction (h : parse source uri = .ok c) {p : Pos} {n : Name} {f : FuncBody}
    (hs : .stmt (.localFunction p n f) ∈ c.walk) : c.Declares .function n := by
  obtain ⟨σ, τ, hσ, hstep, htable⟩ := parse_stmt h hs
  rw [bindStmt] at hstep
  obtain ⟨ρ, hn, hbody⟩ := Option.bind_eq_some_iff.mp hstep
  have hgrows := (bindFunc_finds false f _ τ hbody).grows
  exact .of_declareNames hn (hgrows.trans htable) (mem_bare.mpr List.mem_cons_self)

/-- The parameters of a function. -/
theorem parse_params (h : parse source uri = .ok c) {f : FuncBody} (hf : .func f ∈ c.walk) :
    ∀ n ∈ f.params, c.Declares .param n := by
  obtain ⟨m, σ, τ, hσ, hstep, htable⟩ := parse_func h hf
  obtain ⟨p, ps, more, b⟩ := f
  rw [bindFunc] at hstep
  obtain ⟨ρ, hps, hstep⟩ := Option.bind_eq_some_iff.mp hstep
  obtain ⟨ρ', hbody, rfl⟩ := Option.map_eq_some_iff.mp hstep
  have hgrows := (bindBlock_finds b _ ρ' hbody).grows
  exact fun n hn => .of_declareNames hps (hgrows.trans htable) (mem_bare.mpr hn)

/-- A plain target is no constant. -/
theorem parse_targets_plain (h : parse source uri = .ok c) :
    ∀ n ∈ c.targets, ∀ b, c.bindings[n.binding]? = some b → b.attrib = none := by
  have hplain : ∀ {ts : List Expr} {σ ρ τ : Scopes}, Tidy σ → bindExprs ts σ = some ρ →
      ρ.writeTargets ts = some τ → τ.table <+: c.table →
      ∀ n ∈ plainNames ts, ∀ b, c.bindings[n.binding]? = some b → b.attrib = none := by
    intro ts σ ρ τ hσ hts hwrite htable n hn b hb
    have hfound := bindExprs_finds ts σ ρ hts
    obtain ⟨b', hb', hattrib⟩ := writeTargets_plain hwrite
      (fun k hk => hfound.named hσ k (plainNames_subset ts hk)) n hn
    obtain rfl := Option.some.inj ((Chunk.table_getElem? hb).symm.trans (getElem?_extended hb' htable))
    exact hattrib
  intro n hn
  obtain ⟨nd, hnd, hn⟩ := List.mem_flatMap.mp hn
  unfold Node.targets at hn
  split at hn
  · next p ts vs =>
    obtain ⟨σ, τ, hσ, hstep, htable⟩ := parse_stmt h hnd
    rw [bindStmt] at hstep
    obtain ⟨ρ, hts, hstep⟩ := Option.bind_eq_some_iff.mp hstep
    obtain ⟨ρ', hwrite, hvs⟩ := Option.bind_eq_some_iff.mp hstep
    exact hplain hσ hts hwrite ((bindExprs_finds vs _ _ hvs).grows.trans htable) n hn
  · next p t f m =>
    obtain ⟨σ, τ, hσ, hstep, htable⟩ := parse_stmt h hnd
    rw [bindStmt] at hstep
    obtain ⟨ρ, ht, hstep⟩ := Option.bind_eq_some_iff.mp hstep
    obtain ⟨ρ', hwrite, hf⟩ := Option.bind_eq_some_iff.mp hstep
    have hts : bindExprs [t] σ = some ρ := by simp [bindExprs, ht]
    exact hplain hσ hts hwrite ((bindFunc_finds m f _ _ hf).grows.trans htable) n hn
  · cases hn

end

end LuaServer.Lua
