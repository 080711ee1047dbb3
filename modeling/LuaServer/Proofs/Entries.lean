/-
# What a tree puts in the table of bindings

Going through a tree (`Proofs/Binding.lean`) adds bindings to the table and changes none that is there,
counts of uses apart.  `Finds ns f` says what a step `f` over a part of a tree with the identifiers `ns`
does: afterwards each of them carries the number of a binding with its name, and each new binding has
the name of one of them, unless it is the further parameter of a method.

Main result: `bindBlock_finds`.
-/
import LuaServer.Proofs.Occurrences
import LuaServer.Proofs.Scoping

namespace LuaServer.Lua

/-! ## 1. Steps -/

/-- An entry carries the name of its binding. -/
def Named (table : List Binding) (p : Text × BindingId) : Prop :=
  ∃ b, table[p.2]? = some b ∧ b.name = p.1

theorem Named.mono {table more : List Binding} {p : Text × BindingId} (h : Named table p)
    (hmore : table <+: more) : Named more p := by
  obtain ⟨b, hb, hname⟩ := h
  obtain ⟨rest, rfl⟩ := hmore
  obtain ⟨hlt, -⟩ := List.getElem?_eq_some_iff.mp hb
  exact ⟨b, by rw [List.getElem?_append_left hlt, hb], hname⟩

/-- The entry of an identifier. -/
def Name.entry (n : Name) : Text × BindingId := (n.name, n.binding)

/-- Locals and globals are found under the names of their bindings. -/
structure Tidy (σ : Scopes) : Prop where
  locals : ∀ p ∈ σ.active, Named σ.table p
  globals : ∀ p ∈ σ.globals, Named σ.table p

theorem Tidy.initial : Tidy {} := ⟨by simp, by simp⟩

/-- The names that new bindings may have among identifiers `ns`. -/
def Introduced (ns : List Name) (b : Binding) : Prop :=
  b.name ∈ ns.map (·.name) ∨ b.name = Scopes.selfName ∧ b.declaration = none

/-- What a step over identifiers `ns` leaves behind. -/
structure Found (ns : List Name) (σ τ : Scopes) : Prop where
  grows : σ.table <+: τ.table
  introduced : ∀ b ∈ τ.table, b ∈ σ.table ∨ Introduced ns b
  tidy : Tidy σ → Tidy τ
  named : Tidy σ → ∀ n ∈ ns, Named τ.table n.entry

/-- A step over identifiers `ns`. -/
def Finds (ns : List Name) (f : Scopes → Option Scopes) : Prop :=
  ∀ σ τ, f σ = some τ → Found ns σ τ

namespace Found

variable {ms ns : List Name} {σ ρ τ : Scopes}

theorem refl (σ : Scopes) : Found [] σ σ :=
  ⟨List.prefix_rfl, fun _ hb => .inl hb, id, by simp⟩

theorem trans (h₁ : Found ms σ ρ) (h₂ : Found ns ρ τ) : Found (ms ++ ns) σ τ := by
  refine ⟨h₁.grows.trans h₂.grows, ?_, fun hσ => h₂.tidy (h₁.tidy hσ), ?_⟩
  · intro b hb
    rcases h₂.introduced b hb with hb | hb
    · refine (h₁.introduced b hb).imp_right (Or.imp_left ?_)
      rw [List.map_append]
      exact List.mem_append_left _
    · refine .inr (hb.imp_left ?_)
      rw [List.map_append]
      exact List.mem_append_right _
  · intro hσ n hn
    rcases List.mem_append.mp hn with hn | hn
    · exact (h₁.named hσ n hn).mono h₂.grows
    · exact h₂.named (h₁.tidy hσ) n hn

/-- A change of what is visible after the step. -/
theorem of_table_eq {τ' : Scopes} (h : Found ns σ τ) (htable : τ'.table = τ.table)
    (htidy : Tidy σ → Tidy τ') : Found ns σ τ' := by
  refine ⟨?_, ?_, htidy, ?_⟩
  · rw [htable]
    exact h.grows
  · rw [htable]
    exact h.introduced
  · rw [htable]
    exact h.named

/-- A new scope. -/
theorem newScope (h : Found ns σ.newScope.2 τ) : Found ns σ τ :=
  ⟨h.grows, h.introduced, fun hσ => h.tidy ⟨hσ.locals, hσ.globals⟩,
    fun hσ => h.named ⟨hσ.locals, hσ.globals⟩⟩

/-- Hiding again what became visible. -/
theorem hide (h : Found ns σ τ) : Found ns σ (σ.hide τ) :=
  h.of_table_eq rfl fun hσ =>
    ⟨fun p hp => (hσ.locals p hp).mono h.grows, (h.tidy hσ).globals⟩

/-- Identifiers that become visible. -/
theorem activate (h : Found ns σ τ) : Found ns σ (τ.activate ns) := by
  refine h.of_table_eq rfl fun hσ => ⟨?_, (h.tidy hσ).globals⟩
  intro p hp
  rcases List.mem_append.mp hp with hp | hp
  · obtain ⟨n, hn, rfl⟩ := List.mem_map.mp hp
    exact h.named hσ n (List.mem_reverse.mp hn)
  · exact (h.tidy hσ).locals p hp

/-- A step while more is visible, which is hidden again. -/
theorem while_visible {ρ' : Scopes} (h : Found ms σ ρ) (h' : Found ms σ ρ')
    (hvisible : ρ'.table = ρ.table) (hbody : Found ns ρ' τ) : Found (ms ++ ns) σ (ρ.hide τ) := by
  refine (h'.trans hbody).of_table_eq rfl fun hσ => ⟨?_, (hbody.tidy (h'.tidy hσ)).globals⟩
  intro p hp
  exact ((h.tidy hσ).locals p hp).mono (hvisible ▸ hbody.grows)

/-- A new binding. -/
theorem add {b : Binding} (hb : Introduced ns b)
    (hns : ∀ n ∈ ns, n.entry = (b.name, (σ.add b).1)) : Found ns σ (σ.add b).2 := by
  have hgrows : σ.table <+: (σ.add b).2.table := ⟨[b.core], (Scopes.table_add b σ).symm⟩
  refine ⟨hgrows, ?_, ?_, ?_⟩
  · intro b' hb'
    rw [Scopes.table_add, List.mem_append, List.mem_singleton] at hb'
    refine hb'.imp_right ?_
    rintro rfl
    exact hb
  · intro hσ
    exact ⟨fun p hp => (hσ.locals p hp).mono hgrows, fun p hp => (hσ.globals p hp).mono hgrows⟩
  · intro hσ n hn
    rw [hns n hn]
    exact ⟨b.core, by rw [Scopes.table_add, Scopes.add_fst]; simp, rfl⟩

/-- Counting a use. -/
theorem modify {id : BindingId} {f : Binding → Binding} (h : Found ns σ τ)
    (hf : ∀ b, (f b).core = b.core) : Found ns σ (τ.modify id f) := by
  have htable := Scopes.table_modify hf id τ
  refine h.of_table_eq htable fun hσ => ⟨?_, ?_⟩
  · rw [htable]
    exact (h.tidy hσ).locals
  · rw [htable]
    exact (h.tidy hσ).globals

/-- The further parameter of a method. -/
theorem declareSelf (σ : Scopes) (isMethod : Bool) (scope : Nat) :
    Found [] σ (σ.declareSelf isMethod scope).2 ∧
      ∀ id ∈ (σ.declareSelf isMethod scope).1,
        Named (σ.declareSelf isMethod scope).2.table (Scopes.selfName, id) := by
  cases isMethod with
  | false => exact ⟨.refl σ, by simp [Scopes.declareSelf]⟩
  | true =>
    obtain ⟨b, hb⟩ : ∃ b : Binding, b = ⟨Scopes.selfName, scope, .param, none, none,
      σ.visible? Scopes.selfName, 0, 0⟩ := ⟨_, rfl⟩
    have hself : σ.declareSelf true scope = (some (σ.add b).1, (σ.add b).2) := by
      rw [hb]
      rfl
    rw [hself]
    refine ⟨.add (.inr (by simp [hb])) (by simp), ?_⟩
    rintro id ⟨⟩
    exact ⟨b.core, by rw [Scopes.table_add, Scopes.add_fst]; simp, by rw [hb]; rfl⟩

theorem activateSelf {self : Option BindingId} (h : Found ns σ τ)
    (hself : ∀ id ∈ self, Named σ.table (Scopes.selfName, id)) : Found ns σ (τ.activateSelf self) := by
  refine h.of_table_eq rfl fun hσ => ⟨?_, (h.tidy hσ).globals⟩
  intro p hp
  rcases List.mem_append.mp hp with hp | hp
  · obtain ⟨id, hid, rfl⟩ := List.mem_map.mp hp
    exact (hself id (by simpa using hid)).mono h.grows
  · exact (h.tidy hσ).locals p hp

/-- An entry that is there. -/
theorem of_entry {n : Name} {l : List (Text × BindingId)} {p : Text × BindingId}
    (hl : Tidy σ → ∀ q ∈ l, Named σ.table q) (hp : l.find? (fun q => q.1 = n.name) = some p)
    (hid : p.2 = n.binding) : Found [n] σ σ := by
  have hfound := List.find?_some hp
  have hname : p.1 = n.name := of_decide_eq_true hfound
  refine ⟨List.prefix_rfl, fun _ hb => .inl hb, id, ?_⟩
  intro hσ
  have hnamed := hl hσ p (List.mem_of_find?_eq_some hp)
  simpa [Name.entry, ← hname, ← hid] using hnamed

/-- A global is there, or new. -/
theorem global {n : Name} {σ : Scopes} (hn : (σ.global n.ident).1 = n.binding) :
    Found [n] σ (σ.global n.ident).2 := by
  rw [Scopes.global] at hn ⊢
  cases hg : σ.globals.find? fun b => b.1 = n.ident.name with
  | some p =>
    rw [hg] at hn
    exact .of_entry (·.globals) hg hn
  | none =>
    rw [hg] at hn
    have hadd : Found [n] σ (σ.add ⟨n.name, globalScope, .global, some n.pos, none, none, 0, 0⟩).2 := by
      refine .add (.inl (by simp)) ?_
      simp only [List.mem_singleton, forall_eq]
      exact congrArg (Prod.mk n.name) hn.symm
    refine hadd.of_table_eq rfl fun hσ => ⟨(hadd.tidy hσ).locals, ?_⟩
    intro p hp
    rcases List.mem_cons.mp hp with rfl | hp
    · have hnamed := hadd.named hσ n (by simp)
      rwa [Name.entry, ← hn] at hnamed
    · exact (hadd.tidy hσ).globals p hp

end Found

/-! ## 2. Elementary steps -/

namespace Finds

variable {ms ns : List Name} {f g : Scopes → Option Scopes}

theorem none : Finds [] some := by
  rintro σ τ ⟨⟩
  exact .refl σ

theorem bind (hf : Finds ms f) (hg : Finds ns g) : Finds (ms ++ ns) fun σ => (f σ).bind g := by
  intro σ τ hfg
  obtain ⟨ρ, h₁, h₂⟩ := Option.bind_eq_some_iff.mp hfg
  exact (hf σ ρ h₁).trans (hg ρ τ h₂)

/-- The order of the identifiers does not matter. -/
theorem congr (hf : Finds ms f) (h : ∀ n, n ∈ ns ↔ n ∈ ms) : Finds ns f := by
  intro σ τ hστ
  obtain ⟨hgrows, hintro, htidy, hnamed⟩ := hf σ τ hστ
  refine ⟨hgrows, ?_, htidy, fun hσ n hn => hnamed hσ n ((h n).mp hn)⟩
  intro b hb
  refine (hintro b hb).imp_right (Or.imp_left ?_)
  simp only [List.mem_map, h, imp_self]

theorem hide (hf : Finds ns f) : Finds ns fun σ => (f σ).map σ.hide := by
  intro σ τ hστ
  obtain ⟨ρ, hρ, rfl⟩ := Option.map_eq_some_iff.mp hστ
  exact (hf σ ρ hρ).hide

/-- A step in a new scope. -/
theorem scope {f : Nat → Scopes → Option Scopes} (hf : ∀ scope, Finds ns (f scope)) :
    Finds ns fun σ => f σ.newScope.1 σ.newScope.2 :=
  fun σ τ hστ => (hf σ.newScope.1 σ.newScope.2 τ hστ).newScope

theorem useName (n : Name) : Finds [n] (Scopes.useName n) := by
  intro σ τ hn
  have hcount : ∀ b : Binding, ({ b with reads := b.reads + 1 } : Binding).core = b.core :=
    fun _ => rfl
  rcases Scopes.useName_iff.mp hn with ⟨hv, rfl⟩ | ⟨-, hid, rfl⟩
  · obtain ⟨p, hp, hpid⟩ := Option.map_eq_some_iff.mp hv
    exact (Found.of_entry (·.locals) hp hpid).modify hcount
  · exact (Found.global hid).modify hcount

theorem declareNames (kind : BindingKind) (scope : Nat) : ∀ xs : List (Name × Option Attrib),
    Finds (xs.map (·.1)) (Scopes.declareNames kind scope xs)
  | [] => Finds.none
  | (n, a) :: xs => by
    intro σ τ hxs
    obtain ⟨b, hb, -, hid, hxs⟩ := Scopes.declareNames_cons hxs
    have hadd : Found [n] σ (σ.add b).2 := by
      refine Found.add (.inl (by simp [hb])) ?_
      simp only [List.mem_singleton, forall_eq]
      rw [hid, hb]
      rfl
    exact hadd.trans (declareNames kind scope xs _ τ hxs)

theorem write? (n : Name) : Finds [] (Scopes.write? n) := by
  intro σ τ hn
  have hcount : ∀ b : Binding,
      ({ b with reads := b.reads - 1, writes := b.writes + 1 } : Binding).core = b.core := fun _ => rfl
  obtain ⟨-, rfl⟩ := Scopes.write?_iff.mp hn
  exact (Found.refl σ).modify hcount

theorem writeTargets : ∀ ts : List Expr, Finds [] (Scopes.writeTargets ts)
  | [] => Finds.none
  | .name n :: ts => (write? n).bind (writeTargets ts)
  | .index _ _ _ :: ts => writeTargets ts
  | .nil _ :: _ | .boolean _ _ :: _ | .number _ _ _ :: _ | .string _ _ :: _ | .vararg _ :: _
  | .function _ _ :: _ | .table _ _ :: _ | .binary _ _ _ _ :: _ | .unary _ _ _ :: _ | .paren _ _ :: _
  | .call _ _ _ :: _ | .methodCall _ _ _ _ :: _ => fun _ _ h => by cases h

/-- The names of a local statement, which are visible once they are declared. -/
theorem locals (scope : Nat) (ms : List Name) (as : List (Option Attrib)) :
    Finds ms fun τ => (τ.declareNames .local scope (withAttribs ms as)).map (·.activate ms) := by
  intro σ τ hms
  obtain ⟨ρ, hρ, rfl⟩ := Option.map_eq_some_iff.mp hms
  have hnames := declareNames .local scope (withAttribs ms as) σ ρ hρ
  rw [map_fst_withAttribs] at hnames
  exact hnames.activate

/-- Names that are declared, and are visible during a step only. -/
theorem loop (kind : BindingKind) (scope : Nat) (ms : List Name) (hf : Finds ns f) :
    Finds (ms ++ ns) fun σ =>
      (σ.declareNames kind scope (bare ms)).bind fun τ => (f (τ.activate ms)).map τ.hide := by
  intro σ τ hστ
  obtain ⟨ρ, h₁, h₂⟩ := Option.bind_eq_some_iff.mp hστ
  obtain ⟨ρ₂, hbody, rfl⟩ := Option.map_eq_some_iff.mp h₂
  have hnames := declareNames kind scope (bare ms) σ ρ h₁
  rw [map_fst_bare] at hnames
  exact hnames.while_visible hnames.activate rfl (hf _ ρ₂ hbody)

end Finds

/-! ## 3. Trees -/

mutual

theorem bindExpr_finds : ∀ e : Expr, Finds (namesIn (walkExpr e)) (bindExpr e)
  | .name n => Finds.useName n
  | .nil _ | .boolean _ _ | .number _ _ _ | .string _ _ | .vararg _ => Finds.none
  | .function _ f => bindFunc_finds false f
  | .table _ fs => bindFields_finds fs
  | .binary _ _ l r =>
    ((bindExpr_finds l).bind (bindExpr_finds r)).congr (by simp [walkExpr, Expr.name?])
  | .unary _ _ e => bindExpr_finds e
  | .paren _ e => bindExpr_finds e
  | .index _ o k =>
    ((bindExpr_finds o).bind (bindExpr_finds k)).congr (by simp [walkExpr, Expr.name?])
  | .call _ f as =>
    ((bindExpr_finds f).bind (bindExprs_finds as)).congr (by simp [walkExpr, Expr.name?])
  | .methodCall _ o _ as =>
    ((bindExpr_finds o).bind (bindExprs_finds as)).congr (by simp [walkExpr, Expr.name?])

theorem bindExprs_finds : ∀ es : List Expr, Finds (namesIn (walkExprs es)) (bindExprs es)
  | [] => Finds.none
  | e :: es => ((bindExpr_finds e).bind (bindExprs_finds es)).congr (by simp [walkExprs])

theorem bindExpr?_finds : ∀ e : Option Expr, Finds (namesIn (walkExpr? e)) (bindExpr? e)
  | none => Finds.none
  | some e => bindExpr_finds e

theorem bindField_finds : ∀ f : TableField, Finds (namesIn (walkFields [f])) (bindField f)
  | .mk _ k v => ((bindExpr?_finds k).bind (bindExpr_finds v)).congr (by simp [walkFields])

theorem bindFields_finds : ∀ fs : List TableField, Finds (namesIn (walkFields fs)) (bindFields fs)
  | [] => Finds.none
  | f :: fs =>
    ((bindField_finds f).bind (bindFields_finds fs)).congr (by simp [walkFields_cons f fs])

theorem bindFunc_finds (isMethod : Bool) : ∀ f : FuncBody,
    Finds (namesIn (walkFunc f)) (bindFunc isMethod f)
  | .mk _ ps _ b => by
    intro σ τ hfunc
    rw [bindFunc] at hfunc
    obtain ⟨ρ, hps, hbody⟩ := Option.bind_eq_some_iff.mp hfunc
    obtain ⟨ρ₂, hblock, rfl⟩ := Option.map_eq_some_iff.mp hbody
    obtain ⟨hself, hid⟩ := Found.declareSelf σ.newScope.2 isMethod σ.newScope.1
    have hnames := Finds.declareNames .param σ.newScope.1 (bare ps) _ ρ hps
    rw [map_fst_bare] at hnames
    have hvisible := (hnames.activateSelf hid).activate
    have hblock := hnames.while_visible hvisible rfl (bindBlock_finds b _ ρ₂ hblock)
    simpa [walkFunc] using (hself.trans hblock).newScope

theorem bindBlock_finds : ∀ b : Block, Finds (namesIn (walkBlock b)) (bindBlock b)
  | .mk _ ss => (bindStmts_finds ss).hide

theorem bindBlock?_finds : ∀ b : Option Block, Finds (namesIn (walkBlock? b)) (bindBlock? b)
  | none => Finds.none
  | some b => bindBlock_finds b

theorem bindStmts_finds : ∀ ss : List Stmt, Finds (namesIn (walkStmts ss)) (bindStmts ss)
  | [] => Finds.none
  | s :: ss => ((bindStmt_finds s).bind (bindStmts_finds ss)).congr (by simp [walkStmts])

theorem bindClause_finds : ∀ c : IfClause, Finds (namesIn (walkClauses [c])) (bindClause c)
  | .mk _ c b => ((bindExpr_finds c).bind (bindBlock_finds b)).congr (by simp [walkClauses])

theorem bindClauses_finds : ∀ cs : List IfClause, Finds (namesIn (walkClauses cs)) (bindClauses cs)
  | [] => Finds.none
  | c :: cs =>
    ((bindClause_finds c).bind (bindClauses_finds cs)).congr (by simp [walkClauses_cons c cs])

theorem bindStmt_finds : ∀ s : Stmt, Finds (namesIn (walkStmt s)) (bindStmt s)
  | .local _ ns as vs => by
    have hlocal := Finds.scope fun scope => (bindExprs_finds vs).bind (Finds.locals scope ns as)
    exact hlocal.congr (by simp [walkStmt, or_comm])
  | .assign _ ts vs =>
    ((bindExprs_finds ts).bind ((Finds.writeTargets ts).bind (bindExprs_finds vs))).congr
      (by simp [walkStmt])
  | .call _ e => bindExpr_finds e
  | .do _ b => bindBlock_finds b
  | .while _ c b => ((bindExpr_finds c).bind (bindBlock_finds b)).congr (by simp [walkStmt])
  | .repeat _ (.mk _ ss) c =>
    (((bindStmts_finds ss).bind (bindExpr_finds c)).hide).congr (by simp [walkStmt, walkBlock])
  | .if _ cs o => ((bindClauses_finds cs).bind (bindBlock?_finds o)).congr (by simp [walkStmt])
  | .numericFor _ v a b c body => by
    have hfor := Finds.scope fun scope =>
      have hloop := Finds.loop .loop scope [v] (bindBlock_finds body)
      (bindExpr_finds a).bind ((bindExpr_finds b).bind ((bindExpr?_finds c).bind hloop))
    exact hfor.congr (by simp [walkStmt]; grind)
  | .genericFor _ ns vs body => by
    have hfor := Finds.scope fun scope =>
      (bindExprs_finds vs).bind (Finds.loop .loop scope ns (bindBlock_finds body))
    exact hfor.congr (by simp [walkStmt]; grind)
  | .function _ t f m =>
    ((bindExpr_finds t).bind ((Finds.writeTargets [t]).bind (bindFunc_finds m f))).congr
      (by simp [walkStmt])
  | .localFunction _ n f => by
    intro σ τ hlocal
    obtain ⟨ρ, hn, hf⟩ := Option.bind_eq_some_iff.mp hlocal
    have hname := Finds.declareNames .function σ.newScope.1 (bare [n]) _ ρ hn
    rw [map_fst_bare] at hname
    have hfunc := bindFunc_finds false f _ τ hf
    simpa [walkStmt] using (hname.activate.trans hfunc).newScope
  | .return _ vs => bindExprs_finds vs
  | .break _ | .goto _ _ | .label _ _ => Finds.none

end

end LuaServer.Lua
