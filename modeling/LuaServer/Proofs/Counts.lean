/-
# What the counts of a binding tell

The reader counts for each binding how often it is read and how often it is stored to.  It takes a name
for a read when it looks it up, and makes that a store as soon as the name turns out to be a target.  The
checker sees the finished tree, in which targets are told from reads by where they stand.

The two agree: the counts that going through a part of a tree adds are the numbers of the names that the
checker visits there, and of those that it stores to (`bindBlock_counts`).  A target is looked up before
it is stored to, so the read that is taken back is always there.
-/
import LuaServer.Lua.Checker
import LuaServer.Proofs.Entries

namespace LuaServer.Lua

open scoped List

/-! ## 1. The names of events -/

/-- The name that a step reads. -/
def Event.read? : Event → Option Name
  | .visit (.expr e) => e.name?
  | _ => none

/-- The name that a step stores to. -/
def Event.target? : Event → Option Name
  | .store n _ _ | .storeFunction n _ => some n
  | _ => none

/-- The names that steps read. -/
def readsIn (es : List Event) : List Name := es.filterMap Event.read?

/-- The names that steps store to. -/
def targetsIn (es : List Event) : List Name := es.filterMap Event.target?

@[simp] theorem readsIn_nil : readsIn [] = [] := rfl

@[simp] theorem targetsIn_nil : targetsIn [] = [] := rfl

@[simp] theorem readsIn_append (a b : List Event) : readsIn (a ++ b) = readsIn a ++ readsIn b :=
  List.filterMap_append

@[simp] theorem targetsIn_append (a b : List Event) :
    targetsIn (a ++ b) = targetsIn a ++ targetsIn b :=
  List.filterMap_append

@[simp] theorem readsIn_cons (ev : Event) (es : List Event) :
    readsIn (ev :: es) = ev.read?.toList ++ readsIn es := by
  cases h : ev.read? <;> simp [readsIn, h]

@[simp] theorem targetsIn_cons (ev : Event) (es : List Event) :
    targetsIn (ev :: es) = ev.target?.toList ++ targetsIn es := by
  cases h : ev.target? <;> simp [targetsIn, h]

@[simp] theorem read?_expr (e : Expr) : (Event.visit (.expr e)).read? = e.name? := rfl
@[simp] theorem read?_chunk (c : Chunk) : (Event.visit (.chunk c)).read? = none := rfl
@[simp] theorem read?_stmt (s : Stmt) : (Event.visit (.stmt s)).read? = none := rfl
@[simp] theorem read?_block (b : Block) : (Event.visit (.block b)).read? = none := rfl
@[simp] theorem read?_clause (c : IfClause) : (Event.visit (.clause c)).read? = none := rfl
@[simp] theorem read?_field (f : TableField) : (Event.visit (.field f)).read? = none := rfl
@[simp] theorem read?_func (f : FuncBody) : (Event.visit (.func f)).read? = none := rfl
@[simp] theorem read?_store (n : Name) (i : Nat) (vs : List Expr) :
    (Event.store n i vs).read? = none := rfl
@[simp] theorem read?_storeFunction (n : Name) (f : FuncBody) :
    (Event.storeFunction n f).read? = none := rfl

@[simp] theorem target?_visit (n : Node) : (Event.visit n).target? = none := rfl
@[simp] theorem target?_store (n : Name) (i : Nat) (vs : List Expr) :
    (Event.store n i vs).target? = some n := rfl
@[simp] theorem target?_storeFunction (n : Name) (f : FuncBody) :
    (Event.storeFunction n f).target? = some n := rfl

/-- The plain names among targets. -/
def plainNames (ts : List Expr) : List Name := ts.filterMap Expr.name?

@[simp] theorem plainNames_nil : plainNames [] = [] := rfl

@[simp] theorem plainNames_cons (t : Expr) (ts : List Expr) :
    plainNames (t :: ts) = t.name?.toList ++ plainNames ts := by
  cases h : t.name? <;> simp [plainNames, h]

/-- Targets are read like other expressions, but for the plain names, which are stored to. -/
theorem targetsEvents_names (vs : List Expr) : ∀ (i : Nat) (ts : List Expr),
    readsIn (exprsEvents ts) ~ readsIn (targetsEvents vs i ts) ++ plainNames ts ∧
      targetsIn (targetsEvents vs i ts) ~ targetsIn (exprsEvents ts) ++ plainNames ts
  | _, [] => ⟨.nil, .nil⟩
  | i, t :: ts => by
    obtain ⟨hreads, htargets⟩ := targetsEvents_names vs (i + 1) ts
    cases t with
    | name n =>
      simp only [exprsEvents, exprEvents, targetsEvents, List.singleton_append, readsIn_cons,
        targetsIn_cons, read?_expr, read?_store, target?_visit, target?_store, plainNames_cons,
        Expr.name?, Option.toList_some, Option.toList_none, List.nil_append]
      exact ⟨(hreads.cons n).trans List.perm_middle.symm, (htargets.cons n).trans List.perm_middle.symm⟩
    | _ =>
      simp only [exprsEvents, targetsEvents, readsIn_append, targetsIn_append, plainNames_cons,
        Expr.name?, Option.toList_none, List.nil_append, List.append_assoc]
      exact ⟨hreads.append_left _, htargets.append_left _⟩

/-- What a function statement names is a target, and its function comes after. -/
theorem functionEvents_names (p : Pos) (t : Expr) (f : FuncBody) (m : Bool) :
    readsIn (stmtEvents (.function p t f m))
        = readsIn (targetsEvents [] 0 [t]) ++ readsIn (funcEvents f) ∧
      targetsIn (stmtEvents (.function p t f m))
        = targetsIn (targetsEvents [] 0 [t]) ++ targetsIn (funcEvents f) := by
  cases t <;> simp [stmtEvents, targetsEvents]

/-! ## 2. Counts -/

/-- How many of the names denote a binding. -/
def timesOf (id : BindingId) (ns : List Name) : Nat := (ns.map (·.binding)).count id

@[simp] theorem timesOf_nil (id : BindingId) : timesOf id [] = 0 := rfl

@[simp] theorem timesOf_append (id : BindingId) (ms ns : List Name) :
    timesOf id (ms ++ ns) = timesOf id ms + timesOf id ns := by
  simp [timesOf]

/-- A name counts for its own binding only. -/
theorem timesOf_cons (id : BindingId) (n : Name) (ns : List Name) :
    timesOf id (n :: ns) = (if n.binding = id then 1 else 0) + timesOf id ns := by
  simp [timesOf, List.count_cons, Nat.add_comm]

/-- The order of the names does not matter. -/
theorem timesOf_perm {ms ns : List Name} (h : ms ~ ns) (id : BindingId) :
    timesOf id ms = timesOf id ns :=
  (h.map _).count_eq id

/-- Nothing is counted for a binding that no name has. -/
theorem timesOf_eq_zero {id : BindingId} {ns : List Name} :
    timesOf id ns = 0 ↔ ∀ n ∈ ns, n.binding ≠ id := by
  simp [timesOf, List.count_eq_zero]

/-- A count of a binding, which is nothing as long as there is no such binding. -/
def Scopes.tally (field : Binding → Nat) (σ : Scopes) (id : BindingId) : Nat :=
  ((σ.bindings[id]?).map field).getD 0

/-- The counts of the bindings have grown by the names that were read and by those stored to. -/
structure Tallied (reads writes : List Name) (σ τ : Scopes) : Prop where
  reads : ∀ id, τ.tally (·.reads) id = σ.tally (·.reads) id + timesOf id reads
  writes : ∀ id, τ.tally (·.writes) id = σ.tally (·.writes) id + timesOf id writes

namespace Scopes

/-- What is recorded for a binding that is in the table. -/
theorem tally_eq {field : Binding → Nat} {σ : Scopes} {id : BindingId} {b : Binding}
    (hb : σ.bindings[id]? = some b) : σ.tally field id = field b := by
  rw [tally, hb]
  rfl

/-- A new binding has not been used. -/
theorem tally_add {field : Binding → Nat} {b : Binding} (hb : field b = 0) (σ : Scopes)
    (id : BindingId) : (σ.add b).2.tally field id = σ.tally field id := by
  rw [tally, tally, add, Array.getElem?_push]
  split
  · next heq => simp [heq, hb]
  · rfl

/-- A change of one binding. -/
theorem tally_modify (field : Binding → Nat) {change : Binding → Binding} {σ : Scopes}
    {id : BindingId} {b : Binding} (hb : σ.bindings[id]? = some b) (i : BindingId) :
    (σ.modify id change).tally field i = if id = i then field (change b) else σ.tally field i := by
  rw [tally, modify, Array.getElem?_modify]
  split
  · next heq => simp [← heq, hb]
  · rfl

end Scopes

namespace Tallied

variable {rs rs' ws ws' : List Name} {σ ρ τ : Scopes}

theorem refl (σ : Scopes) : Tallied [] [] σ σ := ⟨fun _ => rfl, fun _ => rfl⟩

theorem trans (h : Tallied rs ws σ ρ) (h' : Tallied rs' ws' ρ τ) :
    Tallied (rs ++ rs') (ws ++ ws') σ τ where
  reads id := by rw [h'.reads, h.reads, timesOf_append, Nat.add_assoc]
  writes id := by rw [h'.writes, h.writes, timesOf_append, Nat.add_assoc]

/-- The order of the names does not matter. -/
theorem perm (h : Tallied rs ws σ τ) (hrs : rs' ~ rs) (hws : ws' ~ ws) : Tallied rs' ws' σ τ where
  reads id := by rw [timesOf_perm hrs, h.reads]
  writes id := by rw [timesOf_perm hws, h.writes]

/-- A binding that is new has not been counted for. -/
theorem add {b : Binding} (hreads : b.reads = 0) (hwrites : b.writes = 0) (σ : Scopes) :
    Tallied [] [] σ (σ.add b).2 :=
  ⟨Scopes.tally_add hreads σ, Scopes.tally_add hwrites σ⟩

/-- The implicit parameter of a method is declared without a count. -/
theorem declareSelf (σ : Scopes) (isMethod : Bool) (scope : Nat) :
    Tallied [] [] σ (σ.declareSelf isMethod scope).2 := by
  cases isMethod with
  | false => exact .refl σ
  | true => exact .add rfl rfl σ

/-- Declarations are no stores, also where they have values. -/
theorem declareNames {kind : BindingKind} {scope : Nat} : ∀ {xs : List (Name × Option Attrib)}
    {σ : Scopes}, σ.declareNames kind scope xs = some τ → Tallied [] [] σ τ
  | [], σ, h => by
    cases h
    exact .refl _
  | (n, a) :: xs, σ, h => by
    obtain ⟨b, hb, -, -, h⟩ := Scopes.declareNames_cons h
    have hadd : Tallied [] [] σ (σ.add b).2 := .add (by rw [hb]) (by rw [hb]) σ
    exact hadd.trans (declareNames h)

/-- Looking a global up adds it at most. -/
theorem global (σ : Scopes) (x : Ident) : Tallied [] [] σ (σ.global x).2 := by
  rw [Scopes.global]
  split
  · exact .refl σ
  · obtain ⟨b, hb⟩ : ∃ b : Binding,
        b = ⟨x.name, globalScope, .global, some x.pos, none, none, 0, 0⟩ := ⟨_, rfl⟩
    have hadd : Tallied [] [] σ (σ.add b).2 := .add (by rw [hb]) (by rw [hb]) σ
    subst hb
    exact ⟨hadd.reads, hadd.writes⟩

end Tallied

/-! ## 3. Elementary steps -/

/-- A step counts the names `rs` as reads and the names `ws` as stores. -/
def Counts (rs ws : List Name) (f : Scopes → Option Scopes) : Prop :=
  ∀ σ τ, Tidy σ → f σ = some τ → Tallied rs ws σ τ

/-- A binding that a name denotes. -/
theorem Named.exists_binding {σ : Scopes} {p : Text × BindingId} (h : Named σ.table p) :
    ∃ b, σ.bindings[p.2]? = some b := by
  obtain ⟨b, hb, -⟩ := h
  rw [Scopes.table, List.getElem?_map, Array.getElem?_toList] at hb
  obtain ⟨b, hb, -⟩ := Option.map_eq_some_iff.mp hb
  exact ⟨b, hb⟩

/-- What was looked up and is stored to loses its reads again, and each of them is a store instead. -/
theorem writeTargets_tally : ∀ {ts : List Expr} {σ τ : Scopes}, σ.writeTargets ts = some τ →
    (∀ n ∈ plainNames ts, Named σ.table n.entry) →
    (∀ id, timesOf id (plainNames ts) ≤ σ.tally (·.reads) id) → ∀ id,
      τ.tally (·.reads) id + timesOf id (plainNames ts) = σ.tally (·.reads) id ∧
      τ.tally (·.writes) id = σ.tally (·.writes) id + timesOf id (plainNames ts)
  | [], σ, τ, h, _, _ => by
    cases h
    exact fun id => ⟨rfl, rfl⟩
  | .index _ _ _ :: ts, σ, τ, h, hnamed, hle => @writeTargets_tally ts _ _ h hnamed hle
  | .name n :: ts, σ, τ, h, hnamed, hle => by
    have hcons : plainNames (.name n :: ts) = n :: plainNames ts := rfl
    rw [hcons] at hnamed hle ⊢
    rw [Scopes.writeTargets] at h
    obtain ⟨ρ, hw, h⟩ := Option.bind_eq_some_iff.mp h
    have htable : σ.table <+: ρ.table := (Finds.write? n σ ρ hw).grows
    obtain ⟨b, hb⟩ := (hnamed n List.mem_cons_self).exists_binding
    change σ.bindings[n.binding]? = some b at hb
    obtain ⟨-, hρ⟩ := Scopes.write?_iff.mp hw
    have hreads : σ.tally (·.reads) n.binding = b.reads := Scopes.tally_eq hb
    have hwrites : σ.tally (·.writes) n.binding = b.writes := Scopes.tally_eq hb
    -- at the binding of `n` one read has become a store, and elsewhere nothing has changed
    have hstep : ∀ id, ρ.tally (·.reads) id + (if n.binding = id then 1 else 0)
          = σ.tally (·.reads) id ∧
        ρ.tally (·.writes) id = σ.tally (·.writes) id + if n.binding = id then 1 else 0 := by
      intro id
      have hle := hle id
      rw [timesOf_cons] at hle
      rw [hρ, Scopes.tally_modify _ hb, Scopes.tally_modify _ hb]
      by_cases hid : n.binding = id
      · subst hid
        simp only [↓reduceIte, hreads, hwrites, and_true] at hle ⊢
        omega
      · simp [hid]
    have hrest := writeTargets_tally h
      (fun m hm => (hnamed m (List.mem_cons_of_mem n hm)).mono htable) (fun id => by
        have hle := hle id
        have hstep := (hstep id).1
        rw [timesOf_cons] at hle
        omega)
    intro id
    obtain ⟨hreads, hwrites⟩ := hrest id
    obtain ⟨hreads', hwrites'⟩ := hstep id
    rw [timesOf_cons]
    omega
  | .nil _ :: _, _, _, h, _, _ | .boolean _ _ :: _, _, _, h, _, _ | .number _ _ _ :: _, _, _, h, _, _
  | .string _ _ :: _, _, _, h, _, _ | .vararg _ :: _, _, _, h, _, _ | .function _ _ :: _, _, _, h, _, _
  | .table _ _ :: _, _, _, h, _, _ | .binary _ _ _ _ :: _, _, _, h, _, _
  | .unary _ _ _ :: _, _, _, h, _, _ | .paren _ _ :: _, _, _, h, _, _ | .call _ _ _ :: _, _, _, h, _, _
  | .methodCall _ _ _ _ :: _, _, _, h, _, _ => by cases h

namespace Counts

variable {rs rs' ws ws' ns : List Name} {f g : Scopes → Option Scopes}

/-- A part of a tree without names. -/
theorem none : Counts [] [] some := by
  rintro σ τ - ⟨⟩
  exact .refl σ

/-- One part after another.  The names of the first one have their bindings before the second begins. -/
theorem bind (hf : Counts rs ws f) (hfinds : Finds ns f) (hg : Counts rs' ws' g) :
    Counts (rs ++ rs') (ws ++ ws') fun σ => (f σ).bind g := by
  intro σ τ hσ hfg
  obtain ⟨ρ, h₁, h₂⟩ := Option.bind_eq_some_iff.mp hfg
  exact (hf σ ρ hσ h₁).trans (hg ρ τ ((hfinds σ ρ h₁).tidy hσ) h₂)

theorem perm (hf : Counts rs ws f) (hrs : rs' ~ rs) (hws : ws' ~ ws) : Counts rs' ws' f :=
  fun σ τ hσ h => (hf σ τ hσ h).perm hrs hws

theorem hide (hf : Counts rs ws f) : Counts rs ws fun σ => (f σ).map σ.hide := by
  intro σ τ hσ h
  obtain ⟨ρ, hρ, rfl⟩ := Option.map_eq_some_iff.mp h
  exact ⟨(hf σ ρ hσ hρ).reads, (hf σ ρ hσ hρ).writes⟩

/-- A step in a new scope. -/
theorem scope {f : Nat → Scopes → Option Scopes} (hf : ∀ scope, Counts rs ws (f scope)) :
    Counts rs ws fun σ => f σ.newScope.1 σ.newScope.2 :=
  fun σ τ hσ h =>
    have hnew := hf σ.newScope.1 σ.newScope.2 τ ⟨hσ.locals, hσ.globals⟩ h
    ⟨hnew.reads, hnew.writes⟩

/-- A name that is looked up is read. -/
theorem useName (n : Name) : Counts [n] [] (Scopes.useName n) := by
  intro σ τ hσ h
  have hnamed := (Finds.useName n σ τ h).named hσ n List.mem_cons_self
  obtain ⟨ρ, hρ, rfl⟩ : ∃ ρ, Tallied [] [] σ ρ ∧
      τ = ρ.modify n.binding fun b => { b with reads := b.reads + 1 } := by
    rcases Scopes.useName_iff.mp h with ⟨-, hτ⟩ | ⟨-, -, hτ⟩
    · exact ⟨σ, .refl σ, hτ⟩
    · exact ⟨_, .global σ n.ident, hτ⟩
  have hcount : ∀ b : Binding, ({ b with reads := b.reads + 1 } : Binding).core = b.core :=
    fun _ => rfl
  rw [Scopes.table_modify hcount] at hnamed
  obtain ⟨b, hb⟩ := hnamed.exists_binding
  change ρ.bindings[n.binding]? = some b at hb
  constructor
  · intro id
    have hreads : ρ.tally (·.reads) id = σ.tally (·.reads) id := hρ.reads id
    rw [Scopes.tally_modify _ hb, timesOf_cons, ← hreads]
    by_cases hid : n.binding = id
    · simp [← hid, Scopes.tally_eq hb]
    · simp [hid]
  · intro id
    have hwrites : ρ.tally (·.writes) id = σ.tally (·.writes) id := hρ.writes id
    rw [Scopes.tally_modify _ hb, ← hwrites]
    by_cases hid : n.binding = id
    · simp [← hid, Scopes.tally_eq hb]
    · simp [hid]

/-- Targets that were looked up among the names `rs` are stored to instead of read. -/
theorem writeTargets {ts : List Expr} (hf : Counts rs ws f) (hfinds : Finds ns f)
    (hnames : plainNames ts ⊆ ns) (hrs : rs ~ rs' ++ plainNames ts) :
    Counts rs' (ws ++ plainNames ts) fun σ => (f σ).bind (Scopes.writeTargets ts) := by
  intro σ τ hσ h
  obtain ⟨ρ, hρ, hts⟩ := Option.bind_eq_some_iff.mp h
  obtain ⟨hreads, hwrites⟩ := hf σ ρ hσ hρ
  have hnamed : ∀ n ∈ plainNames ts, Named ρ.table n.entry :=
    fun n hn => (hfinds σ ρ hρ).named hσ n (hnames hn)
  have htimes : ∀ id, timesOf id rs = timesOf id rs' + timesOf id (plainNames ts) := by
    intro id
    rw [timesOf_perm hrs, timesOf_append]
  have htally := writeTargets_tally hts hnamed fun id => by
    have hreads := hreads id
    have htimes := htimes id
    omega
  constructor
  · intro id
    have htally := (htally id).1
    have hreads := hreads id
    have htimes := htimes id
    omega
  · intro id
    have htally := (htally id).2
    have hwrites := hwrites id
    rw [timesOf_append]
    omega

/-- Names that are declared, and are visible during a step only. -/
theorem loop (kind : BindingKind) (scope : Nat) (ms : List Name) (hf : Counts rs ws f) :
    Counts rs ws fun σ =>
      (σ.declareNames kind scope (bare ms)).bind fun τ => (f (τ.activate ms)).map τ.hide := by
  intro σ τ hσ h
  obtain ⟨ρ, h₁, h₂⟩ := Option.bind_eq_some_iff.mp h
  obtain ⟨ρ₂, hbody, rfl⟩ := Option.map_eq_some_iff.mp h₂
  have hfound := Finds.declareNames kind scope (bare ms) σ ρ h₁
  rw [map_fst_bare] at hfound
  have hnames := Tallied.declareNames h₁
  have hbody := hf (ρ.activate ms) ρ₂ (hfound.activate.tidy hσ) hbody
  exact hnames.trans ⟨hbody.reads, hbody.writes⟩

end Counts

/-! ## 4. Trees -/

/-- A step over a part of a tree counts the names of the events of the part. -/
def CountsNames (es : List Event) (f : Scopes → Option Scopes) : Prop :=
  Counts (readsIn es) (targetsIn es) f

/-- The names that may be targets are among those of a list of expressions. -/
theorem plainNames_subset (ts : List Expr) : plainNames ts ⊆ namesIn (walkExprs ts) := by
  induction ts with
  | nil => exact List.nil_subset _
  | cons t ts ih =>
    rw [plainNames_cons, walkExprs, namesIn_append]
    refine List.append_subset.mpr ⟨?_, fun n hn => List.mem_append_right _ (ih hn)⟩
    intro n hn
    refine List.mem_append_left _ ?_
    cases t <;> simp_all [walkExpr, Expr.name?]

namespace CountsNames

variable {es es₁ es₂ : List Event} {f g : Scopes → Option Scopes} {ns : List Name}

/-- Events that read and store what others do. -/
theorem congr (hf : CountsNames es₁ f) (h : readsIn es = readsIn es₁ ∧ targetsIn es = targetsIn es₁) :
    CountsNames es f := by
  rw [CountsNames, h.1, h.2]
  exact hf

/-- One part after another. -/
theorem bind (hf : CountsNames es₁ f) (hfinds : Finds ns f) (hg : CountsNames es₂ g) :
    CountsNames (es₁ ++ es₂) fun σ => (f σ).bind g := by
  rw [CountsNames, readsIn_append, targetsIn_append]
  exact Counts.bind hf hfinds hg

theorem hide (hf : CountsNames es f) : CountsNames es fun σ => (f σ).map σ.hide := Counts.hide hf

/-- Targets, which are looked up first. -/
theorem targets {ts : List Expr} (vs : List Expr) (hts : CountsNames (exprsEvents ts) f)
    (hfinds : Finds (namesIn (walkExprs ts)) f) :
    CountsNames (targetsEvents vs 0 ts) fun σ => (f σ).bind (Scopes.writeTargets ts) := by
  obtain ⟨hreads, htargets⟩ := targetsEvents_names vs 0 ts
  exact (Counts.writeTargets hts hfinds (plainNames_subset ts) hreads).perm .rfl htargets

end CountsNames

/-- The reader looks the targets of a store up, and then stores to them. -/
theorem finds_targets {ts : List Expr} {ns : List Name} {f : Scopes → Option Scopes}
    (hf : Finds ns f) : Finds ns fun σ => (f σ).bind (Scopes.writeTargets ts) :=
  (hf.bind (Finds.writeTargets ts)).congr (by simp)

mutual

/-- The names of an expression are all reads. -/
theorem bindExpr_counts : ∀ e : Expr, CountsNames (exprEvents e) (bindExpr e)
  | .name n => Counts.useName n
  | .nil _ | .boolean _ _ | .number _ _ _ | .string _ _ | .vararg _ => Counts.none
  | .function _ f => (bindFunc_counts false f).congr (by simp [exprEvents, Expr.name?])
  | .table _ fs => (bindFields_counts fs).congr (by simp [exprEvents, Expr.name?])
  | .binary _ _ l r =>
    ((bindExpr_counts l).bind (bindExpr_finds l) (bindExpr_counts r)).congr
      (by simp [exprEvents, Expr.name?])
  | .unary _ _ e => (bindExpr_counts e).congr (by simp [exprEvents, Expr.name?])
  | .paren _ e => (bindExpr_counts e).congr (by simp [exprEvents, Expr.name?])
  | .index _ o k =>
    ((bindExpr_counts o).bind (bindExpr_finds o) (bindExpr_counts k)).congr
      (by simp [exprEvents, Expr.name?])
  | .call _ f as =>
    ((bindExpr_counts f).bind (bindExpr_finds f) (bindExprs_counts as)).congr
      (by simp [exprEvents, Expr.name?])
  | .methodCall _ o _ as =>
    ((bindExpr_counts o).bind (bindExpr_finds o) (bindExprs_counts as)).congr
      (by simp [exprEvents, Expr.name?])

theorem bindExprs_counts : ∀ es : List Expr, CountsNames (exprsEvents es) (bindExprs es)
  | [] => Counts.none
  | e :: es => (bindExpr_counts e).bind (bindExpr_finds e) (bindExprs_counts es)

theorem bindExpr?_counts : ∀ e : Option Expr, CountsNames (expr?Events e) (bindExpr? e)
  | none => Counts.none
  | some e => bindExpr_counts e

/-- The key of a field is counted before its value. -/
theorem bindField_counts : ∀ f : TableField, CountsNames (fieldsEvents [f]) (bindField f)
  | .mk _ k v =>
    ((bindExpr?_counts k).bind (bindExpr?_finds k) (bindExpr_counts v)).congr
      (by simp [fieldsEvents])

theorem bindFields_counts : ∀ fs : List TableField, CountsNames (fieldsEvents fs) (bindFields fs)
  | [] => Counts.none
  | .mk p k v :: fs =>
    ((bindField_counts (.mk p k v)).bind (bindField_finds (.mk p k v)) (bindFields_counts fs)).congr
      (by simp [fieldsEvents])

/-- The parameters of a function are declared, and count for nothing. -/
theorem bindFunc_counts (isMethod : Bool) : ∀ f : FuncBody,
    CountsNames (funcEvents f) (bindFunc isMethod f)
  | .mk _ ps _ b => by
    intro σ τ hσ hfunc
    rw [bindFunc] at hfunc
    obtain ⟨ρ, hps, hbody⟩ := Option.bind_eq_some_iff.mp hfunc
    obtain ⟨ρ₂, hblock, rfl⟩ := Option.map_eq_some_iff.mp hbody
    have hσ : Tidy σ.newScope.2 := ⟨hσ.locals, hσ.globals⟩
    obtain ⟨hself, hid⟩ := Found.declareSelf σ.newScope.2 isMethod σ.newScope.1
    have hnames := Finds.declareNames .param σ.newScope.1 (bare ps) _ ρ hps
    rw [map_fst_bare] at hnames
    have htidy := (hnames.activateSelf hid).activate.tidy (hself.tidy hσ)
    have hself := Tallied.declareSelf σ.newScope.2 isMethod σ.newScope.1
    have hblock := bindBlock_counts b _ ρ₂ htidy hblock
    have hall := (hself.trans (Tallied.declareNames hps)).trans ⟨hblock.reads, hblock.writes⟩
    simp only [funcEvents, readsIn_cons, targetsIn_cons, read?_func, target?_visit, Option.toList_none]
    exact ⟨hall.reads, hall.writes⟩

theorem bindBlock_counts : ∀ b : Block, CountsNames (blockEvents b) (bindBlock b)
  | .mk _ ss => (bindStmts_counts ss).hide.congr (by simp [blockEvents])

theorem bindBlock?_counts : ∀ b : Option Block, CountsNames (block?Events b) (bindBlock? b)
  | none => Counts.none
  | some b => bindBlock_counts b

theorem bindStmts_counts : ∀ ss : List Stmt, CountsNames (stmtsEvents ss) (bindStmts ss)
  | [] => Counts.none
  | s :: ss => (bindStmt_counts s).bind (bindStmt_finds s) (bindStmts_counts ss)

/-- A condition and its block, in the order of the checker. -/
theorem bindClause_counts : ∀ c : IfClause, CountsNames (clausesEvents [c]) (bindClause c)
  | .mk _ c b =>
    ((bindExpr_counts c).bind (bindExpr_finds c) (bindBlock_counts b)).congr
      (by simp [clausesEvents])

theorem bindClauses_counts : ∀ cs : List IfClause, CountsNames (clausesEvents cs) (bindClauses cs)
  | [] => Counts.none
  | .mk p c b :: cs =>
    ((bindClause_counts (.mk p c b)).bind (bindClause_finds (.mk p c b)) (bindClauses_counts cs)).congr
      (by simp [clausesEvents])

/-- A statement.  The targets of an assignment are looked up as reads, which become stores before the
values are gone through. -/
theorem bindStmt_counts : ∀ s : Stmt, CountsNames (stmtEvents s) (bindStmt s)
  | .local _ ns as vs => by
    have hnames : ∀ scope, CountsNames [] fun τ =>
        (τ.declareNames .local scope (withAttribs ns as)).map (·.activate ns) := by
      intro scope σ τ _ hns
      obtain ⟨ρ, hρ, rfl⟩ := Option.map_eq_some_iff.mp hns
      have hnames := Tallied.declareNames hρ
      exact ⟨hnames.reads, hnames.writes⟩
    have hlocal : CountsNames (exprsEvents vs ++ []) _ :=
      Counts.scope fun scope => (bindExprs_counts vs).bind (bindExprs_finds vs) (hnames scope)
    exact hlocal.congr (by simp [stmtEvents])
  | .assign p ts vs => by
    have htargets := (bindExprs_counts ts).targets vs (bindExprs_finds ts)
    have hassign := htargets.bind (finds_targets (bindExprs_finds ts)) (bindExprs_counts vs)
    -- the checker sees the values first
    have hall : CountsNames (stmtEvents (.assign p ts vs)) _ :=
      Counts.perm hassign (by simpa [stmtEvents] using List.perm_append_comm)
        (by simpa [stmtEvents] using List.perm_append_comm)
    intro σ τ hσ hb
    refine hall σ τ hσ ?_
    simpa [bindStmt, Option.bind_assoc] using hb
  | .call _ e => (bindExpr_counts e).congr (by simp [stmtEvents])
  | .do _ b => (bindBlock_counts b).congr (by simp [stmtEvents])
  | .while _ c b =>
    ((bindExpr_counts c).bind (bindExpr_finds c) (bindBlock_counts b)).congr
      (by simp [stmtEvents])
  | .repeat _ (.mk _ ss) c => by
    have hbody := (bindStmts_counts ss).bind (bindStmts_finds ss) (bindExpr_counts c)
    exact hbody.hide.congr (by simp [stmtEvents, blockEvents])
  | .if _ cs o =>
    ((bindClauses_counts cs).bind (bindClauses_finds cs) (bindBlock?_counts o)).congr
      (by simp [stmtEvents])
  | .numericFor _ v a b c body => by
    have hfor : CountsNames (exprEvents a ++ (exprEvents b ++ (expr?Events c ++ blockEvents body))) _ :=
      Counts.scope fun scope =>
        have hloop : CountsNames (blockEvents body) _ :=
          Counts.loop .loop scope [v] (bindBlock_counts body)
        (bindExpr_counts a).bind (bindExpr_finds a) <|
          (bindExpr_counts b).bind (bindExpr_finds b) <|
            (bindExpr?_counts c).bind (bindExpr?_finds c) hloop
    exact hfor.congr (by simp [stmtEvents])
  | .genericFor _ ns vs body => by
    have hfor : CountsNames (exprsEvents vs ++ blockEvents body) _ :=
      Counts.scope fun scope =>
        have hloop : CountsNames (blockEvents body) _ :=
          Counts.loop .loop scope ns (bindBlock_counts body)
        (bindExprs_counts vs).bind (bindExprs_finds vs) hloop
    exact hfor.congr (by simp [stmtEvents])
  | .function p t f m => by
    have hts : CountsNames (exprsEvents [t]) (bindExpr t) :=
      (bindExpr_counts t).congr (by simp [exprsEvents])
    have hfinds : Finds (namesIn (walkExprs [t])) (bindExpr t) :=
      (bindExpr_finds t).congr (by simp [walkExprs])
    have hfunc := (hts.targets [] hfinds).bind (finds_targets hfinds) (bindFunc_counts m f)
    obtain ⟨hreads, htargets⟩ := functionEvents_names p t f m
    have hall : CountsNames (stmtEvents (.function p t f m)) _ :=
      hfunc.congr (by rw [hreads, htargets, readsIn_append, targetsIn_append]; exact ⟨rfl, rfl⟩)
    intro σ τ hσ hb
    refine hall σ τ hσ ?_
    simpa [bindStmt, Option.bind_assoc] using hb
  | .localFunction _ n f => by
    intro σ τ hσ hlocal
    obtain ⟨ρ, hn, hf⟩ := Option.bind_eq_some_iff.mp hlocal
    have hσ : Tidy σ.newScope.2 := ⟨hσ.locals, hσ.globals⟩
    have hname := Finds.declareNames .function σ.newScope.1 (bare [n]) _ ρ hn
    rw [map_fst_bare] at hname
    have hfunc := bindFunc_counts false f _ τ (hname.activate.tidy hσ) hf
    have hall := (Tallied.declareNames hn).trans ⟨hfunc.reads, hfunc.writes⟩
    simp only [stmtEvents, readsIn_cons, targetsIn_cons, read?_stmt, target?_visit, Option.toList_none]
    exact ⟨hall.reads, hall.writes⟩
  | .return _ vs => (bindExprs_counts vs).congr (by simp [stmtEvents])
  | .break _ | .goto _ _ | .label _ _ => Counts.none

end

end LuaServer.Lua
