/-
# The types that a `local` gives

What a value is gets decided twice.  Before a chunk is checked, the class of each store is read off the
form of the value, and stores that disagree make a binding count as `any` (`storedBase?`).  Later, when
the checker comes to a `local`, it infers the types of the values from those of the variables in them and
gives them to the names (`CheckEnv.assignTypes`).  A report that a type is wrong rests on both, so they
must not disagree.

They do not, because a type is inferred by recursion on the same forms, and variables come in only where
the form alone says nothing (`base?_infer`).  The one exception is a `local` without any values: it stores
nil, but its names are of no known type yet.

* `of_assignTypes`: the type that a name is given is that of what it receives.
* `assignTypes_agrees`: the two agree, whatever the types before.
* `run_local`: so they do wherever the checker comes to a `local` in a text.
-/
import LuaServer.Proofs.Origins

namespace LuaServer.Lua

open scoped List

/-! ## 1. What a name receives -/

/-- Something is stored where there are values. -/
theorem storedAt_ne_unset {values : List Expr} (h : values ≠ []) (index : Nat) :
    storedAt values index ≠ .unset := by
  rw [storedAt, List.isEmpty_eq_false_iff.mpr h, if_neg Bool.false_ne_true]
  split
  · simp
  · split <;> simp

/-- Past the end of values, something of no class is one more value of the last of them. -/
theorem storedAt_further {values : List Expr} {index : Nat} (h : storedBase? values index = none)
    (hend : values.length ≤ index) : storedAt values index = .further := by
  have hnone : values[index]? = none := List.getElem?_eq_none hend
  rw [storedBase?, hnone] at h
  cases values with
  | nil => cases h
  | cons v vs =>
    cases hopen : endsOpen (v :: vs) with
    | false =>
      rw [hopen] at h
      cases h
    | true =>
      rw [storedAt, hnone, hopen]
      rfl

section
variable (env : CheckEnv) (types : Types) (values : List Expr)

/-- What is stored has a type of its class, if anything is stored. -/
theorem base?_storedType_of_base? {s : Stored} {t : Base} (h : s.base? = some t) (hset : s ≠ .unset) :
    (env.storedType types s).base? = some t := by
  cases s with
  | value e => exact base?_infer env types h
  | further => cases h
  | unset => exact absurd rfl hset
  | missing | function f => exact h

/-- The class of a store and the type of what is stored, which is not known past the end of values that
are open, nor where there are no values. -/
theorem storedType_agrees (index : Nat) :
    let t := env.storedType types (storedAt values index)
    (∀ base, storedBase? values index = some base → values ≠ [] → t.base? = some base) ∧
      (storedBase? values index = none → values.length ≤ index → t = .any) ∧
      (values = [] → storedBase? values index = some .nil ∧ t = .any) := by
  refine ⟨fun base hbase hvalues => ?_, fun hnone hend => ?_, fun hempty => ?_⟩
  · rw [← base?_storedAt] at hbase
    exact base?_storedType_of_base? env types hbase (storedAt_ne_unset hvalues index)
  · rw [storedAt_further hnone hend]
    rfl
  · subst hempty
    exact ⟨rfl, rfl⟩

/-! ## 2. The names of one `local` -/

/-- The first name gets the type of what it receives, and the others see it. -/
theorem assignTypes_cons (i : Nat) (n : Name) (ns : List Name) :
    env.assignTypes values i (n :: ns) types = env.assignTypes values (i + 1) ns
      (types.setIfInBounds n.binding (env.storedType types (storedAt values i))) := by
  rw [CheckEnv.assignTypes, storedAt]
  cases values[i]? with
  | some e => rfl
  | none => cases values.isEmpty <;> cases endsOpen values <;> rfl

theorem of_set_self {types : Types} {id : BindingId} (h : id < types.size) (t : Ty) :
    Types.of (types.setIfInBounds id t) id = t := by
  rw [Types.of, Array.getElem?_setIfInBounds_self_of_lt h, Option.getD_some]

variable {env types values}

/-- Names leave every other variable as it was. -/
theorem of_assignTypes_of_ne {id : BindingId} : ∀ {ns : List Name} {i : Nat} {types : Types},
    (∀ n ∈ ns, n.binding ≠ id) → (env.assignTypes values i ns types).of id = types.of id
  | [], _, _, _ => rfl
  | n :: ns, i, types, h => by
    obtain ⟨hn, hns⟩ := List.forall_mem_cons.mp h
    rw [assignTypes_cons, of_assignTypes_of_ne hns, of_set_ne _ hn]

/-- **What a `local` gives.**  A name gets the type of what it receives, with the types that the names
before it have been given, and keeps it unless a later name denotes the same variable. -/
theorem of_assignTypes : ∀ {ns : List Name} {start i : Nat} {types : Types} {n : Name},
    ns[i]? = some n → n.binding < types.size → (∀ m ∈ ns.drop (i + 1), m.binding ≠ n.binding) →
      ∃ types', (env.assignTypes values start ns types).of n.binding
        = env.storedType types' (storedAt values (start + i))
  | m :: ns, start, 0, types, n, hn, hbound, hlast => by
    obtain rfl : m = n := Option.some.inj hn
    have hrest : ∀ k ∈ ns, k.binding ≠ m.binding := hlast
    exact ⟨types, by rw [assignTypes_cons, of_assignTypes_of_ne hrest, of_set_self hbound, Nat.add_zero]⟩
  | m :: ns, start, i + 1, types, n, hn, hbound, hlast => by
    obtain ⟨types', h⟩ := @of_assignTypes ns (start + 1) i
      (types.setIfInBounds m.binding (env.storedType types (storedAt values start))) n hn
      (by rwa [Array.size_setIfInBounds]) hlast
    exact ⟨types', by rw [assignTypes_cons, h, Nat.add_right_comm, Nat.add_assoc]⟩

end

/-- **The two classifiers agree.**  If what a `local` stores in a name by its form is of a class, and there
are values, the type that the name is given is of that class; and if nothing can be said of it by its form
because it lies past the end of the values, the type is `any`.  Without values the class is nil and the
type is `any`.  The types before and the bindings whose stores disagree may be any. -/
theorem assignTypes_agrees (env : CheckEnv) (types : Types) (values : List Expr) {ns : List Name}
    {i : Nat} {n : Name} (hn : ns[i]? = some n) (hbound : n.binding < types.size)
    (hlast : ∀ m ∈ ns.drop (i + 1), m.binding ≠ n.binding) :
    let t := (env.assignTypes values 0 ns types).of n.binding
    (∀ base, storedBase? values i = some base → values ≠ [] → t.base? = some base) ∧
      (storedBase? values i = none → values.length ≤ i → t = .any) ∧
      (values = [] → storedBase? values i = some .nil ∧ t = .any) := by
  intro t
  obtain ⟨types', ht⟩ := @of_assignTypes env values ns 0 i types n hn hbound hlast
  rw [Nat.zero_add] at ht
  rw [show t = env.storedType types' (storedAt values i) from ht]
  exact storedType_agrees env types' values i

/-- Three names, and as values the negation of a table and a call: the form says of the first that it is a
number, and of those past the end nothing. -/
theorem assignTypes_agrees_negated :
    let p := Pos.start
    let name (id : BindingId) : Name := ⟨p, [], id⟩
    let env : CheckEnv := ⟨{}, #[], #[false, true]⟩
    let values := [.unary p .neg (.paren p (.name (name 0))), .call p (.name (name 1)) []]
    let types := env.assignTypes values 0 [name 2, name 3, name 4] #[.table, .function, .any, .nil, .nil]
    (types.of 2).base? = some .number ∧ types.of 4 = .any := by
  intro p name env values types
  have hagree := fun i => @assignTypes_agrees env #[.table, .function, .any, .nil, .nil] values
    [name 2, name 3, name 4] i (name (i + 2))
  refine ⟨(hagree 0 rfl (by decide) (by decide)).1 .number (by decide) nofun, ?_⟩
  exact (hagree 2 rfl (by decide) (by decide)).2.1 (by decide) (by decide)

/-! ## 3. In a text -/

section
variable {env : CheckEnv}

theorem size_assignTypes {values : List Expr} : ∀ {ns : List Name} {i : Nat} {types : Types},
    (env.assignTypes values i ns types).size = types.size
  | [], _, _ => rfl
  | n :: ns, i, types => by rw [assignTypes_cons, size_assignTypes, Array.size_setIfInBounds]

theorem size_setAll {ns : List Name} : ∀ {types : Types},
    (ns.foldl (fun types n => types.setIfInBounds n.binding .any) types).size = types.size := by
  induction ns with
  | nil => exact rfl
  | cons n ns ih =>
    intro types
    rw [List.foldl_cons, ih, Array.size_setIfInBounds]

/-- A step gives no variable up. -/
theorem size_retype (types : Types) (ev : Event) : (env.retype types ev).size = types.size := by
  unfold CheckEnv.retype
  split
  · exact size_assignTypes
  · exact Array.size_setIfInBounds
  · exact Array.size_setIfInBounds
  · exact size_setAll
  · exact size_setAll
  · split
    · exact Array.size_setIfInBounds
    · rfl
  · split
    · split
      · exact Array.size_setIfInBounds
      · rfl
    · rfl
  · rfl

theorem size_run : ∀ (es : List Event) (types : Types), (env.run es types).2.size = types.size
  | [], _ => rfl
  | ev :: es, types => (size_run es (env.retype types ev)).trans (size_retype types ev)

end

/-- Names that are declared together get new numbers, one after the other. -/
theorem declareNames_bindings {kind : BindingKind} {scope : Nat} : ∀ {xs : List (Name × Option Attrib)}
    {σ τ : Scopes}, σ.declareNames kind scope xs = some τ →
      (xs.map (·.1)).map (·.binding) = List.range' σ.table.length xs.length
  | [], _, _, _ => rfl
  | (n, a) :: xs, σ, τ, h => by
    obtain ⟨b, -, -, hid, h⟩ := Scopes.declareNames_cons h
    have ih := declareNames_bindings h
    rw [Scopes.table_add, List.length_append, List.length_singleton] at ih
    rw [List.map_cons, List.map_cons, ih, List.length_cons, List.range'_succ, ← hid, Scopes.add_fst]

section
variable {source uri : Text} {c : Chunk}

/-- The names of a `local` denote variables of their own, which the table of the chunk has. -/
theorem parse_local_bindings (h : parse source uri = .ok c) {p : Pos} {ns : List Name}
    {as : List (Option Attrib)} {vs : List Expr} (hs : .stmt (.local p ns as vs) ∈ c.walk) :
    (ns.map (·.binding)).Nodup ∧ ∀ n ∈ ns, n.binding < c.bindings.size := by
  obtain ⟨σ, τ, -, hstep, htable⟩ := parse_stmt h hs
  rw [bindStmt] at hstep
  obtain ⟨ρ, -, hns⟩ := Option.bind_eq_some_iff.mp hstep
  obtain ⟨ρ', hdeclare, rfl⟩ := Option.map_eq_some_iff.mp hns
  have hnumbers := declareNames_bindings hdeclare
  rw [map_fst_withAttribs] at hnumbers
  refine ⟨hnumbers ▸ List.nodup_range', fun n hn => ?_⟩
  rw [← map_fst_withAttribs ns as] at hn
  obtain ⟨x, hx, rfl⟩ := List.mem_map.mp hn
  obtain ⟨-, b, hb, -⟩ := declareNames_table hdeclare x hx
  obtain ⟨hlt, -⟩ := List.getElem?_eq_some_iff.mp (getElem?_extended hb htable)
  simpa [Chunk.table] using hlt

/-- **Wherever the checker comes to a `local`, the two agree.** -/
theorem run_local (h : parse source uri = .ok c) (settings : CheckSettings) {p : Pos} {ns : List Name}
    {as : List (Option Attrib)} {vs : List Expr} {before after : List Event}
    (hes : c.events = before ++ .visit (.stmt (.local p ns as vs)) :: after) {i : Nat} {n : Name}
    (hn : ns[i]? = some n) :
    let env : CheckEnv := ⟨settings, c.bindings, c.unsettled⟩
    let types := (env.run before c.initialTypes).2
    let t := (env.retype types (.visit (.stmt (.local p ns as vs)))).of n.binding
    (∀ base, storedBase? vs i = some base → vs ≠ [] → t.base? = some base) ∧
      (storedBase? vs i = none → vs.length ≤ i → t = .any) ∧
      (vs = [] → storedBase? vs i = some .nil ∧ t = .any) := by
  intro env types t
  have hs : .stmt (.local p ns as vs) ∈ c.walk := Chunk.stmt_of_event (by simp [hes])
  obtain ⟨hnodup, hbounds⟩ := parse_local_bindings h hs
  have hbound : n.binding < types.size := by
    rw [size_run, Chunk.initialTypes, Array.size_map]
    exact hbounds n (List.mem_of_getElem? hn)
  have hlast : ∀ m ∈ ns.drop (i + 1), m.binding ≠ n.binding := by
    intro m hm heq
    obtain ⟨hi, hget⟩ := List.getElem?_eq_some_iff.mp hn
    rw [← List.take_append_drop i ns, List.drop_eq_getElem_cons hi, hget, List.map_append, List.map_cons]
      at hnodup
    exact (List.nodup_cons.mp hnodup.of_append_right).1 (heq ▸ List.mem_map_of_mem hm)
  obtain ⟨types', ht⟩ := @of_assignTypes env vs ns 0 i types n hn hbound hlast
  rw [Nat.zero_add] at ht
  rw [show t = env.storedType types' (storedAt vs i) from ht]
  exact storedType_agrees env types' vs i

end

end LuaServer.Lua
