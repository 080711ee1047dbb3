/-
# What a report on a type says of the stores

Types do not follow the flow of control, so a report that a variable has the wrong type for an operation
is about all that the chunk stores in the variable, and not about what it was stored last.  Of a local or
a local function the declaration is such a store; so either it is the only one, and the type inferred for
it is the one that is reported, or the class of every store can be told without looking at bindings, and
all of them are of that class (`check_mistyped_declared`).

Parameters and the variables of loops are declared by no store.  What they hold at first is unknown, or a
number, but it is not among the stores that have to agree; so a first assignment gives such a variable
its type, however little is known of what it held before (`check_mistyped_incoming`).

Main results: `check_mistyped_declared`, `check_mistyped_incoming`.
-/
import LuaServer.Proofs.Origins

namespace LuaServer.Lua

open scoped List

/-! ## 1. Stores that agree -/

/-- The classes of what is stored in a binding can be told and are all `t`. -/
def Chunk.AllStore (c : Chunk) (id : BindingId) (t : Base) : Prop := ∀ s ∈ c.storesTo id, s.base? = some t

/-- The binding is settled to be of class `t` by what is stored there after the steps `before`: it is the
only store, and the type inferred for it is of the class, or the class of every store is known to be it. -/
def Chunk.Settled (c : Chunk) (env : CheckEnv) (before : List Event) (id : BindingId) (s : Stored)
    (t : Base) : Prop :=
  c.storesTo id = [s] ∧ (env.storedType (env.run before c.initialTypes).2 s).base? = some t ∨
    c.AllStore id t

/-- The variable of a numeric loop. -/
def Chunk.Counter (c : Chunk) (id : BindingId) : Prop :=
  ∃ p v e₁ e₂ e₃ b, .stmt (.numericFor p v e₁ e₂ e₃ b) ∈ c.walk ∧ v.binding = id

/-- A variable of a generic loop. -/
def Chunk.Iterated (c : Chunk) (id : BindingId) : Prop :=
  ∃ p ns vs b, .stmt (.genericFor p ns vs b) ∈ c.walk ∧ ∃ n ∈ ns, n.binding = id

/-- Classes that do not disagree: there is one at most, or they are all known and the same. -/
theorem agree_of_disagree {ts : List (Option Base)} (h : disagree ts = false) :
    ts.length ≤ 1 ∨ ∃ t, ∀ x ∈ ts, x = some t := by
  unfold disagree at h
  split at h
  · exact .inl (Nat.zero_le 1)
  · exact .inl (Nat.le_refl 1)
  · next t ts _ =>
    obtain ⟨hknown, hsame⟩ := Bool.or_eq_false_iff.mp h
    obtain ⟨t, rfl⟩ : ∃ u, t = some u := by
      cases t with
      | none => cases hknown
      | some u => exact ⟨u, rfl⟩
    refine .inr ⟨t, fun x hx => ?_⟩
    rcases List.mem_cons.mp hx with rfl | hx
    · rfl
    · simpa using List.any_eq_false.mp hsame x hx

theorem allStore_of_map {c : Chunk} {id : BindingId} {t : Base}
    (h : ∀ x ∈ (c.storesTo id).map Stored.base?, x = some t) : c.AllStore id t :=
  fun _ hs => h _ (List.mem_map_of_mem hs)

theorem mem_received {vs : List Expr} {n : Name} : ∀ {ns : List Name} (i : Nat), n ∈ ns →
    ∃ s, (n, s) ∈ received vs i (ns.map some)
  | m :: ns, i, h => by
    rcases List.mem_cons.mp h with rfl | h
    · exact ⟨_, List.mem_cons_self⟩
    · obtain ⟨s, hs⟩ := mem_received (i + 1) h
      exact ⟨s, List.mem_cons_of_mem _ hs⟩

theorem of_mem_received {vs : List Expr} {n : Name} {s : Stored} : ∀ {ns : List Name} (i : Nat),
    (n, s) ∈ received vs i (ns.map some) → n ∈ ns
  | m :: ns, i, h => by
    rcases List.mem_cons.mp h with heq | h
    · cases heq
      exact List.mem_cons_self
    · exact List.mem_cons_of_mem m (of_mem_received (i + 1) h)

/-- A report on a name of a program, by running the checker on it. -/
theorem exists_report (source : Text) (settings : CheckSettings) (m : Message) (kind : BindingKind)
    (hrun : (parse source []).toOption.any (fun c => m ∈ reportsBefore settings c &&
      c.names.any fun n => n.pos = m.pos && (c.bindings[n.binding]?).map (·.kind) = some kind) = true) :
    ∃ c, parse source [] = .ok c ∧ m ∈ (check settings c).messages ∧
      ∃ n ∈ c.names, n.pos = m.pos ∧ ∃ b, c.bindings[n.binding]? = some b ∧ b.kind = kind := by
  cases h : parse source [] with
  | error e =>
    rw [h] at hrun
    cases hrun
  | ok c =>
    rw [h] at hrun
    simp only [Except.toOption, Option.any_some, Bool.and_eq_true, decide_eq_true_eq, List.any_eq_true,
      Option.map_eq_some_iff] at hrun
    obtain ⟨hm, n, hn, hpos, b, hb, hkind⟩ := hrun
    exact ⟨c, rfl, (check_perm settings c).mem_iff.mpr hm, n, hn, hpos, b, hb, hkind⟩

/-! ## 2. Where a binding is stored to -/

section
variable {source uri : Text} {c : Chunk}

theorem mem_storesTo {ev : Event} (hev : ev ∈ c.events) {d : Name} {s : Stored}
    (h : (d, s) ∈ ev.storing) : (d, s) ∈ c.storing.filter fun x => x.1.binding = d.binding :=
  List.mem_filter.mpr ⟨(c.events_of ev hev).storing h, by simp⟩

/-- What is stored by one step is all that is stored, if there is not more than one store. -/
theorem eq_of_storesTo {id : BindingId} (hone : (c.storesTo id).length ≤ 1) {x y : Name × Stored}
    (hx : x ∈ c.storing.filter fun z => z.1.binding = id)
    (hy : y ∈ c.storing.filter fun z => z.1.binding = id) : x = y ∧ c.storesTo id = [x.2] := by
  rw [Chunk.storesTo, List.length_map] at hone
  obtain ⟨z, hstores⟩ := List.length_eq_one_iff.mp (Nat.le_antisymm hone (List.length_pos_of_mem hx))
  rw [hstores] at hx hy
  obtain rfl := List.mem_singleton.mp hx
  obtain rfl := List.mem_singleton.mp hy
  exact ⟨rfl, by rw [Chunk.storesTo, hstores]; rfl⟩

/-- **What a report on the type of a variable says of its stores.**  The type that it names is the one of
a step that stores to the variable, and the other stores agree; or the variable is that of a numeric loop,
and its stores agree with each other. -/
theorem mistyped_settled (h : parse source uri = .ok c) {settings : CheckSettings} {m : Message}
    (hm : m ∈ (check settings c).messages) (htag : m.issue.tag = "type") {n : Name} (hn : n ∈ c.names)
    (hpos : n.pos = m.pos) {b : Binding} (hb : c.bindings[n.binding]? = some b)
    (hkind : b.kind ≠ .global) :
    ∃ op ty subject t, m.issue = .mistyped op ty subject ∧ ty.base? = some t ∧
      ((∃ before ev after d s, c.events = before ++ ev :: after ∧ (d, s) ∈ ev.storing ∧
          d.binding = n.binding ∧
          c.Settled ⟨settings, c.bindings, c.unsettled⟩ before n.binding s t) ∨
        (t = .number ∧ c.Counter n.binding ∧
          ((c.storesTo n.binding).length ≤ 1 ∨ ∃ u, c.AllStore n.binding u))) := by
  obtain ⟨op, ty, subject, hissue⟩ : ∃ op ty subject, m.issue = .mistyped op ty subject := by
    cases hi : m.issue with
    | mistyped op ty subject => exact ⟨op, ty, subject, rfl⟩
    | _ => simp [hi, Issue.tag] at htag
  obtain ⟨t, given, ht, hgiven, hagree, before, ev, after, hes, hgives⟩ :=
    mistyped_origin h hm hissue hn hpos hb hkind
  have hev : ev ∈ c.events := by simp [hes]
  have hstores : (c.storesTo n.binding).length ≤ 1 ∨ ∃ u, c.AllStore n.binding u := by
    rcases agree_of_disagree hagree with hone | ⟨u, hall⟩
    · exact .inl (by simpa using hone)
    · exact .inr ⟨u, allStore_of_map hall⟩
  refine ⟨op, ty, subject, t, hissue, ht, ?_⟩
  obtain ⟨id, hid⟩ : ∃ id, id = n.binding := ⟨_, rfl⟩
  rw [← hid] at hgives hstores ⊢
  cases hgives with
  | @stored _ d s hs =>
    refine .inl ⟨before, ev, after, d, s, hes, hs, rfl, ?_⟩
    have hmem := mem_storesTo hev hs
    rcases hstores with hone | ⟨u, hall⟩
    · exact .inl ⟨(eq_of_storesTo hone hmem hmem).2, hgiven⟩
    · have hu : s.base? = some u := hall s (List.mem_map_of_mem hmem)
      obtain rfl := base?_storedType _ _ hu hgiven
      exact .inr hall
  | @counter p v e₁ e₂ e₃ body _ hnumber =>
    have hnode : .stmt (.numericFor p v e₁ e₂ e₃ body) ∈ c.walk := Chunk.stmt_of_event hev
    exact .inr ⟨Option.some.inj (hgiven.symm.trans hnumber), ⟨p, v, e₁, e₂, e₃, body, hnode, rfl⟩, hstores⟩

/-- The variable of a loop is no local. -/
theorem Chunk.Counter.kind (h : parse source uri = .ok c) {id : BindingId} (hc : c.Counter id)
    {b : Binding} (hb : c.bindings[id]? = some b) : b.kind = .loop := by
  obtain ⟨p, v, e₁, e₂, e₃, body, hnode, rfl⟩ := hc
  exact (parse_numericFor h hnode b hb).1

/-- What a step stores to is a plain target, or a local or a local function that the step declares. -/
theorem storing_table (h : parse source uri = .ok c) {ev : Event} (hev : ev ∈ c.events) {d : Name}
    {s : Stored} (hs : (d, s) ∈ ev.storing) :
    d ∈ targetsIn c.events ∨ d ∈ ev.declares ∧ (c.Declares .local d ∨ c.Declares .function d) := by
  have htarget : ev.target? = some d → d ∈ targetsIn c.events := fun htarget =>
    List.mem_filterMap.mpr ⟨ev, hev, htarget⟩
  unfold Event.storing at hs
  split at hs
  · have hd := of_mem_received 0 hs
    exact .inr ⟨hd, .inl (parse_local h (Chunk.stmt_of_event hev) d hd).1⟩
  · cases List.mem_singleton.mp hs
    exact .inr ⟨List.mem_cons_self, .inr (parse_localFunction h (Chunk.stmt_of_event hev))⟩
  · cases List.mem_singleton.mp hs
    exact .inl (htarget rfl)
  · cases List.mem_singleton.mp hs
    exact .inl (htarget rfl)
  · cases hs

/-- To what a step declares it stores, unless that is a parameter. -/
theorem declares_table (h : parse source uri = .ok c) {ev : Event} (hev : ev ∈ c.events) {d : Name}
    (hd : d ∈ ev.declares) : c.Declares .param d ∨ ∃ s, (d, s) ∈ ev.storing := by
  unfold Event.declares at hd
  split at hd
  · exact .inr (mem_received 0 hd)
  · obtain rfl := List.mem_singleton.mp hd
    exact .inr ⟨_, List.mem_cons_self⟩
  · exact .inl (parse_params h (Chunk.func_of_event hev) d hd)
  · cases hd

/-- A name that is declared is no plain target. -/
theorem declares_not_target (h : parse source uri = .ok c) {d : Name} (hd : d ∈ declaresIn c.events) :
    d ∉ targetsIn c.events := by
  obtain ⟨used, entered, ha⟩ := c.told
  have hnodup := (ha.names.map (·.pos)).nodup_iff.mpr (parse_names_nodup h)
  rw [List.map_append, List.nodup_append'] at hnodup
  obtain ⟨x, hx, rfl⟩ := List.mem_map.mp (ha.declares.mem_iff.mp hd)
  refine fun htarget => hnodup.2.2 (List.mem_map_of_mem (List.mem_append_right _ htarget)) ?_
  exact List.mem_map_of_mem (List.mem_map_of_mem (List.mem_of_mem_filter hx))

end

/-! ## 3. Locals and local functions -/

section
variable {source uri : Text} {c : Chunk}

/-- The step that declares a local or a local function, and stores to it. -/
theorem exists_declares (h : parse source uri = .ok c) {n : Name} (hn : n ∈ c.names) {b : Binding}
    (hb : c.bindings[n.binding]? = some b) (hkind : b.kind = .local ∨ b.kind = .function) :
    ∃ ev ∈ c.events, ∃ d ∈ ev.declares, ∃ s, (d, s) ∈ ev.storing ∧ d.binding = n.binding ∧
      b.declaration = some d.pos := by
  obtain ⟨used, entered, ha⟩ := c.told
  rw [← c.scoping_names] at hn
  obtain ⟨u, hu, rfl⟩ := List.mem_map.mp hn
  obtain ⟨b', hb', -, htabled⟩ := parse_tabled h hu
  obtain rfl := Option.some.inj (hb'.symm.trans hb)
  obtain ⟨n, t⟩ := u
  cases t with
  | global x =>
    obtain ⟨hglobal, -⟩ := htabled
    rw [hglobal] at hkind
    simp at hkind
  | «local» d =>
    have hdeclared : d ∈ (scopeBlock [] c.body).declared :=
      ((scopeBlock_foreseen [] c.body).meant hu rfl).resolve_left List.not_mem_nil
    obtain ⟨x, hx, rfl⟩ := List.mem_map.mp hdeclared
    rw [htabled.1] at hkind
    have hsite : x.1.site.isSome := by
      cases hs : x.1.site with
      | some p => rfl
      | none =>
        rw [ha.unplaced x hx hs] at hkind
        simp at hkind
    obtain ⟨y, hy, rfl⟩ := List.mem_map.mp (ha.decls.mem_iff.mp (List.mem_filter.mpr ⟨hx, hsite⟩))
    have hbinding : y.1.binding = n.binding := (parse_share h (ha.declared hy) hu).mpr rfl
    have hloop : y.2.1.kind ≠ .loop := fun hloop => by simp [hloop] at hkind
    have hin : y.1 ∈ declaresIn c.events :=
      ha.declares.mem_iff.mpr (List.mem_map_of_mem (List.mem_filter.mpr ⟨hy, by simp [hloop]⟩))
    obtain ⟨ev, hev, hd⟩ := List.mem_flatMap.mp hin
    have hb : c.bindings[y.1.binding]? = some b' := hbinding ▸ hb'
    rcases declares_table h hev hd with hparam | ⟨s, hs⟩
    · rw [← htabled.1, (hparam b' hb).1] at hkind
      simp at hkind
    · obtain ⟨-, hlocal⟩ := (storing_table h hev hs).resolve_left (declares_not_target h hin)
      have hdeclaration : b'.declaration = some y.1.pos :=
        hlocal.elim (fun hl => (hl b' hb).2) fun hf => (hf b' hb).2
      exact ⟨ev, hev, y.1, hd, s, hs, hbinding, hdeclaration⟩

/-- **Reports on the types of locals hold of all stores.**  If there is a report on the type of a local or
a local function where a name of it stands, then a step declares the variable and stores to it, and either
this is the only store in the chunk and the type inferred for it is of the class that is reported, or the
classes of all stores, in nested functions too, are known and are that class. -/
theorem check_mistyped_declared (h : parse source uri = .ok c) {settings : CheckSettings} {m : Message}
    (hm : m ∈ (check settings c).messages) (htag : m.issue.tag = "type") {n : Name} (hn : n ∈ c.names)
    (hpos : n.pos = m.pos) {b : Binding} (hb : c.bindings[n.binding]? = some b)
    (hkind : b.kind = .local ∨ b.kind = .function) :
    ∃ op ty subject t, m.issue = .mistyped op ty subject ∧ ty.base? = some t ∧
      ∃ before ev after, c.events = before ++ ev :: after ∧
        ∃ d ∈ ev.declares, ∃ s, (d, s) ∈ ev.storing ∧ d.binding = n.binding ∧
          b.declaration = some d.pos ∧
          c.Settled ⟨settings, c.bindings, c.unsettled⟩ before n.binding s t := by
  obtain ⟨op, ty, subject, t, hissue, ht, hstep⟩ :=
    mistyped_settled h hm htag hn hpos hb (by rcases hkind with hk | hk <;> simp [hk])
  refine ⟨op, ty, subject, t, hissue, ht, ?_⟩
  obtain ⟨ev₀, hev₀, d₀, hd₀, s₀, hs₀, hbinding₀, hdeclaration⟩ := exists_declares h hn hb hkind
  rcases hstep with ⟨before, ev, after, d, s, hes, hs, hbinding, hsettled⟩ | ⟨-, hcounter, -⟩
  · rcases hsettled with ⟨hone, hinferred⟩ | hall
    · -- the one store is the declaration
      have hev : ev ∈ c.events := by simp [hes]
      have hx := mem_storesTo hev hs
      have hy := mem_storesTo hev₀ hs₀
      rw [hbinding] at hx
      rw [hbinding₀] at hy
      obtain ⟨heq, -⟩ := eq_of_storesTo (by rw [hone]; exact Nat.le_refl 1) hx hy
      cases heq
      have hdeclares : d₀ ∈ ev.declares :=
        ((storing_table h hev hs).resolve_left
          (declares_not_target h (List.mem_flatMap.mpr ⟨ev₀, hev₀, hd₀⟩))).1
      exact ⟨before, ev, after, hes, d₀, hdeclares, s₀, hs, hbinding, hdeclaration, .inl ⟨hone, hinferred⟩⟩
    · obtain ⟨before₀, after₀, hes₀⟩ := List.append_of_mem hev₀
      exact ⟨before₀, ev₀, after₀, hes₀, d₀, hd₀, s₀, hs₀, hbinding₀, hdeclaration, .inr hall⟩
  · rw [hcounter.kind h hb] at hkind
    simp at hkind

end

/-- In `local s = 'a' local function f() s = 'b' end f() return s + 1` all that is stored in `s` is a
string, in `f` too, and there is a report that `s` is no operand of `+`. -/
theorem check_mistyped_declared_closure :
    ∃ c, parse (text "local s = 'a' local function f() s = 'b' end f() return s + 1") [] = .ok c ∧
      ∃ m ∈ (check {} c).messages, m = ⟨⟨1, 57⟩, 1, .mistyped .arithmetic .string (some ⟨text "s", false⟩)⟩ ∧
      ∃ n ∈ c.names, n.pos = m.pos ∧ ∃ t, Ty.string.base? = some t ∧
        ∃ before ev after, c.events = before ++ ev :: after ∧
          ∃ d ∈ ev.declares, ∃ s, (d, s) ∈ ev.storing ∧ d.binding = n.binding ∧
            c.Settled ⟨{}, c.bindings, c.unsettled⟩ before n.binding s t := by
  obtain ⟨m, hm⟩ : ∃ m : Message,
    m = ⟨⟨1, 57⟩, 1, .mistyped .arithmetic .string (some ⟨text "s", false⟩)⟩ := ⟨_, rfl⟩
  obtain ⟨c, h, hin, n, hn, hpos, b, hb, hkind⟩ := exists_report
    (text "local s = 'a' local function f() s = 'b' end f() return s + 1") {} m .local
    (by rw [hm]; decide +kernel)
  obtain ⟨op, ty, subject, t, hissue, ht, before, ev, after, hes, d, hd, s, hs, hid, -, hsettled⟩ :=
    check_mistyped_declared h hin (by rw [hm]; rfl) hn hpos hb (.inl hkind)
  rw [hm] at hissue
  cases hissue
  exact ⟨c, h, m, hin, hm, n, hn, hpos, t, ht, before, ev, after, hes, d, hd, s, hs, hid, hsettled⟩

/-! ## 4. Parameters and the variables of loops -/

section
variable {source uri : Text} {c : Chunk}

/-- A variable of a generic loop is not that of a numeric one. -/
theorem Chunk.Iterated.not_counter (h : parse source uri = .ok c) {id : BindingId} (hi : c.Iterated id)
    {b : Binding} (hb : c.bindings[id]? = some b) : ¬ c.Counter id := by
  rintro ⟨p, v, e₁, e₂, e₃, body, hnode, rfl⟩
  obtain ⟨p', ns, vs, body', hnode', n, hn, hid⟩ := hi
  obtain ⟨-, hv⟩ := parse_numericFor h hnode b hb
  obtain ⟨-, hd⟩ := parse_genericFor h hnode' n hn b (hid ▸ hb)
  have hpos : v.pos = n.pos := Option.some.inj (hv.symm.trans hd)
  cases eq_of_introduces h hnode hnode' List.mem_cons_self hn hpos

/-- **Reports on the types of parameters and loop variables are about assignments.**  If there is a report
on the type of a parameter or of the variable of a loop, then an assignment or a function statement stores
to the variable, and it is the only store and the type inferred for it is of the class that is reported,
or the classes of all stores are known and are that class.  Otherwise the variable is the one of a numeric
loop, the report is that it is a number, and its stores are not more than one, or agree with each other
but not necessarily with that. -/
theorem check_mistyped_incoming (h : parse source uri = .ok c) {settings : CheckSettings} {m : Message}
    (hm : m ∈ (check settings c).messages) (htag : m.issue.tag = "type") {n : Name} (hn : n ∈ c.names)
    (hpos : n.pos = m.pos) {b : Binding} (hb : c.bindings[n.binding]? = some b)
    (hkind : b.kind = .param ∨ b.kind = .loop) :
    ∃ op ty subject t, m.issue = .mistyped op ty subject ∧ ty.base? = some t ∧
      ((∃ before ev after, c.events = before ++ ev :: after ∧
          ∃ d ∈ c.targets, ∃ s, (d, s) ∈ ev.storing ∧ d.binding = n.binding ∧
            c.Settled ⟨settings, c.bindings, c.unsettled⟩ before n.binding s t) ∨
        (t = .number ∧ b.kind = .loop ∧ c.Counter n.binding ∧ ¬ c.Iterated n.binding ∧
          ((c.storesTo n.binding).length ≤ 1 ∨ ∃ u, c.AllStore n.binding u))) := by
  obtain ⟨op, ty, subject, t, hissue, ht, hstep⟩ :=
    mistyped_settled h hm htag hn hpos hb (by rcases hkind with hk | hk <;> simp [hk])
  refine ⟨op, ty, subject, t, hissue, ht, ?_⟩
  rcases hstep with ⟨before, ev, after, d, s, hes, hs, hbinding, hsettled⟩ | ⟨rfl, hcounter, hagree⟩
  · left
    obtain ⟨used, entered, ha⟩ := c.told
    have htarget : d ∈ targetsIn c.events := by
      refine (storing_table h (by simp [hes]) hs).resolve_right ?_
      rintro ⟨-, hlocal⟩
      rw [← hbinding] at hb
      rcases hlocal with hl | hf
      · rw [(hl b hb).1] at hkind
        simp at hkind
      · rw [(hf b hb).1] at hkind
        simp at hkind
    exact ⟨before, ev, after, hes, d, ha.targets.mem_iff.mp htarget, s, hs, hbinding, hsettled⟩
  · right
    exact ⟨rfl, hcounter.kind h hb, hcounter, fun hi => hi.not_counter h hb hcounter, hagree⟩

end

/-- In `local function f(x, n) if n then x = 1 end return x() end f(print)` the one assignment to the
parameter `x` is enough for a report that `x` is an integer where it is called. -/
theorem check_mistyped_incoming_param :
    ∃ c, parse (text "local function f(x, n) if n then x = 1 end return x() end f(print)") [] = .ok c ∧
      ∃ m ∈ (check {} c).messages, m = ⟨⟨1, 51⟩, 1, .mistyped .call .integer (some ⟨text "x", false⟩)⟩ ∧
      ∃ n ∈ c.names, n.pos = m.pos ∧ ∃ t, Ty.integer.base? = some t ∧
        ∃ before ev after, c.events = before ++ ev :: after ∧
          ∃ d ∈ c.targets, ∃ s, (d, s) ∈ ev.storing ∧ d.binding = n.binding ∧
            c.Settled ⟨{}, c.bindings, c.unsettled⟩ before n.binding s t := by
  obtain ⟨m, hm⟩ : ∃ m : Message,
    m = ⟨⟨1, 51⟩, 1, .mistyped .call .integer (some ⟨text "x", false⟩)⟩ := ⟨_, rfl⟩
  obtain ⟨c, h, hin, n, hn, hpos, b, hb, hkind⟩ := exists_report
    (text "local function f(x, n) if n then x = 1 end return x() end f(print)") {} m .param
    (by rw [hm]; decide +kernel)
  obtain ⟨op, ty, subject, t, hissue, ht, hstep⟩ :=
    check_mistyped_incoming h hin (by rw [hm]; rfl) hn hpos hb (.inl hkind)
  rw [hm] at hissue
  cases hissue
  rcases hstep with ⟨before, ev, after, hes, d, hd, s, hs, hid, hsettled⟩ | ⟨-, hloop, -⟩
  · exact ⟨c, h, m, hin, hm, n, hn, hpos, t, ht, before, ev, after, hes, d, hd, s, hs, hid, hsettled⟩
  · rw [hkind] at hloop
    cases hloop

/-- A parameter may be the subject of a report on its type, though nothing is known of the value that it
is called with: here that is the function `print`, and the report is that an integer is called. -/
theorem check_mistyped_unknown :
    ¬ ∀ (source uri : Text) (c : Chunk), parse source uri = .ok c → ∀ settings : CheckSettings,
      ∀ m ∈ (check settings c).messages, m.issue.tag = "type" → ∀ n ∈ c.names, n.pos = m.pos →
        ∀ b, c.bindings[n.binding]? = some b → b.kind ≠ .param := by
  intro hnever
  obtain ⟨c, h, hin, n, hn, hpos, b, hb, hkind⟩ := exists_report
    (text "local function f(x, n) if n then x = 1 end return x() end f(print)") {}
    ⟨⟨1, 51⟩, 1, .mistyped .call .integer (some ⟨text "x", false⟩)⟩ .param (by decide +kernel)
  exact hnever _ _ c h {} _ hin rfl n hn hpos b hb hkind

end LuaServer.Lua
