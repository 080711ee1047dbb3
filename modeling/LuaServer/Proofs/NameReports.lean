/-
# Names that are never read, that hide another, or that nothing defines

Three kinds of reports concern names alone, and not types.  What they should be is said here by the
lexical scoping of the tree (`Proofs/Scoping.lean`) and by its targets, with no counts and no table:

* a local or a local function that no name means, other than where it is declared and where it is a plain
  target (`Chunk.unused?`);
* a local, a local function or a written parameter that hides what is visible (`masked?`);
* a global that is no builtin and no plain target anywhere (`Chunk.undefined?`).

The checker finds these by the counts that the reader kept, and by the steps of its own walk.  It reports
each of them once, and no others.

Main result: `check_names`.
-/
import LuaServer.Proofs.Declarations
import LuaServer.Proofs.Steps
import LuaServer.Proofs.Visits

namespace LuaServer.Lua

open scoped List

/-! ## 1. What should be reported -/

/-- A declaration is read: a name means it that neither declares it nor is a plain target. -/
def Chunk.reads (c : Chunk) (d : Decl) : Bool :=
  (scopeBlock [] c.body).uses.any fun u =>
    u.2 = .local d && d.site ≠ some u.1.pos && u.1 ∉ c.targets

/-- A global is defined: a name that means it is a plain target. -/
def Chunk.defines (c : Chunk) (x : Text) : Bool :=
  (scopeBlock [] c.body).uses.any fun u => u.2 = .global x && u.1 ∈ c.targets

/-- The report on a declaration that is never read. -/
def Chunk.unused? (c : Chunk) (x : Decl × Option Decl) : Option Message := do
  let p ← x.1.site
  if (x.1.kind = .local ∨ x.1.kind = .function) ∧ x.1.name.head? ≠ some (code '_')
      ∧ c.reads x.1 = false then
    some ⟨p, x.1.name.length, .unused (x.1.kind = .function) x.1.name⟩
  else none

/-- The report on a declaration that hides another one. -/
def masked? (x : Decl × Option Decl) : Option Message := do
  let p ← x.1.site
  let hidden ← x.2
  if (x.1.kind = .local ∨ x.1.kind = .function ∨ x.1.kind = .param) ∧ x.1.name ≠ text "_" then
    some ⟨p, x.1.name.length, .shadows x.1.name (hidden.site.map (·.line))⟩
  else none

/-- The report on a name that means a global which nothing defines. -/
def Chunk.undefined? (c : Chunk) (u : Name × Target) : Option Message :=
  match u.2 with
  | .global x =>
    if isBuiltin x = false ∧ c.defines x = false then some ⟨u.1.pos, x.length, .undefined x⟩ else none
  | .local _ => none

/-! ## 2. Reports by their kinds -/

/-- The report on a name that is read and denotes a global without stores. -/
def CheckEnv.undefinedReport (env : CheckEnv) (n : Name) : Option Message := do
  let b ← env.bindings[n.binding]?
  if b.isGlobal && env.settings.strict && !isBuiltin n.name && b.writes = 0 then
    some ⟨n.pos, n.name.length, .undefined n.name⟩
  else none

theorem Event.read?_eq_some {ev : Event} {n : Name} :
    ev.read? = some n ↔ ev = .visit (.expr (.name n)) := by
  constructor
  · intro h
    unfold Event.read? at h
    split at h
    · next e => cases e <;> simp_all [Expr.name?]
    · cases h
  · rintro rfl
    rfl

/-- The reports of one kind. -/
def reportsOf (tag : String) (ms : List Message) : List Message := ms.filter (·.issue.tag = tag)

@[simp] theorem reportsOf_append (tag : String) (ms ns : List Message) :
    reportsOf tag (ms ++ ns) = reportsOf tag ms ++ reportsOf tag ns :=
  List.filter_append ..

/-- Reports that are all of one kind. -/
theorem reportsOf_eq {tag tag' : String} {ms : List Message} (h : ∀ m ∈ ms, m.issue.tag = tag') :
    reportsOf tag ms = if tag' = tag then ms else [] := by
  split
  · next heq => exact List.filter_eq_self.mpr fun m hm => by simp [h m hm, heq]
  · next hne => exact List.filter_eq_nil_iff.mpr fun m hm => by simp [h m hm, hne]

section
variable (env : CheckEnv) (types : Types)

theorem tag_untyped (vs : List Expr) (ns : List Name) :
    ∀ m ∈ env.untyped vs ns, m.issue.tag = "any" := by
  intro m hm
  obtain ⟨n, -, rfl⟩ := CheckEnv.of_untyped hm
  rfl

theorem tag_operands (op : Operation) (wrong : Ty → Bool) (es : List Expr) :
    ∀ m ∈ env.operands types op wrong es, m.issue.tag = "type" := by
  intro m hm
  obtain ⟨e, -, -, rfl⟩ := CheckEnv.of_operands hm
  rfl

theorem tag_shadowing (ns : List Name) : ∀ m ∈ ns.filterMap env.shadowing, m.issue.tag = "mask" := by
  intro m hm
  obtain ⟨n, -, hm⟩ := List.mem_filterMap.mp hm
  obtain ⟨line, rfl⟩ := CheckEnv.of_shadowing hm
  rfl

theorem tag_undefined (ns : List Name) :
    ∀ m ∈ ns.filterMap env.undefinedReport, m.issue.tag = "undefined" := by
  intro m hm
  obtain ⟨n, -, hm⟩ := List.mem_filterMap.mp hm
  simp only [CheckEnv.undefinedReport, Option.bind_eq_bind, Option.bind_eq_some_iff] at hm
  obtain ⟨b, -, hm⟩ := hm
  split at hm
  · cases hm
    rfl
  · cases hm

theorem tag_unused (ns : List Name) : ∀ m ∈ ns.filterMap env.unusedReport, m.issue.tag = "unused" := by
  intro m hm
  obtain ⟨n, -, hm⟩ := List.mem_filterMap.mp hm
  obtain ⟨isFunction, rfl⟩ := CheckEnv.of_unusedReport hm
  rfl

/-- The kinds of reports that do not concern names alone. -/
def otherTags : List String := ["any", "integer", "type"]

/-- What a step reports: on the name that it reads and on the names that it declares, and beyond that
only on types and numerals. -/
def CheckEnv.Reports (env : CheckEnv) (ev : Event) (ms : List Message) : Prop :=
  ∃ others, (∀ m ∈ others, m.issue.tag ∈ otherTags) ∧
    ms = others ++ ev.read?.toList.filterMap env.undefinedReport
      ++ ev.declares.filterMap env.shadowing

/-- A step that reads no name. -/
theorem reports_others {ev : Event} {ms : List Message} (hms : ∀ m ∈ ms, m.issue.tag ∈ otherTags)
    (hread : ev.read?.toList = []) : env.Reports ev (ms ++ ev.declares.filterMap env.shadowing) :=
  ⟨ms, hms, by simp [hread]⟩

theorem report_reports (ev : Event) : env.Reports ev (env.report types ev) := by
  unfold CheckEnv.report
  split
  · next ns as vs =>
    refine reports_others env (fun m hm => ?_) rfl
    simp [tag_untyped env vs ns m hm, otherTags]
  · next n =>
    refine ⟨[], nofun, ?_⟩
    cases hb : env.bindings[n.binding]? with
    | none => simp [Expr.name?, CheckEnv.undefinedReport, hb]
    | some b =>
      simp only [read?_expr, Expr.name?, Option.toList_some, List.filterMap_cons,
        List.filterMap_nil, CheckEnv.undefinedReport, hb, Option.bind_eq_bind, Option.bind_some]
      split <;> simp
  · refine reports_others env (fun m hm => ?_) rfl
    split at hm
    · obtain rfl := List.mem_singleton.mp hm
      simp [Issue.tag, otherTags]
    · cases hm
  · refine reports_others env (fun m hm => ?_) rfl
    rcases List.mem_append.mp hm with hm | hm
    · split at hm
      · obtain rfl := List.mem_singleton.mp hm
        simp [Issue.tag, otherTags]
      · cases hm
    · repeat' split at hm
      all_goals first | simp [tag_operands env types _ _ _ m hm, otherTags] | cases hm
  · refine reports_others env (fun m hm => ?_) rfl
    split at hm
    · simp [tag_operands env types _ _ _ m hm, otherTags]
    · cases hm
  · refine reports_others env (fun m hm => ?_) rfl
    dsimp only at hm
    split at hm
    · obtain rfl := List.mem_singleton.mp hm
      simp [CheckEnv.mistyped, Issue.tag, otherTags]
    · cases hm
  · next hname _ _ _ _ =>
    refine reports_others env nofun ?_
    have hnone : ev.read? = none := Option.eq_none_iff_forall_ne_some.mpr fun n hn =>
      hname n (Event.read?_eq_some.mp hn)
    rw [hnone, Option.toList_none]

/-- The reports of steps by their kinds. -/
theorem reportsOf_run (es : List Event) :
    reportsOf "unused" (env.run es types).1 = [] ∧
    reportsOf "mask" (env.run es types).1 = (declaresIn es).filterMap env.shadowing ∧
    reportsOf "undefined" (env.run es types).1 = (readsIn es).filterMap env.undefinedReport := by
  induction es generalizing types with
  | nil => exact ⟨rfl, rfl, rfl⟩
  | cons ev es ih =>
    obtain ⟨others, hothers, hreport⟩ := report_reports env types ev
    obtain ⟨hunused, hmask, hundefined⟩ := ih (env.retype types ev)
    have hnone : ∀ tag, tag ∉ otherTags → reportsOf tag others = [] := fun tag htag =>
      List.filter_eq_nil_iff.mpr fun m hm => by
        have := hothers m hm
        grind
    have hrun : (env.run (ev :: es) types).1
        = env.report types ev ++ (env.run es (env.retype types ev)).1 := rfl
    rw [hrun, hreport]
    simp only [reportsOf_append, hunused, hmask, hundefined, hnone _ (by decide : "unused" ∉ otherTags),
      hnone _ (by decide : "mask" ∉ otherTags), hnone _ (by decide : "undefined" ∉ otherTags),
      reportsOf_eq (tag_shadowing env ev.declares),
      reportsOf_eq (tag_undefined env ev.read?.toList)]
    simp

end

/-- The reports of a chunk by their kinds. -/
theorem reportsOf_check (settings : CheckSettings) (c : Chunk) :
    let env : CheckEnv := ⟨settings, c.bindings, c.unsettled⟩
    let ms := (check settings c).messages
    reportsOf "unused" ms
      ~ (if settings.unused then (declaresIn c.events).filterMap env.unusedReport else []) ∧
    reportsOf "mask" ms ~ (declaresIn c.events).filterMap env.shadowing ∧
    reportsOf "undefined" ms ~ (readsIn c.events).filterMap env.undefinedReport := by
  intro env ms
  obtain ⟨hunused, hmask, hundefined⟩ := reportsOf_run env c.initialTypes c.events
  obtain ⟨found, hfound⟩ : ∃ found, found = if settings.unused then
    (declaresIn c.events).filterMap env.unusedReport else [] := ⟨_, rfl⟩
  have htag : ∀ m ∈ found, m.issue.tag = "unused" := by
    intro m hm
    rw [hfound] at hm
    split at hm
    · exact tag_unused env _ m hm
    · cases hm
  have hms : ∀ tag, reportsOf tag ms
      ~ reportsOf tag (env.run c.events c.initialTypes).1 ++ reportsOf tag found := by
    intro tag
    rw [← reportsOf_append, hfound]
    exact (List.mergeSort_perm _ _).filter _
  refine ⟨?_, ?_, ?_⟩
  · have h := hms "unused"
    rwa [hunused, reportsOf_eq htag, if_pos rfl, List.nil_append, hfound] at h
  · have h := hms "mask"
    rwa [hmask, reportsOf_eq htag, if_neg (by decide), List.append_nil] at h
  · have h := hms "undefined"
    rwa [hundefined, reportsOf_eq htag, if_neg (by decide), List.append_nil] at h

/-! ## 3. The table of a chunk that is read -/

section
variable {source uri : Text} {c : Chunk}

/-- The places of identifiers are among those of tokens, in their order. -/
theorem idents_sublist : ∀ {ms : List Mark}, Written ms →
    (idents ms).map (·.pos) <+ (tokensOf ms).map (·.pos)
  | [], _ => .slnil
  | ⟨t, none⟩ :: ms, h => by
    have hms : Written ms := fun m hm => h m (List.mem_cons_of_mem _ hm)
    exact (idents_sublist hms).cons t.pos
  | ⟨t, some n⟩ :: ms, h => by
    have hms : Written ms := fun m hm => h m (List.mem_cons_of_mem _ hm)
    have hpos : t.pos = n.pos := (h _ List.mem_cons_self n rfl).2
    have ih := (idents_sublist hms).cons_cons t.pos
    simpa [idents, tokensOf, hpos] using ih

/-- No two names stand at one place if no two tokens do. -/
theorem Reads.names_nodup {b : Block} {ts next : List Token} {ms : List Mark}
    (h : Reads (.block b) ts ms next) (hnodup : (ts.map (·.pos)).Nodup) :
    ((namesIn (walkBlock b)).map (·.pos)).Nodup := by
  rw [h.tokens, List.map_append] at hnodup
  have hidents := h.idents
  rw [Item.Idents] at hidents
  rw [hidents]
  exact (idents_sublist h.written).nodup hnodup.of_append_left

theorem parse_names_nodup (h : parse source uri = .ok c) : (c.names.map (·.pos)).Nodup := by
  obtain ⟨tokens, ms, next, σ, hlex, hreads, -⟩ := parse_sound h
  exact hreads.names_nodup hlex.nodup_pos

/-- A binding has been read and stored to as often as the checker visits its names and stores to them. -/
theorem parse_counts (h : parse source uri = .ok c) {id : BindingId} {b : Binding}
    (hb : c.bindings[id]? = some b) :
    b.reads = timesOf id (readsIn c.events) ∧ b.writes = timesOf id (targetsIn c.events) := by
  obtain ⟨tokens, ms, next, σ, -, -, -, -, hbind, hbindings⟩ := parse_sound h
  obtain ⟨hreads, hwrites⟩ := bindBlock_counts c.body {} σ Tidy.initial hbind
  rw [hbindings] at hb
  have hreads := hreads id
  have hwrites := hwrites id
  rw [Scopes.tally_eq hb] at hreads hwrites
  simpa [Scopes.tally, Chunk.events] using And.intro hreads hwrites

/-- Two names share a binding exactly when they mean the same. -/
theorem parse_share (h : parse source uri = .ok c) {u v : Name × Target}
    (hu : u ∈ (scopeBlock [] c.body).uses) (hv : v ∈ (scopeBlock [] c.body).uses) :
    u.1.binding = v.1.binding ↔ u.2 = v.2 := by
  obtain ⟨rows, σ, -, hsim, huses, hdecls, hkeys, -⟩ := parse_follows h
  have hnodup := hsim.nodup (hdecls ▸ hkeys)
  have hu := huses u hu
  have hv := huses v hv
  obtain ⟨hlt, -⟩ := List.getElem?_eq_some_iff.mp hu
  constructor
  · intro heq
    rw [heq] at hu
    exact Option.some.inj (hu.symm.trans hv)
  · intro heq
    rw [← heq] at hv
    exact (List.getElem?_inj hlt hnodup).mp (hu.trans hv.symm)

/-- What the table says of a binding: of a global nothing but that it is one, of a declaration its kind
and the place of the declaration that it hides. -/
def Target.Tabled (c : Chunk) (b : Binding) : Target → Prop
  | .global x => b.kind = .global ∧ b.name = x
  | .local d => b.kind = d.kind ∧ ∀ hidden, (d, hidden) ∈ (scopeBlock [] c.body).decls →
      b.shadows.map (fun id => (c.bindings[id]?).bind (·.declaration)) = hidden.map (·.site)

/-- The binding of a name is that of what the name means. -/
theorem parse_tabled (h : parse source uri = .ok c) {u : Name × Target}
    (hu : u ∈ (scopeBlock [] c.body).uses) :
    ∃ b, c.bindings[u.1.binding]? = some b ∧ b.name = u.1.name ∧ u.2.Tabled c b := by
  obtain ⟨rows, σ, hbindings, hsim, huses, hdecls, hkeys, -⟩ := parse_follows h
  have hexists : ∀ {id t}, Denotes rows id t → ∃ b, c.bindings[id]? = some b := by
    intro id t ht
    obtain ⟨hlt, -⟩ := List.getElem?_eq_some_iff.mp ht
    have hlt : id < c.bindings.size := by
      rw [hbindings]
      simpa [← hsim.size, Scopes.table] using hlt
    exact ⟨_, Array.getElem?_eq_getElem hlt⟩
  have hfits : ∀ {id t b}, Denotes rows id t → c.bindings[id]? = some b →
      t.Fits (rows.map Row.target) (scopeBlock [] c.body) b := by
    intro id t b ht hb
    rw [hbindings] at hb
    obtain ⟨t', ht', hfits, -⟩ := hsim.fits hdecls hb
    obtain rfl := Option.some.inj (ht'.symm.trans ht)
    exact hfits
  obtain ⟨b, hb⟩ := hexists (huses u hu)
  have hfitsu := hfits (huses u hu) hb
  refine ⟨b, hb, (parse_numbers h hu hb).1, ?_⟩
  cases ht : u.2 with
  | global x =>
    rw [ht] at hfitsu
    exact ⟨hfitsu.2.1, hfitsu.1⟩
  | «local» d =>
    rw [ht] at hfitsu
    obtain ⟨-, hkind, -, -, -, hid, hmem, hshadows⟩ := hfitsu
    refine ⟨hkind, fun hidden hin => ?_⟩
    obtain rfl : hid = hidden := by
      have hpair := List.inj_on_of_nodup_map hkeys hmem hin rfl
      exact congrArg Prod.snd hpair
    cases hid with
    | none =>
      rw [Option.map_none, Option.map_eq_none_iff] at hshadows
      rw [hshadows]
      rfl
    | some e =>
      obtain ⟨id, hs, hid⟩ := Option.map_eq_some_iff.mp hshadows
      obtain ⟨b', hb'⟩ := hexists hid
      obtain ⟨-, -, hsite, -⟩ := hfits hid hb'
      rw [hs, Option.map_some, Option.map_some, hb', Option.bind_some, hsite]

/-! ## 4. What is reported is what should be -/

section
variable {used : List (Name × Target)} {entered : List Entry}

/-- The names of a chunk are those that are read, those that are stored to and those that are declared. -/
theorem Accounts.names (ha : Accounts (scopeBlock [] c.body) c.walk c.events used entered) :
    (readsIn c.events ++ targetsIn c.events) ++ entered.map (·.1) ~ c.names := by
  have huses := ha.uses.map (·.1)
  rw [c.scoping_names, List.map_append, List.map_map] at huses
  exact (ha.seen.symm.append_right _).trans huses.symm

/-- A name that is read is not stored to, and it does not stand where one is declared. -/
theorem Accounts.apart (h : parse source uri = .ok c)
    (ha : Accounts (scopeBlock [] c.body) c.walk c.events used entered) {n : Name}
    (hn : n ∈ readsIn c.events) : n ∉ targetsIn c.events ∧ ∀ x ∈ entered, x.1.pos ≠ n.pos := by
  have hnodup := (ha.names.map (·.pos)).nodup_iff.mpr (parse_names_nodup h)
  rw [List.map_append, List.map_append, List.nodup_append'] at hnodup
  obtain ⟨hused, -, hentered⟩ := hnodup
  have hstored := (List.nodup_append'.mp hused).2.2
  have hpos : n.pos ∈ (readsIn c.events).map (·.pos) := List.mem_map_of_mem hn
  refine ⟨fun hin => hstored hpos (List.mem_map_of_mem hin), fun x hx heq => ?_⟩
  refine hentered (List.mem_append_left _ hpos) ?_
  rw [← heq]
  exact List.mem_map_of_mem (List.mem_map_of_mem hx)

/-- A name that is read or stored to means what the pass says. -/
theorem Accounts.meant (ha : Accounts (scopeBlock [] c.body) c.walk c.events used entered) {n : Name}
    (hn : n ∈ readsIn c.events ++ targetsIn c.events) : ∃ t, (n, t) ∈ (scopeBlock [] c.body).uses := by
  obtain ⟨u, hu, rfl⟩ := List.mem_map.mp (ha.seen.mem_iff.mpr hn)
  exact ⟨u.2, ha.uses.mem_iff.mpr (List.mem_append_left _ hu)⟩

/-- A name that is declared means its declaration. -/
theorem Accounts.declared (ha : Accounts (scopeBlock [] c.body) c.walk c.events used entered) {x : Entry}
    (hx : x ∈ entered) : (x.1, .local x.2.1) ∈ (scopeBlock [] c.body).uses :=
  ha.uses.mem_iff.mpr (List.mem_append_right _ (List.mem_map_of_mem hx))

/-- A declaration is read if the checker visits a name with its binding. -/
theorem reads_iff (h : parse source uri = .ok c)
    (ha : Accounts (scopeBlock [] c.body) c.walk c.events used entered) {x : Entry} (hx : x ∈ entered) :
    c.reads x.2.1 = true ↔ ∃ n ∈ readsIn c.events, n.binding = x.1.binding := by
  have hdeclared := ha.declared hx
  have hsite := (ha.written x hx).site
  simp only [Chunk.reads, List.any_eq_true, Bool.and_eq_true, decide_eq_true_eq]
  constructor
  · rintro ⟨u, hu, ⟨htarget, hne⟩, hplain⟩
    refine ⟨u.1, ?_, (parse_share h hu hdeclared).mpr htarget⟩
    -- `u` is neither declared nor stored to, so it is read
    rcases List.mem_append.mp (ha.uses.mem_iff.mp hu) with hused | hentered
    · have hseen := ha.seen.mem_iff.mp (List.mem_map_of_mem hused)
      refine (List.mem_append.mp hseen).resolve_right fun hstored => ?_
      exact hplain (ha.targets.mem_iff.mp hstored)
    · obtain ⟨y, hy, rfl⟩ := List.mem_map.mp hentered
      have heq : y.2.1 = x.2.1 := Target.local.inj htarget
      rw [← heq, (ha.written y hy).site] at hne
      exact absurd rfl hne
  · rintro ⟨n, hn, hbinding⟩
    obtain ⟨t, hu⟩ := ha.meant (List.mem_append_left _ hn)
    obtain ⟨hstored, hentered⟩ := ha.apart h hn
    refine ⟨(n, t), hu, ⟨(parse_share h hu hdeclared).mp hbinding, ?_⟩, ?_⟩
    · rw [hsite]
      exact fun heq => hentered x hx (Option.some.inj heq)
    · exact fun hplain => hstored (ha.targets.mem_iff.mpr hplain)

/-- A global is defined if the checker stores to a name with its binding. -/
theorem defines_iff (h : parse source uri = .ok c)
    (ha : Accounts (scopeBlock [] c.body) c.walk c.events used entered) {n : Name} {x : Text}
    (hn : (n, .global x) ∈ (scopeBlock [] c.body).uses) :
    c.defines x = true ↔ ∃ m ∈ targetsIn c.events, m.binding = n.binding := by
  simp only [Chunk.defines, List.any_eq_true, Bool.and_eq_true, decide_eq_true_eq]
  constructor
  · rintro ⟨u, hu, htarget, hplain⟩
    exact ⟨u.1, ha.targets.mem_iff.mpr hplain, (parse_share h hu hn).mpr htarget⟩
  · rintro ⟨m, hm, hbinding⟩
    obtain ⟨t, hu⟩ := ha.meant (List.mem_append_right _ hm)
    exact ⟨(m, t), hu, (parse_share h hu hn).mp hbinding, ha.targets.mem_iff.mp hm⟩

/-- The names that the checker declares and the declarations, as far as they have a place and are no
variables of loops. -/
theorem Accounts.filterMap_perm {r : Scoping} {ns : List Node} {es : List Event}
    (ha : Accounts r ns es used entered) {f : Name → Option Message}
    {g : Decl × Option Decl → Option Message} (hsite : ∀ x, x.1.site = none → g x = none)
    (hloop : ∀ x, x.1.kind = .loop → g x = none)
    (hfg : ∀ x ∈ entered, x.2.1.kind ≠ .loop → f x.1 = g x.2) :
    (declaresIn es).filterMap f ~ r.decls.filterMap g := by
  have hwritten : (r.decls.filter (·.1.site.isSome)).filterMap g = r.decls.filterMap g := by
    rw [List.filterMap_filter]
    refine List.filterMap_congr fun x _ => ?_
    cases hx : x.1.site with
    | none => simp [hsite x hx]
    | some p => rfl
  have hentered : ((entered.filter (·.2.1.kind ≠ .loop)).map (·.1)).filterMap f
      = (entered.map (·.2)).filterMap g := by
    rw [List.filterMap_map, List.filterMap_map, List.filterMap_filter]
    refine List.filterMap_congr fun x hx => ?_
    by_cases hk : x.2.1.kind = .loop
    · simp [hk, hloop x.2 hk]
    · simp [hk, hfg x hx hk]
  rw [← hwritten]
  refine (ha.declares.filterMap f).trans ?_
  rw [hentered]
  exact (ha.decls.symm.filterMap g)

/-- The report on a declared name that is never read is the one on its declaration. -/
theorem unusedReport_eq (h : parse source uri = .ok c) (settings : CheckSettings)
    (ha : Accounts (scopeBlock [] c.body) c.walk c.events used entered) {x : Entry} (hx : x ∈ entered) :
    CheckEnv.unusedReport ⟨settings, c.bindings, c.unsettled⟩ x.1 = c.unused? x.2 := by
  obtain ⟨hsite, hname⟩ := ha.written x hx
  obtain ⟨b, hb, -, hkind, -⟩ := parse_tabled h (ha.declared hx)
  have hreads : b.reads = 0 ↔ c.reads x.2.1 = false := by
    rw [← Bool.not_eq_true, reads_iff h ha hx, (parse_counts h hb).1, timesOf_eq_zero]
    simp
  simp only [CheckEnv.unusedReport, hb, Chunk.unused?, hsite, hname, hkind, hreads, Option.bind_eq_bind,
    Option.bind_some, and_comm]

/-- The report on a declared name that hides another is the one on its declaration. -/
theorem shadowing_eq (h : parse source uri = .ok c) (settings : CheckSettings)
    (ha : Accounts (scopeBlock [] c.body) c.walk c.events used entered) {x : Entry} (hx : x ∈ entered)
    (hloop : x.2.1.kind ≠ .loop) :
    CheckEnv.shadowing ⟨settings, c.bindings, c.unsettled⟩ x.1 = masked? x.2 := by
  obtain ⟨hsite, hname⟩ := ha.written x hx
  have hin : x.2 ∈ (scopeBlock [] c.body).decls :=
    List.mem_of_mem_filter (ha.decls.mem_iff.mpr (List.mem_map_of_mem hx))
  have hkind : x.2.1.kind = .local ∨ x.2.1.kind = .function ∨ x.2.1.kind = .param := by
    have hglobal := ha.kinds x.2 hin
    cases hk : x.2.1.kind <;> simp_all
  obtain ⟨b, hb, -, -, hshadows⟩ := parse_tabled h (ha.declared hx)
  have hshadows := hshadows x.2.2 hin
  simp only [CheckEnv.shadowing, hb, masked?, hsite, hname, hkind, true_and, Option.bind_eq_bind,
    Option.bind_some]
  cases hs : b.shadows with
  | none =>
    rw [hs, Option.map_none] at hshadows
    rw [Option.map_eq_none_iff.mp hshadows.symm]
    rfl
  | some id =>
    rw [hs, Option.map_some] at hshadows
    obtain ⟨hidden, hh, hsite'⟩ := Option.map_eq_some_iff.mp hshadows.symm
    simp only [hh, hsite', Option.bind_some, ne_eq, ite_not]

/-- The report on a name, if it is read, is the one on the global that it means. -/
theorem undefinedReport_eq (h : parse source uri = .ok c) {settings : CheckSettings}
    (hstrict : settings.strict = true)
    (ha : Accounts (scopeBlock [] c.body) c.walk c.events used entered) {u : Name × Target}
    (hu : u ∈ (scopeBlock [] c.body).uses) :
    CheckEnv.undefinedReport ⟨settings, c.bindings, c.unsettled⟩ u.1 = c.undefined? u := by
  obtain ⟨b, hb, hname, htabled⟩ := parse_tabled h hu
  obtain ⟨n, t⟩ := u
  cases t with
  | global x =>
    obtain ⟨hkind, rfl⟩ := htabled
    have hwrites : b.writes = 0 ↔ c.defines b.name = false := by
      rw [← Bool.not_eq_true, defines_iff h ha hu, (parse_counts h hb).2, timesOf_eq_zero]
      simp
    simp [CheckEnv.undefinedReport, hb, Chunk.undefined?, Binding.isGlobal, hkind, hstrict, hwrites,
      hname]
  | «local» d =>
    have hdeclared : d ∈ (scopeBlock [] c.body).declared :=
      ((scopeBlock_foreseen [] c.body).meant hu rfl).resolve_left List.not_mem_nil
    obtain ⟨x, hx, rfl⟩ := List.mem_map.mp hdeclared
    have hkind : b.kind ≠ .global := htabled.1 ▸ ha.kinds x hx
    simp [CheckEnv.undefinedReport, hb, Chunk.undefined?, Binding.isGlobal, hkind]

/-- What is reported on the names that are read is what should be on all names. -/
theorem undefined_perm (h : parse source uri = .ok c) {settings : CheckSettings}
    (hstrict : settings.strict = true)
    (ha : Accounts (scopeBlock [] c.body) c.walk c.events used entered) :
    (readsIn c.events).filterMap (CheckEnv.undefinedReport ⟨settings, c.bindings, c.unsettled⟩)
      ~ (scopeBlock [] c.body).uses.filterMap c.undefined? := by
  obtain ⟨env, henv⟩ : ∃ env : CheckEnv, env = ⟨settings, c.bindings, c.unsettled⟩ := ⟨_, rfl⟩
  rw [← henv]
  -- what is stored to is defined
  have hstored : (targetsIn c.events).filterMap env.undefinedReport = [] := by
    refine List.filterMap_eq_nil_iff.mpr fun n hn => ?_
    obtain ⟨t, hu⟩ := ha.meant (List.mem_append_right _ hn)
    rw [henv, undefinedReport_eq h hstrict ha hu]
    cases t with
    | global x =>
      have hdefined : c.defines x = true := (defines_iff h ha hu).mpr ⟨n, hn, rfl⟩
      simp [Chunk.undefined?, hdefined]
    | «local» d => rfl
  have hentered : (entered.map fun x => (x.1, Target.local x.2.1)).filterMap c.undefined? = [] := by
    refine List.filterMap_eq_nil_iff.mpr fun u hu => ?_
    obtain ⟨x, -, rfl⟩ := List.mem_map.mp hu
    rfl
  have hused : used.filterMap c.undefined? = (used.map (·.1)).filterMap env.undefinedReport := by
    rw [List.filterMap_map]
    refine List.filterMap_congr fun u hu => ?_
    rw [henv]
    exact (undefinedReport_eq h hstrict ha (ha.uses.mem_iff.mpr (List.mem_append_left _ hu))).symm
  have hseen := ha.seen.filterMap env.undefinedReport
  rw [← hused, List.filterMap_append, hstored, List.append_nil] at hseen
  have huses := ha.uses.filterMap c.undefined?
  rw [List.filterMap_append, hentered, List.append_nil] at huses
  exact (huses.trans hseen).symm

end

/-- **The reports on names are exact.**  With `unused` on, there is one report of that kind for each
local or local function that is never read, and none with it off; one of the kind `mask` for each local,
local function or written parameter that hides what is visible; and in strict mode one of the kind
`undefined` for each name that means a global which is no builtin and is stored to nowhere, and none
otherwise. -/
theorem check_names (h : parse source uri = .ok c) (settings : CheckSettings) :
    let pass := scopeBlock [] c.body
    let ms := (check settings c).messages
    reportsOf "unused" ms ~ (if settings.unused then pass.decls.filterMap c.unused? else []) ∧
    reportsOf "mask" ms ~ pass.decls.filterMap masked? ∧
    reportsOf "undefined" ms ~ (if settings.strict then pass.uses.filterMap c.undefined? else []) := by
  intro pass ms
  obtain ⟨used, entered, ha⟩ := c.told
  obtain ⟨hunused, hmask, hundefined⟩ := reportsOf_check settings c
  refine ⟨hunused.trans ?_, hmask.trans ?_, hundefined.trans ?_⟩
  · split
    · refine ha.filterMap_perm (fun x hx => ?_) (fun x hx => ?_) fun x hx _ =>
        unusedReport_eq h settings ha hx
      · simp [Chunk.unused?, hx]
      · simp [Chunk.unused?, hx]
    · exact .rfl
  · refine ha.filterMap_perm (fun x hx => ?_) (fun x hx => ?_) fun x hx hk =>
      shadowing_eq h settings ha hx hk
    · simp [masked?, hx]
    · simp [masked?, hx]
  · split
    · next hstrict => exact undefined_perm h hstrict ha
    · next hstrict =>
      rw [List.filterMap_eq_nil_iff.mpr]
      intro n _
      simp [CheckEnv.undefinedReport, hstrict]

end

/-- In `local x = 1 x = 2 local function f(x) return x + y end` the local `x` is only stored to, `f` is
not used at all, the parameter hides the local, and nothing defines `y`. -/
theorem check_names_parameter :
    ∃ c, parse (text "local x = 1 x = 2 local function f(x) return x + y end") [] = .ok c ∧
      reportsOf "unused" (check ⟨true, false, true⟩ c).messages
        ~ [⟨⟨1, 7⟩, 1, .unused false (text "x")⟩, ⟨⟨1, 34⟩, 1, .unused true (text "f")⟩] ∧
      reportsOf "mask" (check ⟨true, false, true⟩ c).messages
        ~ [⟨⟨1, 36⟩, 1, .shadows (text "x") (some 1)⟩] ∧
      reportsOf "undefined" (check ⟨true, false, true⟩ c).messages
        ~ [⟨⟨1, 50⟩, 1, .undefined (text "y")⟩] := by
  have hrun : (parse (text "local x = 1 x = 2 local function f(x) return x + y end") []).toOption.map
      (fun c => ((scopeBlock [] c.body).decls.filterMap c.unused?,
        (scopeBlock [] c.body).decls.filterMap masked?,
        (scopeBlock [] c.body).uses.filterMap c.undefined?))
      = some ([⟨⟨1, 7⟩, 1, .unused false (text "x")⟩, ⟨⟨1, 34⟩, 1, .unused true (text "f")⟩],
        [⟨⟨1, 36⟩, 1, .shadows (text "x") (some 1)⟩], [⟨⟨1, 50⟩, 1, .undefined (text "y")⟩]) := by
    decide +kernel
  cases h : parse (text "local x = 1 x = 2 local function f(x) return x + y end") [] with
  | error e =>
    rw [h] at hrun
    cases hrun
  | ok c =>
    obtain ⟨hunused, hmask, hundefined⟩ := check_names h ⟨true, false, true⟩
    rw [h] at hrun
    simp only [Except.toOption, Option.map_some, Option.some.injEq, Prod.mk.injEq] at hrun
    obtain ⟨hunused', hmask', hundefined'⟩ := hrun
    rw [hunused'] at hunused
    rw [hmask'] at hmask
    rw [hundefined'] at hundefined
    exact ⟨c, rfl, hunused, hmask, hundefined⟩

end LuaServer.Lua
