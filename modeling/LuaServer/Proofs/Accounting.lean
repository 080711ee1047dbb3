/-
# Reads, stores and constants

The reader counts every name that it takes as a read, and corrects the count where the name turns out to be
a target.  This module says what comes out of it.  In the table of a text that is read, the counts of a
binding are those of its names in the tree: the plain targets are its stores, and the other names, but for
those that declare it, its reads.  No constant has a store.

A text that is derived is refused for a store to a constant only if there is one: the name at the place of
the fault is a plain target, and it means a local that was declared with an attribute.  Such a text has no
tree of its own, so this is said of every tree that can be read from its tokens (`Proofs/Grammar.lean`), of
which there is one.

Main result: `parse_accounts`.
-/
import LuaServer.Proofs.Acceptance
import LuaServer.Proofs.NameReports
import LuaServer.Proofs.Reach

namespace LuaServer.Lua

open scoped List

section
variable {source uri : Text} {c : Chunk}

/-! ## 1. The counts of a tree -/

/-- The names that are used and no targets are those that the checker visits. -/
theorem reads_perm (h : parse source uri = .ok c) :
    (usedIn c.walk).filter (· ∉ c.targets) ~ readsIn c.events := by
  obtain ⟨used, entered, ha⟩ := c.told
  have hreads : (readsIn c.events).filter (· ∉ c.targets) = readsIn c.events := by
    refine List.filter_eq_self.mpr fun n hn => decide_eq_true fun htarget => ?_
    exact (ha.apart h hn).1 (ha.targets.mem_iff.mpr htarget)
  have htargets : (targetsIn c.events).filter (· ∉ c.targets) = [] := by
    refine List.filter_eq_nil_iff.mpr fun n hn hne => ?_
    exact of_decide_eq_true hne (ha.targets.mem_iff.mp hn)
  calc (usedIn c.walk).filter (· ∉ c.targets)
    _ ~ (readsIn c.events ++ targetsIn c.events).filter (· ∉ c.targets) :=
      (ha.shown.symm.trans ha.seen).filter _
    _ = readsIn c.events := by rw [List.filter_append, hreads, htargets, List.append_nil]

/-- The stores of a binding are the plain targets with it, and its reads the other names that are used.
So each of these names is counted once, and no correction met a count of zero. -/
theorem parse_counted (h : parse source uri = .ok c) {id : BindingId} {b : Binding}
    (hb : c.bindings[id]? = some b) :
    b.writes = timesOf id c.targets ∧
      b.reads = timesOf id ((usedIn c.walk).filter (· ∉ c.targets)) ∧
      b.reads + b.writes = timesOf id (usedIn c.walk) := by
  obtain ⟨hreads, hwrites⟩ := parse_counts h hb
  obtain ⟨used, entered, ha⟩ := c.told
  refine ⟨hwrites.trans (timesOf_perm ha.targets id), hreads.trans (timesOf_perm (reads_perm h).symm id), ?_⟩
  rw [hreads, hwrites, ← timesOf_append]
  exact timesOf_perm (ha.seen.symm.trans ha.shown) id

/-- A constant is not stored to. -/
theorem parse_constant (h : parse source uri = .ok c) {id : BindingId} {b : Binding}
    (hb : c.bindings[id]? = some b) (hattrib : b.attrib ≠ none) : b.writes = 0 := by
  rw [(parse_counted h hb).1, timesOf_eq_zero]
  rintro n hn rfl
  exact hattrib (parse_targets_plain h n hn b hb)

end

/-! ## 2. Stores to constants -/

/-- What has an attribute was declared by a `local`. -/
theorem constant_local {b : Block} {n : Name} {d : Decl} (h : (n, .local d) ∈ (scopeBlock [] b).uses)
    (hattrib : d.attrib ≠ none) : d.kind = .local := by
  obtain ⟨used, entered, ha⟩ := scopeBlock_told [] b
  have hdeclared : d ∈ (scopeBlock [] b).declared :=
    ((scopeBlock_foreseen [] b).meant h rfl).resolve_left List.not_mem_nil
  obtain ⟨x, hx, rfl⟩ := List.mem_map.mp hdeclared
  exact ha.constants x hx hattrib

/-- **Reads and stores are counted, and constants are not stored to.**  In the table of a text that is read,
every binding has as many stores as it has plain targets, and as many reads as it has other names that do
not declare; so reads and stores together are its names that do not declare.  With an attribute it has no
stores.  A derived text in which a store to a constant is refused can be read to a tree, and in such a tree
there is one name at the place of the fault: a plain target, which means a local that was declared with an
attribute. -/
theorem parse_accounts (source uri : Text) :
    (∀ c, parse source uri = .ok c → ∀ (id : BindingId) (b : Binding), c.bindings[id]? = some b →
      b.writes = timesOf id c.targets ∧
        b.reads = timesOf id ((usedIn c.walk).filter (· ∉ c.targets)) ∧
        b.reads + b.writes = timesOf id (usedIn c.walk) ∧ (b.attrib ≠ none → b.writes = 0)) ∧
      ∀ ts, tokenize source = .ok ts → (∃ b, Derives (.block b) (beforeEnd ts) (fromEnd ts)) →
        ∀ pos x, parse source uri = .error ⟨pos, .constAssigned x⟩ →
          (∃ b ms, Reads (.block b) ts ms (fromEnd ts)) ∧
            ∀ b ms, Reads (.block b) ts ms (fromEnd ts) →
              ∃ n, n ∈ targetsOf (walkBlock b) ∧ n.pos = pos ∧ n.name = x ∧
                (∀ m ∈ namesIn (walkBlock b), m.pos = pos → m = n) ∧
                ∃ d, (n, .local d) ∈ (scopeBlock [] b).uses ∧ d.kind = .local ∧ d.attrib ≠ none := by
  constructor
  · intro c h id b hb
    obtain ⟨hwrites, hreads, hboth⟩ := parse_counted h hb
    exact ⟨hwrites, hreads, hboth, parse_constant h hb⟩
  · rintro ts hts ⟨b₀, hb₀⟩ pos x h
    have hE := tokenize_ended hts
    have hparse : parse source uri = parseTokens ts uri := by rw [parse, hts]
    refine ⟨hb₀.reads_document hE, fun b ms hreads => ?_⟩
    obtain ⟨c, hok⟩ | ⟨n, ⟨hn, d, hd, hattrib⟩, -, herror⟩ := hreads.refused (kindOf_fromEnd ts) hE uri
    · rw [hparse, hok] at h
      cases h
    · rw [hparse, herror] at h
      obtain ⟨rfl, rfl⟩ : n.pos = pos ∧ n.name = x := by simpa using h
      refine ⟨n, hn, rfl, rfl, fun m hm hpos => ?_, d, hd, constant_local hd hattrib, hattrib⟩
      have hnames : (scopeBlock [] b).uses.map (·.1) = namesIn (walkBlock b) := scopeBlock_names [] b
      have hin : n ∈ namesIn (walkBlock b) := hnames ▸ List.mem_map_of_mem hd
      exact List.inj_on_of_nodup_map (hreads.names_nodup (tokensFrom_iff.mp hts).nodup_pos) hm hin hpos

/-- `local x <const> function x() end` -/
def storeTokens : List Token :=
  [⟨.keyword .local, ⟨1, 1⟩, text "local"⟩, ⟨.name (text "x"), ⟨1, 7⟩, text "x"⟩,
    ⟨.symbol .lt, ⟨1, 9⟩, text "<"⟩, ⟨.name (text "const"), ⟨1, 10⟩, text "const"⟩,
    ⟨.symbol .gt, ⟨1, 15⟩, text ">"⟩, ⟨.keyword .function, ⟨1, 17⟩, text "function"⟩,
    ⟨.name (text "x"), ⟨1, 26⟩, text "x"⟩, ⟨.symbol .parenOpen, ⟨1, 27⟩, text "("⟩,
    ⟨.symbol .parenClose, ⟨1, 28⟩, text ")"⟩, ⟨.keyword .end, ⟨1, 30⟩, text "end"⟩,
    ⟨.eof, ⟨1, 33⟩, []⟩]

/-- A declaration and a function statement. -/
theorem storeTokens_derives :
    ∃ b, Derives (.block b) (beforeEnd storeTokens) (fromEnd storeTokens) := by
  let x : Name := ⟨.start, text "x", 0⟩
  let f : FuncBody := .mk .start [] false (.mk .start [])
  have hlist : LocalList [(x, some .const)] (storeTokens.take 5).tail := .one rfl (.present rfl rfl rfl rfl)
  have hlocal : ∀ rest, Derives (.stmt (.local .start [x] [some .const] [])) (storeTokens.take 5) rest :=
    fun rest => .local rfl hlist .initialNone
  have hfunc : ∀ rest, Derives (.func f) ((storeTokens.take 10).drop 7) rest :=
    fun rest => .func rfl .absent rfl (.block .stmtsEnd) rfl
  have hspells : (⟨.name (text "x"), ⟨1, 26⟩, text "x"⟩ : Token).spells x := rfl
  have hstat : ∀ rest, Derives (.stmt (.function .start (.name x) f false)) ((storeTokens.take 10).drop 5) rest :=
    fun rest => .functionStat (t := ⟨.keyword .function, ⟨1, 17⟩, text "function"⟩) rfl hspells .done
      (hfunc rest)
  exact ⟨.mk .start _, .block (.stmtsCons (hlocal _) (.stmtsCons (hstat _) .stmtsEnd))⟩

/-- The name of the function is refused. -/
theorem storeTokens_refused :
    let source := text "local x <const> function x() end"
    tokenize source = .ok storeTokens ∧ parse source [] = .error ⟨⟨1, 26⟩, .constAssigned (text "x")⟩ := by
  intro source
  have hlex : (tokenize source).toOption = some storeTokens := by decide +kernel
  have hfault : (match parse source [] with | .error e => some e | .ok _ => none)
      = some ⟨⟨1, 26⟩, .constAssigned (text "x")⟩ := by decide +kernel
  constructor
  · cases h : tokenize source with
    | ok ts => rw [h] at hlex; rw [Option.some.inj hlex]
    | error e => rw [h] at hlex; cases hlex
  · cases h : parse source [] with
    | ok c => rw [h] at hfault; cases hfault
    | error e => rw [h] at hfault; rw [Option.some.inj hfault]

/-- A constant that is read, and one to which a function statement stores. -/
theorem parse_accounts_constants :
    (∃ c b, parse (text "local x <const> = 1 return x") [] = .ok c ∧ c.bindings[0]? = some b ∧
      b.reads = timesOf 0 ((usedIn c.walk).filter (· ∉ c.targets)) ∧ b.attrib ≠ none ∧ b.writes = 0) ∧
    (∃ b, Derives (.block b) (beforeEnd storeTokens) (fromEnd storeTokens)) ∧
    parse (text "local x <const> function x() end") [] = .error ⟨⟨1, 26⟩, .constAssigned (text "x")⟩ ∧
    ∃ b ms, Reads (.block b) storeTokens ms (fromEnd storeTokens) ∧
      ∃ n ∈ targetsOf (walkBlock b), n.pos = ⟨1, 26⟩ := by
  constructor
  · have hconst : ((parse (text "local x <const> = 1 return x") []).toOption.bind
      fun c => (c.bindings[0]?).bind (·.attrib)) = some .const := by decide +kernel
    cases h : parse (text "local x <const> = 1 return x") [] with
    | error e =>
      rw [h] at hconst
      cases hconst
    | ok c =>
      rw [h] at hconst
      obtain ⟨b, hb, hattrib⟩ := Option.bind_eq_some_iff.mp (show (c.bindings[0]?).bind _ = _ from hconst)
      obtain ⟨-, hreads, -, hwrites⟩ := (parse_accounts (text "local x <const> = 1 return x") []).1 c h 0 b hb
      have hne : b.attrib ≠ none := by simp [hattrib]
      exact ⟨c, b, rfl, hb, hreads, hne, hwrites hne⟩
  · obtain ⟨htokens, herror⟩ := storeTokens_refused
    obtain ⟨⟨b, ms, hreads⟩, hall⟩ :=
      (parse_accounts (text "local x <const> function x() end") []).2 storeTokens htokens
        storeTokens_derives ⟨1, 26⟩ (text "x") herror
    obtain ⟨n, hn, hpos, -⟩ := hall b ms hreads
    exact ⟨storeTokens_derives, herror, b, ms, hreads, n, hn, hpos⟩

end LuaServer.Lua
