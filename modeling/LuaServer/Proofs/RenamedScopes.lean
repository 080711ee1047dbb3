/-
# Variables under a new name

Some of the bindings of a tree get a new name, which no binding has.  Going through the renamed tree
(`Proofs/Binding.lean`) then finds the same bindings as going through the tree itself: a name that is
looked up meets the same entries, because two entries with different names before have different names
after.

`Carries` says that a step of the one tree goes with a step of the other.

Main result: `bindBlock_carries`.
-/
import LuaServer.Proofs.Entries
import LuaServer.Proofs.Respelling

namespace LuaServer.Lua

/-! ## 1. Entries under a new name -/

/-- Bindings of one name that may be called `new`: each was written down, and no binding of the table
has that name already. -/
structure Choice (final : List Binding) (chosen : BindingId → Bool) (old new : Text) : Prop where
  name : ∀ {id : Nat} {b : Binding}, final[id]? = some b → chosen id = true → b.name = old
  written : ∀ {id : Nat} {b : Binding}, final[id]? = some b → chosen id = true → b.declaration ≠ none
  fresh : ∀ {id : Nat} {b : Binding}, final[id]? = some b → b.name ≠ new

section
variable {final : List Binding} {chosen : BindingId → Bool} {old new : Text}

/-- What a binding is called, which was called `x` before. -/
def title (chosen : BindingId → Bool) (new : Text) (id : BindingId) (x : Text) : Text :=
  if chosen id then new else x

/-- An entry among the visible locals, or among the globals, under its new name. -/
def retitle (chosen : BindingId → Bool) (new : Text) (p : Text × BindingId) : Text × BindingId :=
  (title chosen new p.2 p.1, p.2)

/-- Entries with the same name after have the same name before. -/
theorem Choice.title_inj (hc : Choice final chosen old new) {p q : Text × BindingId}
    (hp : Named final p) (hq : Named final q)
    (h : title chosen new p.2 p.1 = title chosen new q.2 q.1) : p.1 = q.1 := by
  obtain ⟨b, hb, hbname⟩ := hp
  obtain ⟨d, hd, hdname⟩ := hq
  rw [title, title] at h
  split at h
  · next hp =>
    split at h
    · next hq => rw [← hbname, ← hdname, hc.name hb hp, hc.name hd hq]
    · exact absurd (hdname.trans h.symm) (hc.fresh hd)
  · split at h
    · exact absurd (hbname.trans h) (hc.fresh hb)
    · exact h

/-- The first entry of a name is found under its new name, and where there is none before there is
none after. -/
theorem Choice.find_retitle (hc : Choice final chosen old new) {l : List (Text × BindingId)}
    (hl : ∀ p ∈ l, Named final p) {x : Text} {id : BindingId} (hx : Named final (x, id))
    (hid : ∀ p, l.find? (fun q => q.1 = x) = some p → p.2 = id) :
    (l.map (retitle chosen new)).find? (fun q => q.1 = title chosen new id x)
      = (l.find? fun q => q.1 = x).map (retitle chosen new) := by
  induction l with
  | nil => rfl
  | cons p l ih =>
    by_cases hp : p.1 = x
    · have hfound := hid p (by simp [hp])
      subst hfound
      simp [retitle, hp]
    · have hne : title chosen new p.2 p.1 ≠ title chosen new id x :=
        fun h => hp (hc.title_inj (hl p List.mem_cons_self) hx h)
      have ih := ih (fun q hq => hl q (List.mem_cons_of_mem p hq)) (by simpa [hp] using hid)
      simpa [retitle, hp, hne] using ih

/-- The tree under the new name. -/
def retitling (chosen : BindingId → Bool) (new : Text) (move : Pos → Pos) : Respelling :=
  { move, name := fun n => title chosen new n.binding n.name }

/-- Two bindings that differ in name, place and what they hide only. -/
def Resembles (chosen : BindingId → Bool) (new : Text) (id : BindingId) (b b' : Binding) : Prop :=
  b' = { b with
    name := title chosen new id b.name
    declaration := b'.declaration
    shadows := b'.shadows }

/-- A binding under a new name has its scope. -/
theorem Resembles.scope {id : BindingId} {b b' : Binding} (h : Resembles chosen new id b b') :
    b'.scope = b.scope := by
  rw [Resembles] at h
  have hscope := congrArg Binding.scope h
  exact hscope

/-- It also has its kind. -/
theorem Resembles.kind {id : BindingId} {b b' : Binding} (h : Resembles chosen new id b b') :
    b'.kind = b.kind := by
  rw [Resembles] at h
  have hkind := congrArg Binding.kind h
  exact hkind

/-- **Variables under a new name.**  The entries have their new names and the bindings resemble one
another. -/
structure Renamed (final : List Binding) (chosen : BindingId → Bool) (new : Text) (σ σ' : Scopes) :
    Prop where
  active : σ'.active = σ.active.map (retitle chosen new)
  globals : σ'.globals = σ.globals.map (retitle chosen new)
  opened : σ'.opened = σ.opened
  size : σ'.bindings.size = σ.bindings.size
  binding : ∀ {id : Nat} {b : Binding}, σ.bindings[id]? = some b →
    ∃ b', σ'.bindings[id]? = some b' ∧ Resembles chosen new id b b'
  locals_named : ∀ p ∈ σ.active, Named final p
  globals_named : ∀ p ∈ σ.globals, Named final p

namespace Renamed

variable {σ τ σ' τ' : Scopes}

/-- Before anything is read there is nothing to rename. -/
theorem initial : Renamed final chosen new {} {} where
  active := rfl
  globals := rfl
  opened := rfl
  size := rfl
  binding h := by simp at h
  locals_named := by simp
  globals_named := by simp

/-- The scopes are numbered alike. -/
theorem newScope (h : Renamed final chosen new σ σ') :
    σ'.newScope.1 = σ.newScope.1 ∧ Renamed final chosen new σ.newScope.2 σ'.newScope.2 :=
  ⟨congrArg (· + 1) h.opened, { h with opened := congrArg (· + 1) h.opened }⟩

/-- What is hidden in the one tree is hidden in the other. -/
theorem hide (h : Renamed final chosen new σ σ') (h' : Renamed final chosen new τ τ') :
    Renamed final chosen new (σ.hide τ) (σ'.hide τ') :=
  { h' with active := h.active, locals_named := h.locals_named }

/-- Counting a use of a binding. -/
theorem modify (h : Renamed final chosen new σ σ') (id : BindingId) {f : Binding → Binding}
    (hf : ∀ {b b' : Binding} {i : BindingId}, Resembles chosen new i b b' →
      Resembles chosen new i (f b) (f b')) :
    Renamed final chosen new (σ.modify id f) (σ'.modify id f) := by
  refine { h with size := ?_, binding := ?_ }
  · simpa [Scopes.modify] using h.size
  · intro i b hb
    simp only [Scopes.modify, Array.getElem?_modify] at hb ⊢
    split at hb
    · next hi =>
      obtain ⟨c, hc, rfl⟩ := Option.map_eq_some_iff.mp hb
      obtain ⟨c', hc', hres⟩ := h.binding hc
      exact ⟨f c', by simp [hi, hc'], hf hres⟩
    · next hi =>
      obtain ⟨b', hb', hres⟩ := h.binding hb
      exact ⟨b', by simp [hi, hb'], hres⟩

/-- A new binding takes the same number on both sides. -/
theorem add (h : Renamed final chosen new σ σ') {b b' : Binding}
    (hb : Resembles chosen new σ.bindings.size b b') :
    (σ'.add b').1 = (σ.add b).1 ∧ Renamed final chosen new (σ.add b).2 (σ'.add b').2 := by
  refine ⟨h.size, { h with size := ?_, binding := ?_ }⟩
  · simp [Scopes.add, h.size]
  · intro i c hc
    simp only [Scopes.add, Array.getElem?_push] at hc ⊢
    rw [h.size]
    split at hc
    · next hi =>
      cases hc
      subst hi
      exact ⟨b', by simp, hb⟩
    · next hi =>
      obtain ⟨c', hc', hres⟩ := h.binding hc
      exact ⟨c', by simp [hi, hc'], hres⟩

/-- A binding that is added stands in the final table. -/
theorem named_add {b : Binding} (h : (σ.add b).2.table <+: final) :
    Named final (b.name, (σ.add b).1) := by
  obtain ⟨rest, hrest⟩ := h
  refine ⟨b.core, ?_, rfl⟩
  rw [← hrest, Scopes.table_add, Scopes.add_fst]
  simp

/-- A read is counted for both. -/
theorem count_reads {b b' : Binding} {id : BindingId} (h : Resembles chosen new id b b') :
    Resembles chosen new id { b with reads := b.reads + 1 } { b' with reads := b'.reads + 1 } := by
  rw [Resembles] at h ⊢
  rw [h]

/-- A read that becomes a store becomes one for both. -/
theorem count_writes {b b' : Binding} {id : BindingId} (h : Resembles chosen new id b b') :
    Resembles chosen new id { b with reads := b.reads - 1, writes := b.writes + 1 }
      { b' with reads := b'.reads - 1, writes := b'.writes + 1 } := by
  rw [Resembles] at h ⊢
  rw [h]

/-- The visible local of a name. -/
theorem visible? (hc : Choice final chosen old new) (h : Renamed final chosen new σ σ') {x : Text}
    {id : BindingId} (hx : Named final (x, id)) (hid : ∀ i, σ.visible? x = some i → i = id) :
    σ'.visible? (title chosen new id x) = σ.visible? x := by
  have hfind := hc.find_retitle h.locals_named hx fun p hp => hid p.2 (by simp [Scopes.visible?, hp])
  rw [Scopes.visible?, Scopes.visible?, h.active, hfind, Option.map_map]
  rfl

/-- A global, which may be new, is the same binding on both sides. -/
theorem global (hc : Choice final chosen old new) (h : Renamed final chosen new σ σ') {x : Ident}
    {y : Ident} (hy : y.name = title chosen new (σ.global x).1 x.name)
    (hfinal : (σ.global x).2.table <+: final) :
    Named final (x.name, (σ.global x).1) ∧ (σ'.global y).1 = (σ.global x).1 ∧
      Renamed final chosen new (σ.global x).2 (σ'.global y).2 := by
  cases hg : σ.globals.find? (fun b => b.1 = x.name) with
  | some p =>
    have hglobal : σ.global x = (p.2, σ) := by simp [Scopes.global, hg]
    rw [hglobal] at hy ⊢
    have hname : p.1 = x.name := by simpa using List.find?_some hg
    have hnamed : Named final (x.name, p.2) := by
      rw [← hname]
      exact h.globals_named p (List.mem_of_find?_eq_some hg)
    have hfind := hc.find_retitle h.globals_named hnamed fun q hq =>
      congrArg Prod.snd (Option.some.inj (hq.symm.trans hg))
    rw [← h.globals, hg, ← hy] at hfind
    have hglobal' : σ'.global y = (p.2, σ') := by simp [Scopes.global, hfind, retitle]
    rw [hglobal']
    exact ⟨hnamed, rfl, h⟩
  | none =>
    obtain ⟨b, hb⟩ : ∃ b : Binding, b = ⟨x.name, globalScope, .global, some x.pos, none, none, 0, 0⟩ :=
      ⟨_, rfl⟩
    have hglobal : σ.global x
        = ((σ.add b).1, { (σ.add b).2 with globals := (x.name, (σ.add b).1) :: σ.globals }) := by
      subst hb
      simp only [Scopes.global, hg]
      rfl
    rw [hglobal] at hy hfinal ⊢
    have hnamed : Named final (x.name, (σ.add b).1) := by
      have hnamed := named_add (σ := σ) hfinal
      rwa [hb] at hnamed ⊢
    have hfind := hc.find_retitle h.globals_named hnamed (by simp [hg])
    rw [← h.globals, hg, ← hy] at hfind
    obtain ⟨b', hb'⟩ : ∃ b : Binding, b = ⟨y.name, globalScope, .global, some y.pos, none, none, 0, 0⟩ :=
      ⟨_, rfl⟩
    have hglobal' : σ'.global y
        = ((σ'.add b').1, { (σ'.add b').2 with globals := (y.name, (σ'.add b').1) :: σ'.globals }) := by
      subst hb'
      simp only [Scopes.global, hfind]
      rfl
    have hres : Resembles chosen new σ.bindings.size b b' := by
      subst hb hb'
      rw [Resembles, hy]
      rfl
    obtain ⟨hid, hadd⟩ := h.add hres
    rw [hglobal']
    refine ⟨hnamed, hid, { hadd with globals := ?_, globals_named := ?_ }⟩
    · rw [List.map_cons, ← h.globals, hid, hy]
      rfl
    · intro p hp
      rcases List.mem_cons.mp hp with rfl | hp
      · exact hnamed
      · exact h.globals_named p hp

/-- A name that is used denotes the same binding on both sides. -/
theorem useName (hc : Choice final chosen old new) (h : Renamed final chosen new σ σ') {n : Name}
    (hn : σ.useName n = some τ) (hfinal : τ.table <+: final) (move : Pos → Pos) :
    ∃ τ', σ'.useName ((retitling chosen new move).ident n) = some τ' ∧
      Renamed final chosen new τ τ' := by
  rcases Scopes.useName_iff.mp hn with ⟨hv, rfl⟩ | ⟨hv, hid, rfl⟩
  · have hnamed : Named final (n.name, n.binding) := by
      obtain ⟨p, hp, hpid⟩ := Option.map_eq_some_iff.mp hv
      have hpname : p.1 = n.name := by simpa using List.find?_some hp
      rw [← hpname, ← hpid]
      exact h.locals_named p (List.mem_of_find?_eq_some hp)
    have hv' := h.visible? hc hnamed fun i hi => Option.some.inj (hi.symm.trans hv)
    rw [hv] at hv'
    exact ⟨_, Scopes.useName_iff.mpr (.inl ⟨hv', rfl⟩), h.modify n.binding count_reads⟩
  · have hcount : ∀ b : Binding, ({ b with reads := b.reads + 1 } : Binding).core = b.core :=
      fun _ => rfl
    rw [Scopes.table_modify hcount] at hfinal
    have hy : ((retitling chosen new move).ident n).ident.name
        = title chosen new (σ.global n.ident).1 n.ident.name := by
      rw [hid]
      rfl
    obtain ⟨hnamed, hglobal, hrenamed⟩ := h.global hc hy hfinal
    have hv' := h.visible? hc hnamed (by simp [Name.ident, hv])
    rw [← hy, show n.ident.name = n.name from rfl, hv] at hv'
    exact ⟨_, Scopes.useName_iff.mpr (.inr ⟨hv', hglobal.trans hid, rfl⟩),
      hrenamed.modify n.binding count_reads⟩

/-- A constant is a constant on both sides. -/
theorem attrib (h : Renamed final chosen new σ σ') (id : Nat) :
    (σ'.bindings[id]?).bind (·.attrib) = (σ.bindings[id]?).bind (·.attrib) := by
  cases hb : σ.bindings[id]? with
  | none =>
    have hsize := Array.getElem?_eq_none_iff.mp hb
    rw [Array.getElem?_eq_none_iff.mpr (h.size ▸ hsize)]
  | some b =>
    obtain ⟨b', hb', hres⟩ := h.binding hb
    rw [hb', hres]
    rfl

/-- A store goes to the same binding on both sides. -/
theorem write? (h : Renamed final chosen new σ σ') {n : Name} (hn : σ.write? n = some τ)
    (move : Pos → Pos) :
    ∃ τ', σ'.write? ((retitling chosen new move).ident n) = some τ' ∧
      Renamed final chosen new τ τ' := by
  obtain ⟨hattrib, rfl⟩ := Scopes.write?_iff.mp hn
  have hattrib' := (h.attrib n.binding).trans hattrib
  exact ⟨_, Scopes.write?_iff.mpr ⟨hattrib', rfl⟩, h.modify n.binding count_writes⟩

/-- A store that is allowed is allowed under the new name, since attributes stay. -/
theorem writeTargets (move : Pos → Pos) : ∀ {ts : List Expr} {σ τ σ' : Scopes},
    Renamed final chosen new σ σ' → σ.writeTargets ts = some τ →
      ∃ τ', σ'.writeTargets (respellExprs (retitling chosen new move) ts) = some τ' ∧
        Renamed final chosen new τ τ'
  | [], σ, τ, σ', h, hts => by
    cases hts
    exact ⟨σ', rfl, h⟩
  | .name n :: ts, σ, τ, σ', h, hts => by
    obtain ⟨ρ, hn, hts⟩ := Option.bind_eq_some_iff.mp hts
    obtain ⟨ρ', hn', h⟩ := h.write? hn move
    obtain ⟨τ', hts', h⟩ := writeTargets move h hts
    exact ⟨τ', Option.bind_eq_some_iff.mpr ⟨ρ', hn', hts'⟩, h⟩
  | .index _ _ _ :: ts, σ, τ, σ', h, hts => @writeTargets move ts _ _ _ h hts
  | .nil _ :: _, _, _, _, _, hts | .boolean _ _ :: _, _, _, _, _, hts
  | .number _ _ _ :: _, _, _, _, _, hts | .string _ _ :: _, _, _, _, _, hts
  | .vararg _ :: _, _, _, _, _, hts | .function _ _ :: _, _, _, _, _, hts
  | .table _ _ :: _, _, _, _, _, hts | .binary _ _ _ _ :: _, _, _, _, _, hts
  | .unary _ _ _ :: _, _, _, _, _, hts | .paren _ _ :: _, _, _, _, _, hts
  | .call _ _ _ :: _, _, _, _, _, hts | .methodCall _ _ _ _ :: _, _, _, _, _, hts => by cases hts

/-- A declaration gets the same number on both sides. -/
theorem declare (h : Renamed final chosen new σ σ') {n : Name} {kind : BindingKind} {scope : Nat}
    {a : Option Attrib} (hn : (σ.declare n.ident kind scope a).1 = n)
    (hfinal : (σ.declare n.ident kind scope a).2.table <+: final) (move : Pos → Pos) :
    Named final (n.name, n.binding) ∧
      (σ'.declare ((retitling chosen new move).ident n).ident kind scope a).1
        = (retitling chosen new move).ident n ∧
      Renamed final chosen new (σ.declare n.ident kind scope a).2
        (σ'.declare ((retitling chosen new move).ident n).ident kind scope a).2 := by
  have hid : σ.bindings.size = n.binding := congrArg Name.binding hn
  have hnamed : Named final (n.name, σ.bindings.size) := named_add (σ := σ) hfinal
  rw [hid] at hnamed
  have hres : Resembles chosen new σ.bindings.size
      ⟨n.name, scope, kind, some n.pos, a, σ.visible? n.name, 0, 0⟩
      ⟨title chosen new n.binding n.name, scope, kind, some (move n.pos), a,
        σ'.visible? (title chosen new n.binding n.name), 0, 0⟩ := by
    rw [hid]
    rfl
  obtain ⟨hid', hadd⟩ := h.add hres
  refine ⟨hnamed, ?_, hadd⟩
  have hsize : σ'.bindings.size = n.binding := hid'.trans hid
  rw [Scopes.declare, Respelling.ident, ← hsize]
  rfl

/-- A declaration hides the same binding under the new name. -/
theorem declareNames (move : Pos → Pos) {kind : BindingKind} {scope : Nat} :
    ∀ {xs : List (Name × Option Attrib)} {σ τ σ' : Scopes}, Renamed final chosen new σ σ' →
      σ.declareNames kind scope xs = some τ → τ.table <+: final →
      (∀ n ∈ xs.map (·.1), Named final (n.name, n.binding)) ∧
      ∃ τ', σ'.declareNames kind scope
          (xs.map fun x => ((retitling chosen new move).ident x.1, x.2)) = some τ' ∧
        Renamed final chosen new τ τ'
  | [], σ, τ, σ', h, hxs, _ => by
    cases hxs
    exact ⟨by simp, σ', rfl, h⟩
  | (n, a) :: xs, σ, τ, σ', h, hxs, hfinal => by
    rw [Scopes.declareNames] at hxs
    split at hxs
    case isFalse => cases hxs
    case isTrue hn =>
      have hgrow := (Finds.declareNames kind scope xs _ τ hxs).grows
      obtain ⟨hnamed, hn', h⟩ := h.declare hn (hgrow.trans hfinal) move
      obtain ⟨hrest, τ', hxs', h⟩ := declareNames move h hxs hfinal
      refine ⟨?_, τ', ?_, h⟩
      · rw [List.map_cons, List.forall_mem_cons]
        exact ⟨hnamed, hrest⟩
      · rw [List.map_cons, Scopes.declareNames, if_pos hn']
        exact hxs'

/-- Names become visible. -/
theorem activate (h : Renamed final chosen new σ σ') {ns : List Name}
    (hns : ∀ n ∈ ns, Named final (n.name, n.binding)) (move : Pos → Pos) :
    Renamed final chosen new (σ.activate ns)
      (σ'.activate (ns.map (retitling chosen new move).ident)) := by
  refine { h with active := ?_, locals_named := ?_ }
  · simp only [Scopes.activate, h.active, List.map_append, ← List.map_reverse, List.map_map]
    rfl
  · intro p hp
    rcases List.mem_append.mp hp with hp | hp
    · obtain ⟨n, hn, rfl⟩ := List.mem_map.mp hp
      exact hns n (List.mem_reverse.mp hn)
    · exact h.locals_named p hp

/-- The further parameter of a method keeps its name. -/
theorem declareSelf (hc : Choice final chosen old new) (h : Renamed final chosen new σ σ')
    (isMethod : Bool) (scope : Nat) (hfinal : (σ.declareSelf isMethod scope).2.table <+: final) :
    (∀ id ∈ (σ.declareSelf isMethod scope).1,
      Named final (Scopes.selfName, id) ∧ chosen id = false) ∧
    (σ'.declareSelf isMethod scope).1 = (σ.declareSelf isMethod scope).1 ∧
    Renamed final chosen new (σ.declareSelf isMethod scope).2 (σ'.declareSelf isMethod scope).2 := by
  cases isMethod with
  | false => exact ⟨by simp [Scopes.declareSelf], rfl, h⟩
  | true =>
    obtain ⟨b, hb⟩ : ∃ b : Binding, b = ⟨Scopes.selfName, scope, .param, none, none,
      σ.visible? Scopes.selfName, 0, 0⟩ := ⟨_, rfl⟩
    have hself : σ.declareSelf true scope = (some (σ.add b).1, (σ.add b).2) := by
      rw [hb]
      rfl
    rw [hself] at hfinal ⊢
    have hnamed := named_add (σ := σ) hfinal
    have hkept : chosen (σ.add b).1 = false := by
      obtain ⟨rest, hrest⟩ := hfinal
      have hrow : final[(σ.add b).1]? = some b.core := by
        rw [← hrest, Scopes.table_add, Scopes.add_fst]
        simp
      have hwritten := mt (hc.written hrow) (not_not_intro (congrArg Binding.declaration hb))
      exact Bool.eq_false_iff.mpr hwritten
    have hres : Resembles chosen new σ.bindings.size b ⟨Scopes.selfName, scope, .param, none, none,
        σ'.visible? Scopes.selfName, 0, 0⟩ := by
      have hkept : chosen σ.bindings.size = false := hkept
      rw [Resembles, title, hkept, hb]
      rfl
    obtain ⟨hid, hadd⟩ := h.add hres
    refine ⟨?_, congrArg some hid, hadd⟩
    rintro id ⟨⟩
    rw [hb] at hnamed
    exact ⟨hb ▸ hnamed, hkept⟩

/-- The implicit parameter keeps its name, which is not chosen. -/
theorem activateSelf (h : Renamed final chosen new σ σ') {self : Option BindingId}
    (hself : ∀ id ∈ self, Named final (Scopes.selfName, id) ∧ chosen id = false) :
    Renamed final chosen new (σ.activateSelf self) (σ'.activateSelf self) := by
  cases self with
  | none => exact h
  | some id =>
    obtain ⟨hnamed, hkept⟩ := hself id rfl
    refine { h with active := ?_, locals_named := ?_ }
    · simp [Scopes.activateSelf, h.active, retitle, title, hkept]
    · intro p hp
      rcases List.mem_cons.mp hp with rfl | hp
      · exact hnamed
      · exact h.locals_named p hp

end Renamed

end

/-! ## 2. Trees under a new name -/

/-- A step of the one tree goes with a step of the other, as long as the table is a part of the final
one. -/
def Carries (final : List Binding) (chosen : BindingId → Bool) (new : Text)
    (f f' : Scopes → Option Scopes) : Prop :=
  ∀ σ τ σ' : Scopes, Renamed final chosen new σ σ' → f σ = some τ → τ.table <+: final →
    ∃ τ', f' σ' = some τ' ∧ Renamed final chosen new τ τ'

section
variable {final : List Binding} {chosen : BindingId → Bool} {old new : Text}

namespace Carries

variable {f g f' g' : Scopes → Option Scopes}

/-- Nothing is done in either tree. -/
theorem none : Carries final chosen new some some := by
  rintro σ _ σ' h ⟨⟩ -
  exact ⟨σ', rfl, h⟩

/-- One step after another.  The table after the first is a part of the one after the second, and so of
the final one. -/
theorem bind (hf : Carries final chosen new f f') (hg : Carries final chosen new g g')
    {ns : List Name} (hfinds : Finds ns g) :
    Carries final chosen new (fun σ => (f σ).bind g) fun σ => (f' σ).bind g' := by
  intro σ τ σ' h hfg hfinal
  obtain ⟨ρ, h₁, h₂⟩ := Option.bind_eq_some_iff.mp hfg
  obtain ⟨ρ', h₁', h⟩ := hf σ ρ σ' h h₁ ((hfinds ρ τ h₂).grows.trans hfinal)
  obtain ⟨τ', h₂', h⟩ := hg ρ τ ρ' h h₂ hfinal
  exact ⟨τ', Option.bind_eq_some_iff.mpr ⟨ρ', h₁', h₂'⟩, h⟩

theorem hide (hf : Carries final chosen new f f') :
    Carries final chosen new (fun σ => (f σ).map σ.hide) fun σ => (f' σ).map σ.hide := by
  intro σ τ σ' h hhide hfinal
  obtain ⟨ρ, hρ, rfl⟩ := Option.map_eq_some_iff.mp hhide
  obtain ⟨ρ', hρ', h'⟩ := hf σ ρ σ' h hρ hfinal
  exact ⟨σ'.hide ρ', Option.map_eq_some_iff.mpr ⟨ρ', hρ', rfl⟩, h.hide h'⟩

theorem useName (hc : Choice final chosen old new) (move : Pos → Pos) (n : Name) :
    Carries final chosen new (Scopes.useName n)
      (Scopes.useName ((retitling chosen new move).ident n)) :=
  fun _ _ _ h hn hfinal => h.useName hc hn hfinal move

theorem writeTargets (move : Pos → Pos) (ts : List Expr) :
    Carries final chosen new (Scopes.writeTargets ts)
      (Scopes.writeTargets (respellExprs (retitling chosen new move) ts)) :=
  fun _ _ _ h hts _ => h.writeTargets move hts

/-- A step in a new scope. -/
theorem scope {f f' : Nat → Scopes → Option Scopes}
    (hf : ∀ scope, Carries final chosen new (f scope) (f' scope)) :
    Carries final chosen new (fun σ => f σ.newScope.1 σ.newScope.2)
      fun σ => f' σ.newScope.1 σ.newScope.2 := by
  intro σ τ σ' h hστ hfinal
  obtain ⟨hscope, h⟩ := h.newScope
  dsimp only
  rw [hscope]
  exact hf σ.newScope.1 _ τ _ h hστ hfinal

/-- Names that are declared, and are visible during a step only. -/
theorem loop (kind : BindingKind) (scope : Nat) {xs ys : List (Name × Option Attrib)}
    {ns : List Name} (move : Pos → Pos) (hxs : xs.map (·.1) = ns)
    (hys : ys = xs.map fun x => ((retitling chosen new move).ident x.1, x.2))
    (hf : Carries final chosen new f f') {ms : List Name} (hfinds : Finds ms f) :
    Carries final chosen new
      (fun σ => (σ.declareNames kind scope xs).bind fun τ => (f (τ.activate ns)).map τ.hide)
      fun σ => (σ.declareNames kind scope ys).bind fun τ =>
        (f' (τ.activate (ns.map (retitling chosen new move).ident))).map τ.hide := by
  intro σ τ σ' h hdeclare hfinal
  obtain ⟨ρ, h₁, h₂⟩ := Option.bind_eq_some_iff.mp hdeclare
  obtain ⟨ρ₂, hbody, rfl⟩ := Option.map_eq_some_iff.mp h₂
  obtain ⟨hnamed, ρ', h₁', h⟩ := h.declareNames move h₁ ((hfinds _ ρ₂ hbody).grows.trans hfinal)
  rw [hxs] at hnamed
  obtain ⟨ρ₂', hbody', h'⟩ := hf _ ρ₂ _ (h.activate hnamed move) hbody hfinal
  subst hys
  exact ⟨ρ'.hide ρ₂', by simp [h₁', hbody'], h.hide h'⟩

end Carries

/-- Names keep their attributes. -/
theorem withAttribs_respell (r : Respelling) : ∀ (ns : List Name) (as : List (Option Attrib)),
    withAttribs (ns.map r.ident) as = (withAttribs ns as).map fun x => (r.ident x.1, x.2)
  | [], _ => rfl
  | n :: ns, as => by simp [withAttribs, withAttribs_respell r ns]

theorem bare_respell (r : Respelling) (ns : List Name) :
    bare (ns.map r.ident) = (bare ns).map fun x => (r.ident x.1, x.2) := by
  simp [bare, Function.comp_def]

mutual

/-- A name is looked up under its new name, and meets the same binding. -/
theorem bindExpr_carries (hc : Choice final chosen old new) (move : Pos → Pos) : ∀ e : Expr,
    Carries final chosen new (bindExpr e) (bindExpr (respellExpr (retitling chosen new move) e))
  | .name n => Carries.useName hc move n
  | .nil _ | .boolean _ _ | .number _ _ _ | .string _ _ | .vararg _ => Carries.none
  | .function _ f => bindFunc_carries hc move false f
  | .table _ fs => bindFields_carries hc move fs
  | .binary _ _ l r => (bindExpr_carries hc move l).bind (bindExpr_carries hc move r) (bindExpr_finds r)
  | .unary _ _ e => bindExpr_carries hc move e
  | .paren _ e => bindExpr_carries hc move e
  | .index _ o k => (bindExpr_carries hc move o).bind (bindExpr_carries hc move k) (bindExpr_finds k)
  | .call _ f as =>
    (bindExpr_carries hc move f).bind (bindExprs_carries hc move as) (bindExprs_finds as)
  | .methodCall _ o _ as =>
    (bindExpr_carries hc move o).bind (bindExprs_carries hc move as) (bindExprs_finds as)

theorem bindExprs_carries (hc : Choice final chosen old new) (move : Pos → Pos) : ∀ es : List Expr,
    Carries final chosen new (bindExprs es) (bindExprs (respellExprs (retitling chosen new move) es))
  | [] => Carries.none
  | e :: es => (bindExpr_carries hc move e).bind (bindExprs_carries hc move es) (bindExprs_finds es)

theorem bindExpr?_carries (hc : Choice final chosen old new) (move : Pos → Pos) : ∀ e : Option Expr,
    Carries final chosen new (bindExpr? e) (bindExpr? (respellExpr? (retitling chosen new move) e))
  | none => Carries.none
  | some e => bindExpr_carries hc move e

theorem bindField_carries (hc : Choice final chosen old new) (move : Pos → Pos) : ∀ f : TableField,
    Carries final chosen new (bindField f) (bindField (respellField (retitling chosen new move) f))
  | .mk _ k v => (bindExpr?_carries hc move k).bind (bindExpr_carries hc move v) (bindExpr_finds v)

theorem bindFields_carries (hc : Choice final chosen old new) (move : Pos → Pos) :
    ∀ fs : List TableField, Carries final chosen new (bindFields fs)
      (bindFields (respellFields (retitling chosen new move) fs))
  | [] => Carries.none
  | f :: fs => (bindField_carries hc move f).bind (bindFields_carries hc move fs) (bindFields_finds fs)

/-- Parameters are declared under their new names. -/
theorem bindFunc_carries (hc : Choice final chosen old new) (move : Pos → Pos) (isMethod : Bool) :
    ∀ f : FuncBody, Carries final chosen new (bindFunc isMethod f)
      (bindFunc isMethod (respellFunc (retitling chosen new move) f))
  | .mk _ ps _ b => by
    intro σ τ σ' h hfunc hfinal
    rw [bindFunc] at hfunc
    obtain ⟨ρ, hps, hbody⟩ := Option.bind_eq_some_iff.mp hfunc
    obtain ⟨ρ₂, hblock, rfl⟩ := Option.map_eq_some_iff.mp hbody
    have hgrow := (bindBlock_finds b _ ρ₂ hblock).grows.trans hfinal
    have hgrow' := (Finds.declareNames .param σ.newScope.1 (bare ps) _ ρ hps).grows.trans hgrow
    obtain ⟨hscope, h⟩ := h.newScope
    obtain ⟨hself, hid, h⟩ := h.declareSelf hc isMethod σ.newScope.1 hgrow'
    obtain ⟨hnamed, ρ', hps', h⟩ := h.declareNames move hps hgrow
    rw [map_fst_bare] at hnamed
    have hvisible := (h.activateSelf hself).activate hnamed move
    obtain ⟨ρ₂', hblock', h'⟩ := bindBlock_carries hc move b _ ρ₂ _ hvisible hblock hfinal
    refine ⟨ρ'.hide ρ₂', ?_, h.hide h'⟩
    rw [respellFunc, bindFunc, hscope, hid, bare_respell, hps', Option.bind_some, hblock']
    rfl

/-- **Going through a block under the new name goes with going through the block.** -/
theorem bindBlock_carries (hc : Choice final chosen old new) (move : Pos → Pos) : ∀ b : Block,
    Carries final chosen new (bindBlock b) (bindBlock (respellBlock (retitling chosen new move) b))
  | .mk _ ss => (bindStmts_carries hc move ss).hide

theorem bindBlock?_carries (hc : Choice final chosen old new) (move : Pos → Pos) : ∀ b : Option Block,
    Carries final chosen new (bindBlock? b) (bindBlock? (respellBlock? (retitling chosen new move) b))
  | none => Carries.none
  | some b => bindBlock_carries hc move b

theorem bindStmts_carries (hc : Choice final chosen old new) (move : Pos → Pos) : ∀ ss : List Stmt,
    Carries final chosen new (bindStmts ss) (bindStmts (respellStmts (retitling chosen new move) ss))
  | [] => Carries.none
  | s :: ss => (bindStmt_carries hc move s).bind (bindStmts_carries hc move ss) (bindStmts_finds ss)

theorem bindClause_carries (hc : Choice final chosen old new) (move : Pos → Pos) : ∀ c : IfClause,
    Carries final chosen new (bindClause c) (bindClause (respellClause (retitling chosen new move) c))
  | .mk _ c b => (bindExpr_carries hc move c).bind (bindBlock_carries hc move b) (bindBlock_finds b)

theorem bindClauses_carries (hc : Choice final chosen old new) (move : Pos → Pos) :
    ∀ cs : List IfClause, Carries final chosen new (bindClauses cs)
      (bindClauses (respellClauses (retitling chosen new move) cs))
  | [] => Carries.none
  | c :: cs =>
    (bindClause_carries hc move c).bind (bindClauses_carries hc move cs) (bindClauses_finds cs)

/-- A statement declares, uses and stores to the same bindings. -/
theorem bindStmt_carries (hc : Choice final chosen old new) (move : Pos → Pos) : ∀ s : Stmt,
    Carries final chosen new (bindStmt s) (bindStmt (respellStmt (retitling chosen new move) s))
  | .local _ ns as vs => by
    intro σ τ σ' h hlocal hfinal
    obtain ⟨ρ, hvs, hrest⟩ := Option.bind_eq_some_iff.mp hlocal
    obtain ⟨ρ₂, hns, rfl⟩ := Option.map_eq_some_iff.mp hrest
    have hgrow := (Finds.declareNames _ _ _ ρ ρ₂ hns).grows
    obtain ⟨hscope, h⟩ := h.newScope
    obtain ⟨ρ', hvs', h⟩ := bindExprs_carries hc move vs _ ρ _ h hvs (hgrow.trans hfinal)
    obtain ⟨hnamed, ρ₂', hns', h⟩ := h.declareNames move hns hfinal
    rw [map_fst_withAttribs] at hnamed
    refine ⟨_, ?_, h.activate hnamed move⟩
    rw [respellStmt, bindStmt, hscope, hvs', Option.bind_some, withAttribs_respell, hns']
    rfl
  | .assign _ ts vs => by
    have htargets := (Carries.writeTargets move ts).bind (bindExprs_carries hc move vs)
      (bindExprs_finds vs)
    exact (bindExprs_carries hc move ts).bind htargets
      ((Finds.writeTargets ts).bind (bindExprs_finds vs))
  | .call _ e => bindExpr_carries hc move e
  | .do _ b => bindBlock_carries hc move b
  | .while _ c b => (bindExpr_carries hc move c).bind (bindBlock_carries hc move b) (bindBlock_finds b)
  | .repeat _ (.mk _ ss) c =>
    ((bindStmts_carries hc move ss).bind (bindExpr_carries hc move c) (bindExpr_finds c)).hide
  | .if _ cs o =>
    (bindClauses_carries hc move cs).bind (bindBlock?_carries hc move o) (bindBlock?_finds o)
  | .numericFor _ v a b c body =>
    Carries.scope fun scope =>
      have hfinds := Finds.loop .loop scope [v] (bindBlock_finds body)
      have hloop := Carries.loop .loop scope move (map_fst_bare [v]) (bare_respell _ [v])
        (bindBlock_carries hc move body) (bindBlock_finds body)
      have hstep := (bindExpr?_carries hc move c).bind hloop hfinds
      have hlimit := (bindExpr_carries hc move b).bind hstep ((bindExpr?_finds c).bind hfinds)
      (bindExpr_carries hc move a).bind hlimit
        ((bindExpr_finds b).bind ((bindExpr?_finds c).bind hfinds))
  | .genericFor _ ns vs body =>
    Carries.scope fun scope =>
      have hfinds := Finds.loop .loop scope ns (bindBlock_finds body)
      have hloop := Carries.loop .loop scope move (map_fst_bare ns) (bare_respell _ ns)
        (bindBlock_carries hc move body) (bindBlock_finds body)
      (bindExprs_carries hc move vs).bind hloop hfinds
  | .function _ t f m => by
    have htarget := (Carries.writeTargets move [t]).bind (bindFunc_carries hc move m f)
      (bindFunc_finds m f)
    exact (bindExpr_carries hc move t).bind htarget
      ((Finds.writeTargets [t]).bind (bindFunc_finds m f))
  | .localFunction _ n f => by
    intro σ τ σ' h hlocal hfinal
    obtain ⟨ρ, hn, hf⟩ := Option.bind_eq_some_iff.mp hlocal
    have hgrow := (bindFunc_finds false f _ τ hf).grows.trans hfinal
    obtain ⟨hscope, h⟩ := h.newScope
    obtain ⟨hnamed, ρ', hn', h⟩ := h.declareNames move hn hgrow
    rw [map_fst_bare] at hnamed
    obtain ⟨τ', hf', h⟩ :=
      bindFunc_carries hc move false f _ τ _ (h.activate hnamed move) hf hfinal
    refine ⟨τ', ?_, h⟩
    rw [respellStmt, bindStmt, hscope]
    exact Option.bind_eq_some_iff.mpr ⟨ρ', hn', hf'⟩
  | .return _ vs => bindExprs_carries hc move vs
  | .break _ | .goto _ _ | .label _ _ => Carries.none

end

end

end LuaServer.Lua
