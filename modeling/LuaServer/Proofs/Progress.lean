/-
# Steps with variables in view

What the reader does where the grammar has decided: a step goes through, and the only thing that can
stop it is a store to a constant.  Here a course (`Proofs/Courses.lean`) follows the variables.  Where the
declarations `env` are visible to the pass over the tree (`Proofs/Scoping.lean`), the reader's visible
locals are these, with their attributes (`Shows`), and every attribute that it knows stands in the text.

A `Trial` fixes the text, and to which names a store may be refused.  `T.Goes env` is for the steps
between which the visible declarations are the same, `T.Moves env env'` for those that change them.

Section 1 is the variables, section 2 the courses, section 3 the steps on variables, section 4 the
lists of names.
-/
import LuaServer.Proofs.Courses
import LuaServer.Proofs.Phrases
import LuaServer.Proofs.ReaderComplete
import LuaServer.Proofs.Visits

namespace LuaServer.Lua

/-! ## 1. Variables and their attributes -/

/-- The text has the name `x` with an attribute behind it. -/
def Declares (ts : List Token) (x : Text) : Prop :=
  ∃ (v t w z : Token) (y : Text), [v, t, w, z] <:+: ts ∧ v.kind = .name x ∧
    t.kind = .symbol .lt ∧ w.kind = .name y ∧ (Attrib.ofText? y).isSome ∧ z.kind = .symbol .gt

/-- The attribute of the visible declaration of a name. -/
def Env.attrib? (env : Env) (x : Text) : Option Attrib := (env.lookup? x).bind (·.attrib)

theorem Env.extend_append (env : Env) (ds ds' : List Decl) :
    env.extend (ds ++ ds') = (env.extend ds).extend ds' := by
  simp [Env.extend]

/-- A name with an attribute is a local that was declared with it. -/
theorem Env.target_of_attrib? {env : Env} {x : Text} (h : env.attrib? x ≠ none) :
    ∃ d, env.target x = .local d ∧ d.attrib ≠ none := by
  cases hd : env.lookup? x with
  | none => simp [Env.attrib?, hd] at h
  | some d => exact ⟨d, by simp [Env.target, hd], by simpa [Env.attrib?, hd] using h⟩

namespace Scopes

/-- The name of a binding and its attribute. -/
def record? (σ : Scopes) (id : BindingId) : Option (Text × Option Attrib) :=
  (σ.bindings[id]?).map fun b => (b.name, b.attrib)

/-- The binding of a name has that name, and the attribute `a`. -/
def Knows (σ : Scopes) (n : Name) (a : Option Attrib) : Prop :=
  σ.record? n.binding = some (n.name, a)

/-- Every binding is still there, with its name and its attribute. -/
def Extends (σ τ : Scopes) : Prop := ∀ id e, σ.record? id = some e → τ.record? id = some e

theorem Extends.refl (σ : Scopes) : σ.Extends σ := fun _ _ h => h

theorem Extends.trans {σ τ ρ : Scopes} (h : σ.Extends τ) (h' : τ.Extends ρ) : σ.Extends ρ :=
  fun id e he => h' id e (h id e he)

theorem Knows.extends {σ τ : Scopes} {n : Name} {a : Option Attrib} (h : σ.Knows n a)
    (hext : σ.Extends τ) : τ.Knows n a := hext _ _ h

/-- The visible locals are the declarations of `env`, globals have no attribute, and what has one is
declared with it in the text `all`. -/
structure Shows (all : List Token) (env : Env) (σ : Scopes) : Prop where
  active : List.Forall₂ (fun (d : Decl) b => d.name = b.1 ∧ σ.record? b.2 = some (d.name, d.attrib))
    env σ.active
  globals : ∀ b ∈ σ.globals, σ.record? b.2 = some (b.1, none)
  constant : ∀ id x a, σ.record? id = some (x, some a) → Declares all x

/-- Names with the attributes with which they were declared. -/
def KnowsAll (σ : Scopes) (ns : List Name) (ds : List Decl) : Prop :=
  List.Forall₂ (fun n (d : Decl) => n.name = d.name ∧ σ.Knows n d.attrib) ns ds

section
variable {all : List Token} {env : Env} {σ τ : Scopes}

theorem Shows.initial (all : List Token) : Shows all [] {} :=
  ⟨.nil, by simp, by simp [record?]⟩

theorem KnowsAll.extends {ns : List Name} {ds : List Decl} (h : σ.KnowsAll ns ds)
    (hext : σ.Extends τ) : τ.KnowsAll ns ds :=
  h.imp fun _ _ hn => ⟨hn.1, hn.2.extends hext⟩

theorem record?_add (b : Binding) (σ : Scopes) :
    (σ.add b).2.record? (σ.add b).1 = some (b.name, b.attrib) := by
  simp [record?, add]

theorem extends_add (b : Binding) (σ : Scopes) : σ.Extends (σ.add b).2 := by
  intro id e he
  obtain ⟨c, hc, rfl⟩ := Option.map_eq_some_iff.mp he
  have hlt : id < σ.bindings.size := (Array.getElem?_eq_some_iff.mp hc).1
  simp [record?, add, Array.getElem?_push, Nat.ne_of_lt hlt, hc]

/-- A new binding, whose attribute stands in the text. -/
theorem Shows.add (h : Shows all env σ) {b : Binding} (hb : b.attrib ≠ none → Declares all b.name) :
    Shows all env (σ.add b).2 := by
  have hext := extends_add b σ
  refine ⟨h.active.imp fun _ _ hd => ⟨hd.1, hext _ _ hd.2⟩, fun c hc => hext _ _ (h.globals c hc), ?_⟩
  intro id x a ha
  simp only [record?, Scopes.add, Array.getElem?_push] at ha
  split at ha
  · obtain ⟨rfl, hattrib⟩ := Prod.mk.inj (Option.some.inj ha)
    exact hb (by simp [hattrib])
  · exact h.constant id x a ha

/-- A change that no entry and no visible name shows. -/
theorem Shows.of_record?_eq (h : Shows all env σ) (he : ∀ id, τ.record? id = σ.record? id)
    (hactive : τ.active = σ.active) (hglobals : τ.globals = σ.globals) : Shows all env τ := by
  refine ⟨?_, ?_, fun id x a ha => h.constant id x a (he id ▸ ha)⟩
  · simpa only [hactive, he] using h.active
  · simpa only [hglobals, he] using h.globals

theorem record?_modify {f : Binding → Binding} (hf : ∀ b, (f b).name = b.name ∧ (f b).attrib = b.attrib)
    (id j : BindingId) : (σ.modify id f).record? j = σ.record? j := by
  simp only [record?, modify, Array.getElem?_modify]
  split
  · simp [Function.comp_def, hf]
  · rfl

/-- A global is there, or new. -/
theorem Shows.global (h : Shows all env σ) (x : Ident) : Shows all env (σ.global x).2 ∧
    σ.Extends (σ.global x).2 ∧ (σ.global x).2.record? (σ.global x).1 = some (x.name, none) := by
  rw [Scopes.global]
  split
  · next y id hfind =>
    have hy : y = x.name := by simpa using List.find?_some hfind
    exact ⟨h, .refl σ, hy ▸ h.globals _ (List.mem_of_find?_eq_some hfind)⟩
  · have hext := extends_add ⟨x.name, globalScope, .global, some x.pos, none, none, 0, 0⟩ σ
    have hadd := h.add (b := ⟨x.name, globalScope, .global, some x.pos, none, none, 0, 0⟩) (by simp)
    refine ⟨⟨hadd.active, fun b hb => ?_, hadd.constant⟩, hext, record?_add _ σ⟩
    rcases List.mem_cons.mp hb with rfl | hb
    · exact record?_add _ σ
    · exact hext _ _ (h.globals b hb)

/-- The visible local of a name has the attribute of the visible declaration. -/
theorem Shows.visible? (h : Shows all env σ) (x : Text) :
    (σ.visible? x = none ∧ env.lookup? x = none) ∨
      ∃ id, σ.visible? x = some id ∧ σ.record? id = some (x, env.attrib? x) := by
  have hactive := h.active
  rw [Scopes.visible?, Env.attrib?, Env.lookup?]
  clear h
  generalize σ.active = bs at hactive
  induction hactive with
  | nil => exact .inl ⟨rfl, rfl⟩
  | @cons d b env bs hb _ ih =>
    obtain ⟨hname, hentry⟩ := hb
    by_cases hx : d.name = x
    · refine .inr ⟨b.2, by simp [← hname, hx], ?_⟩
      rw [hentry]
      simp [hx]
    · simpa [← hname, hx] using ih

/-- A name that is used has the attribute of the visible declaration, and none if there is no such
declaration. -/
theorem Shows.reference (h : Shows all env σ) (x : Ident) : Shows all env (σ.reference x).2 ∧
    σ.Extends (σ.reference x).2 ∧ (σ.reference x).2.Knows (σ.reference x).1 (env.attrib? x.name) := by
  have hcount : ∀ b : Binding, ({ b with reads := b.reads + 1 } : Binding).name = b.name ∧
      ({ b with reads := b.reads + 1 } : Binding).attrib = b.attrib := fun _ => ⟨rfl, rfl⟩
  have hmodify := fun (σ : Scopes) => record?_modify (σ := σ) hcount
  obtain ⟨hvisible, hlookup⟩ | ⟨id, hvisible, hentry⟩ := h.visible? x.name
  · obtain ⟨hτ, hext, hentry⟩ := h.global x
    simp only [Scopes.reference, hvisible, Env.attrib?, hlookup]
    refine ⟨hτ.of_record?_eq (hmodify _ _) rfl rfl, fun j e he => ?_, ?_⟩
    · rw [hmodify]
      exact hext j e he
    · rw [Knows, hmodify]
      exact hentry
  · simp only [Scopes.reference, hvisible]
    refine ⟨h.of_record?_eq (hmodify _ _) rfl rfl, fun j e he => ?_, ?_⟩
    · rwa [hmodify]
    · rw [Knows, hmodify]
      exact hentry

/-- One declaration, whose attribute stands in the text. -/
theorem Shows.declare (h : Shows all env σ) {x : Ident} {a : Option Attrib} (kind : BindingKind)
    (scope : Nat) (hx : a ≠ none → Declares all x.name) : Shows all env (σ.declare x kind scope a).2 ∧
      σ.Extends (σ.declare x kind scope a).2 ∧
      (σ.declare x kind scope a).2.Knows (σ.declare x kind scope a).1 a :=
  ⟨h.add hx, extends_add _ σ, record?_add _ σ⟩

/-- Several declarations. -/
theorem Shows.declareAll {kind : BindingKind} {scope : Nat} (list : Pos) :
    ∀ {xs : List (Name × Option Attrib)} {σ : Scopes}, Shows all env σ →
      (∀ x ∈ xs, x.2 ≠ none → Declares all x.1.name) →
      let r := σ.declareAll kind scope (xs.map fun x => (x.1.ident, x.2))
      Shows all env r.2 ∧ σ.Extends r.2 ∧ r.2.KnowsAll r.1 (xs.map (.ofName kind list))
  | [], σ, h, _ => ⟨h, .refl σ, .nil⟩
  | (n, a) :: xs, σ, h, hdeclares => by
    obtain ⟨hfirst, hrest⟩ := List.forall_mem_cons.mp hdeclares
    obtain ⟨hρ, hext, hn⟩ := h.declare kind scope (x := n.ident) hfirst
    obtain ⟨hτ, hext', hns⟩ := declareAll list hρ hrest
    exact ⟨hτ, hext.trans hext', .cons ⟨rfl, hn.extends hext'⟩ hns⟩

/-- Names become visible. -/
theorem Shows.activate (h : Shows all env σ) {ns : List Name} {ds : List Decl}
    (hns : σ.KnowsAll ns ds) : Shows all (env.extend ds) (σ.activate ns) := by
  refine { h with active := ?_ }
  refine List.rel_append ?_ h.active
  rw [List.forall₂_map_right_iff]
  refine List.rel_reverse (hns.flip.imp fun d n hn => ?_)
  exact ⟨hn.1.symm, by rw [← hn.1]; exact hn.2⟩

/-- The further parameter of a method. -/
theorem Shows.declareSelf (h : Shows all env σ) (isMethod : Bool) (scope : Nat) :
    Shows all env (σ.declareSelf isMethod scope).2 ∧
      σ.Extends (σ.declareSelf isMethod scope).2 ∧
      ∀ {τ : Scopes}, (σ.declareSelf isMethod scope).2.Extends τ → Shows all env τ → ∀ list,
        Shows all (env.extend (implicitSelf isMethod list))
          (τ.activateSelf (σ.declareSelf isMethod scope).1) := by
  cases isMethod with
  | false => exact ⟨h, .refl σ, fun _ hτ _ => hτ⟩
  | true =>
    obtain ⟨b, hb⟩ : ∃ b : Binding, b = ⟨selfName, scope, .param, none, none,
      σ.visible? selfName, 0, 0⟩ := ⟨_, rfl⟩
    have hself : σ.declareSelf true scope = (some (σ.add b).1, (σ.add b).2) := by
      subst hb
      rfl
    rw [hself]
    refine ⟨h.add (by simp [hb]), extends_add b σ, fun hext hτ list => ?_⟩
    have hentry := hext _ _ (record?_add b σ)
    subst hb
    exact { hτ with active := .cons ⟨rfl, hentry⟩ hτ.active }

/-- What became visible in a block is hidden after it. -/
theorem Shows.hide (h : Shows all env σ) (hext : σ.Extends τ) {env' : Env} (hτ : Shows all env' τ) :
    Shows all env (σ.hide τ) :=
  ⟨h.active.imp fun _ _ hd => ⟨hd.1, hext _ _ hd.2⟩, hτ.globals, hτ.constant⟩

/-- A store either goes through or meets a declared constant. -/
theorem Shows.write?_cases (h : Shows all env σ) {n : Name} {a : Option Attrib} (hn : σ.Knows n a) :
    (∃ τ, σ.write? n = some τ ∧ Shows all env τ ∧ σ.Extends τ) ∨
      (σ.write? n = none ∧ a ≠ none ∧ Declares all n.name) := by
  have hmodify := fun j => record?_modify (σ := σ) (f := fun b =>
    { b with reads := b.reads - 1, writes := b.writes + 1 }) (fun _ => ⟨rfl, rfl⟩) n.binding j
  have hattrib : (σ.bindings[n.binding]?).bind (·.attrib) = a := by
    obtain ⟨b, hb, hba⟩ := Option.map_eq_some_iff.mp hn
    rw [hb]
    exact congrArg Prod.snd hba
  cases a with
  | some a =>
    refine .inr ⟨Option.eq_none_iff_forall_ne_some.mpr fun τ hτ => ?_, by simp, h.constant _ _ a hn⟩
    rw [(write?_iff.mp hτ).1] at hattrib
    cases hattrib
  | none =>
    refine .inl ⟨_, write?_iff.mpr ⟨hattrib, rfl⟩, h.of_record?_eq hmodify rfl rfl, fun j e he => ?_⟩
    rwa [hmodify]

end

end Scopes

/-! ## 2. Courses -/

/-- A text, and the names in it to which a store may be refused. -/
structure Trial where
  all : List Token
  blames : Name → Prop

namespace Trial

/-- The reader stands before `ts` in the text. -/
structure Before (T : Trial) (ts : List Token) : Prop where
  suffix : ts <:+ T.all
  ended : Ended ts

theorem Before.tail {T : Trial} {t : Token} {ts : List Token} (h : T.Before (t :: ts))
    (ht : t.kind ≠ .eof) : T.Before ts :=
  ⟨(List.suffix_cons t ts).trans h.suffix, h.ended.tail ht⟩

/-- A store is refused: to a blamed name, which the text declares with an attribute. -/
def Refuses (T : Trial) (pos : Pos) (x : Text) : Prop :=
  ∃ n, T.blames n ∧ n.pos = pos ∧ n.name = x ∧ Declares T.all x

/-- The course on which any declarations may be visible. -/
abbrev road (T : Trial) : Course where
  Fits ts _ := T.Before ts
  Later := Scopes.Extends
  Refused := T.Refuses
  ended := Before.ended
  tail := Before.tail
  refl := .refl
  trans := .trans

/-- The course on which the declarations `env` are visible. -/
abbrev course (T : Trial) (env : Env) : Course where
  Fits ts σ := T.Before ts ∧ Scopes.Shows T.all env σ
  Later := Scopes.Extends
  Refused := T.Refuses
  ended h := h.1.ended
  tail h ht := ⟨h.1.tail ht, h.2⟩
  refl := .refl
  trans := .trans

/-- The step `p` goes from `ts` to `next`, and the visible declarations are the same then. -/
abbrev Goes (T : Trial) (env : Env) (σ : Scopes) {α : Type} (p : Parse α) (Q : α → Scopes → Prop)
    (ts next : List Token) : Prop :=
  (T.course env).Goes σ p Q ts next

/-- The step `p` goes from `ts` to `next`, and from the visible declarations `env` to `env'`. -/
def Moves (T : Trial) (env env' : Env) (σ : Scopes) {α : Type} (p : Parse α) (ts next : List Token) :
    Prop :=
  Scopes.Shows T.all env σ → T.road.Goes σ p (fun _ τ => Scopes.Shows T.all env' τ) ts next

variable {T : Trial} {env env' env'' : Env} {σ : Scopes} {α β : Type} {ts mid next : List Token}
  {p : Parse α} {f : α → Parse β} {Q : α → Scopes → Prop}

/-- The visible declarations are the same, and then others. -/
theorem Goes.then (hp : T.Goes env σ p Q ts mid)
    (hf : ∀ a τ, σ.Extends τ → Q a τ → T.Moves env env' τ (f a) mid next) :
    T.Moves env env' σ (p >>= f) ts next := by
  intro hσ
  have hroad : T.road.Goes σ p (fun a τ => Scopes.Shows T.all env τ ∧ Q a τ) ts mid := fun hts =>
    (hp ⟨hts, hσ⟩).imp_left fun ⟨a, τ, hrun, hmid, hext, ha⟩ => ⟨a, τ, hrun, hmid.1, hext, hmid.2, ha⟩
  exact hroad.bind fun a τ hext ha => hf a τ hext ha.2 ha.1

theorem Moves.bind (hp : T.Moves env env' σ p ts mid)
    (hf : ∀ a τ, σ.Extends τ → T.Moves env' env'' τ (f a) mid next) :
    T.Moves env env'' σ (p >>= f) ts next :=
  fun hσ => (hp hσ).bind fun a τ hext hτ => hf a τ hext hτ

theorem Moves.pure {a : α} : T.Moves env env σ (pure a) ts ts := fun hσ => .pure hσ

theorem Moves.done {f : α → β} (hp : T.Moves env env' σ p ts next) :
    T.Moves env env' σ (p >>= fun a => Pure.pure (f a)) ts next :=
  hp.bind fun _ _ _ => .pure

theorem Goes.moves (hp : T.Goes env σ p Q ts next) : T.Moves env env σ p ts next := fun hσ hts =>
  (hp ⟨hts, hσ⟩).imp_left fun ⟨a, τ, hrun, hnext, hext, _⟩ => ⟨a, τ, hrun, hnext.1, hext, hnext.2⟩

/-! ## 3. Steps on variables -/

namespace Goes

theorem newScope : T.Goes env σ (Parse.onScopes (·.newScope)) Unsaid ts ts :=
  Course.Goes.onScopes fun h =>
    ⟨⟨h.1, h.2.of_record?_eq (fun _ => rfl) rfl rfl⟩, fun _ _ he => he, trivial⟩

theorem reference (x : Ident) : T.Goes env σ (Parse.onScopes (·.reference x))
    (fun n τ => n.ident = x ∧ τ.Knows n (env.attrib? x.name)) ts ts :=
  Course.Goes.onScopes fun h =>
    have ⟨hτ, hext, hn⟩ := h.2.reference x
    ⟨⟨h.1, hτ⟩, hext, rfl, hn⟩

theorem declare (x : Ident) (kind : BindingKind) (scope : Nat) :
    T.Goes env σ (Parse.onScopes (·.declare x kind scope none))
      (fun n τ => n.name = x.name ∧ τ.Knows n none) ts ts :=
  Course.Goes.onScopes fun h =>
    have ⟨hτ, hext, hn⟩ := h.2.declare kind scope (x := x) (a := none) (by simp)
    ⟨⟨h.1, hτ⟩, hext, rfl, hn⟩

theorem declareAll {xs : List (Name × Option Attrib)} (kind : BindingKind) (scope : Nat) (list : Pos)
    (h : ∀ x ∈ xs, x.2 ≠ none → Declares T.all x.1.name) :
    T.Goes env σ (Parse.onScopes (Scopes.declareAll kind scope (xs.map fun x => (x.1.ident, x.2))))
      (fun ns τ => τ.KnowsAll ns (xs.map (.ofName kind list))) ts ts :=
  Course.Goes.onScopes fun hσ =>
    have ⟨hτ, hext, hns⟩ := hσ.2.declareAll list h
    ⟨⟨hσ.1, hτ⟩, hext, hns⟩

theorem declareBare {ns : List Name} {xs : List Ident} (hxs : xs = ns.map Name.ident)
    (kind : BindingKind) (scope : Nat) (list : Pos) :
    T.Goes env σ (Parse.onScopes (Scopes.declareAll kind scope (xs.map fun x => (x, none))))
      (fun ns' τ => τ.KnowsAll ns' ((bare ns).map (.ofName kind list))) ts ts := by
  have hall : T.Goes env σ
      (Parse.onScopes (Scopes.declareAll kind scope ((bare ns).map fun x => (x.1.ident, x.2)))) _ ts ts :=
    declareAll kind scope list (by simp [bare])
  simpa [hxs, bare, Function.comp_def] using hall

/-- The further parameter of a method, which can become visible later. -/
theorem declareSelf (isMethod : Bool) (scope : Nat) (list : Pos) :
    T.Goes env σ (Parse.onScopes (·.declareSelf isMethod scope))
      (fun self τ => ∀ {ρ : Scopes}, τ.Extends ρ → ∀ {ts : List Token},
        T.Moves env (env.extend (implicitSelf isMethod list)) ρ
          (Parse.onScopes fun σ => ((), σ.activateSelf self)) ts ts) ts ts :=
  Course.Goes.onScopes fun h =>
    have ⟨hτ, hext, hself⟩ := h.2.declareSelf isMethod scope
    ⟨⟨h.1, hτ⟩, hext, fun hext' _ hρ =>
      Course.Goes.onScopes fun hts => ⟨hts, fun _ _ he => he, hself hext' hρ list⟩⟩

end Goes

/-- Names become visible. -/
theorem Moves.activate {ns : List Name} {ds : List Decl} (h : σ.KnowsAll ns ds) :
    T.Moves env (env.extend ds) σ (Parse.activate ns) ts ts := fun hσ =>
  Course.Goes.onScopes fun hts => ⟨hts, fun _ _ he => he, hσ.activate h⟩

/-- What became visible is hidden again. -/
theorem Moves.inScope (env' : Env) (hp : T.Moves env env' σ p ts next) :
    T.Goes env σ (Parse.inScope p) Unsaid ts next := fun hts =>
  Course.Goes.inScope (C := T.course env) (D := T.road) rfl (hp hts.2) (·.1)
    (fun _ _ hfits hnext hext hτ => ⟨⟨hnext, hfits.2.hide hext hτ⟩, hext, trivial⟩) hts

/-! Stores. -/

/-- The expression `e'` is `e` as far as a store to it is concerned. -/
structure Holds (env : Env) (e e' : Expr) (τ : Scopes) : Prop where
  isCall : e'.isCall = e.isCall
  assignable : e'.assignable = e.assignable
  name : ∀ n', e' = .name n' → ∃ n, e = .name n ∧ n'.ident = n.ident ∧ τ.Knows n' (env.attrib? n.name)

theorem Holds.extends {e e' : Expr} {τ : Scopes} (h : Holds env e e' σ) (hext : σ.Extends τ) :
    Holds env e e' τ :=
  { h with name := fun n' hn' =>
      have ⟨n, hn, hident, hknows⟩ := h.name n' hn'
      ⟨n, hn, hident, hknows.extends hext⟩ }

/-- An expression that is no name. -/
theorem Holds.other {e e' : Expr} {τ : Scopes} (hcall : e'.isCall = e.isCall)
    (hassignable : e'.assignable = e.assignable) (hname : e'.name? = none) : Holds env e e' τ := by
  refine ⟨hcall, hassignable, fun n hn => ?_⟩
  rw [hn] at hname
  cases hname

/-- The constants among the names are blamed. -/
def Covers (T : Trial) (env : Env) (ns : List Name) : Prop :=
  ∀ n ∈ ns, env.attrib? n.name ≠ none → T.blames n

namespace Goes

/-- Here a constant may be met. -/
theorem markWritten {n n' : Name} (hident : n'.ident = n.ident)
    (hknows : σ.Knows n' (env.attrib? n.name)) (hcovers : T.Covers env [n]) :
    T.Goes env σ (Parse.markWritten n') Unsaid ts ts := by
  refine Course.Goes.markWritten fun h => (h.2.write?_cases hknows).imp ?_ ?_
  · rintro ⟨τ, hwrite, hτ, hext⟩
    exact ⟨τ, hwrite, ⟨h.1, hτ⟩, hext, trivial⟩
  · rintro ⟨hwrite, hattrib, hdeclares⟩
    obtain ⟨hname, hpos⟩ : n'.name = n.name ∧ n'.pos = n.pos := by
      simpa [Name.ident] using hident
    refine ⟨hwrite, n, ?_, hpos.symm, hname.symm, hdeclares⟩
    exact hcovers n (List.mem_singleton_self n) hattrib

theorem markTarget {e e' : Expr} (he : Holds env e e' σ) (hcovers : T.Covers env (plainNames [e])) :
    T.Goes env σ (Parse.markTarget e') Unsaid ts ts := by
  cases e' with
  | name n' =>
    obtain ⟨n, rfl, hident, hknows⟩ := he.name n' rfl
    exact markWritten hident hknows hcovers
  | _ => exact .pure trivial

theorem checkTargets {first : Token} {es es' : List Expr} {ρ : Scopes}
    (hes : List.Forall₂ (fun e e' => Holds env e e' ρ) es es') (hext : ρ.Extends σ)
    (hall : es.all Expr.assignable = true) (hcovers : T.Covers env (plainNames es)) :
    T.Goes env σ (Parse.checkTargets first es') Unsaid ts ts := by
  induction hes generalizing σ with
  | nil => exact .pure trivial
  | @cons e e' es es' he hes ih =>
    obtain ⟨hassignable, hall⟩ := Bool.and_eq_true_iff.mp hall
    rw [← he.assignable] at hassignable
    rw [plainNames_cons] at hcovers
    have hrest : T.Covers env (plainNames es) := fun n hn => hcovers n (List.mem_append_right _ hn)
    cases e' with
    | name n' =>
      obtain ⟨n, rfl, hident, hknows⟩ := he.name n' rfl
      have hfirst : T.Covers env [n] := fun m hm => hcovers m (List.mem_append_left _ hm)
      rw [Parse.checkTargets]
      exact (markWritten hident (hknows.extends hext) hfirst).bind fun _ _ hext' _ =>
        ih (hext.trans hext') hall hrest
    | index p o k =>
      rw [Parse.checkTargets]
      exact ih hext hall hrest
    | _ => simp [Expr.assignable] at hassignable

end Goes

end Trial

/-! ## 4. Lists of names -/

section
variable {C : Course} {T : Trial} {env : Env} {ts next : List Token} {ms : List Mark} {σ : Scopes} {d : Nat}

theorem Names.goes {ns : List Name} (h : Names ns ts ms next) (hd : ms.length ≤ d) :
    C.Goes σ (Parse.names d) (fun xs _ => xs = ns.map Name.ident) ts next :=
  .pass h.tokens h.toNameList.ne_eof (fun hnext => h.complete hnext hd) rfl

theorem Locals.goes {xs : List (Name × Option Attrib)} (h : Locals xs ts ms next) (hd : ms.length ≤ d) :
    C.Goes σ (Parse.attributedNames d) (fun ys _ => ys = xs.map fun x => (x.1.ident, x.2)) ts next :=
  .pass h.tokens h.toLocalList.ne_eof (fun hnext => h.complete hnext hd) rfl

/-- An attribute that was read stands in the text. -/
theorem Attributes.declares {all : List Token} {a : Option Attrib} {v : Token} {x : Text}
    (h : Attributes a ts ms next) (hv : v.kind = .name x) (hall : v :: ts <:+ all) (ha : a ≠ none) :
    Declares all x := by
  cases h with
  | absent => exact absurd rfl ha
  | @present y _ t w z _ ht hw hattrib hz =>
    refine ⟨v, t, w, z, y, ?_, hv, ht, hw, by simp [hattrib], hz⟩
    exact (List.prefix_append [v, t, w, z] next).isInfix.trans hall.isInfix

theorem Locals.declares {all : List Token} {xs : List (Name × Option Attrib)} (h : Locals xs ts ms next)
    (hall : ts <:+ all) : ∀ x ∈ xs, x.2 ≠ none → Declares all x.1.name := by
  induction h with
  | last hv ha _ => simpa using ha.declares hv.1 hall
  | @cons _ ts m₁ y ts₁ _ _ _ _ v hv ha _ _ ih =>
    have hrest : ts₁ <:+ v :: ts := by
      rw [ha.tokens]
      exact ((List.suffix_cons y ts₁).trans (List.suffix_append _ _)).trans (List.suffix_cons v _)
    exact List.forall_mem_cons.mpr ⟨ha.declares hv.1 hall, ih (hrest.trans hall)⟩

theorem Params.goes {ns : List Name} {more : Bool} {scope : Nat} (list : Pos)
    (h : Params ns more ts ms next) (hd : ms.length ≤ d) :
    T.Goes env σ (Parse.parameters scope d)
      (fun r τ => τ.KnowsAll r.1 ((bare ns).map (.ofName .param list))) ts next := by
  induction h generalizing d σ with
  | ellipsis ht =>
    simp only [List.length_cons, List.length_nil] at hd
    obtain ⟨d, rfl⟩ : ∃ d', d = d' + 1 := ⟨d - 1, by omega⟩
    rw [Parse.parameters]
    exact .accept_yes ht (by simp) (.pure .nil)
  | last hv hcomma =>
    simp only [List.length_cons, List.length_nil] at hd
    obtain ⟨d, rfl⟩ : ∃ d', d = d' + 1 := ⟨d - 1, by omega⟩
    rw [Parse.parameters]
    refine .accept_no (hv.kindOf_ne _ _) ((Course.Goes.expectName hv.1).bind fun x _ _ hx => ?_)
    subst hx
    refine (Trial.Goes.declare _ _ _).bind fun n _ _ hn => .accept_no hcomma (.pure ?_)
    exact .cons hn .nil
  | cons hv hy _ ih =>
    simp only [List.length_cons] at hd
    obtain ⟨d, rfl⟩ : ∃ d', d = d' + 1 := ⟨d - 1, by omega⟩
    rw [Parse.parameters]
    refine .accept_no (hv.kindOf_ne _ _) ((Course.Goes.expectName hv.1).bind fun x _ _ hx => ?_)
    subst hx
    refine (Trial.Goes.declare _ _ _).bind fun n _ _ hn => .accept_yes hy (by simp) ?_
    refine (ih (show _ ≤ d by omega)).bind fun r _ hext hr => .pure ?_
    exact .cons ⟨hn.1, hn.2.extends hext⟩ hr

theorem ParamList.goes {ns : List Name} {more : Bool} {scope : Nat} (list : Pos)
    (h : ParamList ns more ts ms next) (hd : ms.length ≤ d) :
    T.Goes env σ (Parse.before (.symbol .parenClose) ([], false) (Parse.parameters scope d))
      (fun r τ => τ.KnowsAll r.1 ((bare ns).map (.ofName .param list))) ts next := by
  cases h with
  | empty hz => exact .before_yes hz .nil
  | some hz h => exact .before_no hz (h.goes list hd)

/-- The fields in the name of a function statement do not depend on what stands before them. -/
theorem Path.rebase {e r : Expr} {m : Bool} (h : Path e r m ts ms next) (e' : Expr) :
    ∃ r', Path e' r' m ts ms next ∧ ∀ env τ, Trial.Holds env e e' τ → Trial.Holds env r r' τ := by
  induction h generalizing e' with
  | done hcolon hdot => exact ⟨e', .done hcolon hdot, fun _ _ h => h⟩
  | method ht hk => exact ⟨_, .method ht hk, fun _ _ _ => .other rfl rfl rfl⟩
  | field ht hk _ ih =>
    obtain ⟨r', hpath, hholds⟩ := ih (.index e'.pos e' (.string _ _))
    exact ⟨r', .field ht hk hpath, fun env τ _ => hholds env τ (.other rfl rfl rfl)⟩

theorem Path.goes {e r e' : Expr} {m : Bool} (h : Path e r m ts ms next) (hd : ms.length < d)
    (he : Trial.Holds env e e' σ) :
    C.Goes σ (Parse.functionName e' d) (fun x τ => Trial.Holds env r x.1 τ ∧ x.2 = m) ts next := by
  obtain ⟨r', hpath, hholds⟩ := h.rebase e'
  exact .pass hpath.tokens hpath.toFieldPath.ne_eof (fun hnext => hpath.complete hnext hd)
    ⟨hholds env σ he, rfl⟩

end

end LuaServer.Lua
