/-
# Declarations stand before what they declare

A list of declarations names its variables before anything else can mean them: before its values, which
do not see them, before the body of its function or loop, and before the statements after it.  Only an
implicit `self` is meant without having been named.

So the first name of a document that means a variable of one list, among those that are spelled like it,
belongs to the list itself.  It need not declare the very variable: a list may use one spelling twice, and
then the later variable is meant everywhere, and the earlier one only where it is declared.

Main result: `parse_declares_first`.
-/
import LuaServer.Proofs.Entries
import LuaServer.Proofs.Resolution

namespace LuaServer.Lua

/-! ## 1. The names of one list -/

/-- What is meant belongs to the list of declarations at a place. -/
def Target.isOf (list : Pos) : Target → Bool
  | .global _ => false
  | .local d => d.list = list

/-- What is meant belongs to the list of a declaration and is spelled like it. -/
def Target.isKin (d : Decl) : Target → Bool
  | .global _ => false
  | .local e => e.list = d.list && e.name = d.name

@[simp] theorem Target.isOf_global (list : Pos) (x : Text) : (Target.global x).isOf list = false := rfl
@[simp] theorem Target.isOf_local (list : Pos) (d : Decl) :
    (Target.local d).isOf list = decide (d.list = list) := rfl

/-- Where a local is meant, a first one of its list and spelling is meant. -/
theorem exists_first {us : List (Name × Target)} {n : Name} {d : Decl} (h : (n, .local d) ∈ us) :
    ∃ m e, us.find? (·.2.isKin d) = some (m, .local e) := by
  have hsome : (us.find? (·.2.isKin d)).isSome = true :=
    List.find?_isSome.mpr ⟨_, h, by simp [Target.isKin]⟩
  obtain ⟨⟨m, t⟩, hfirst⟩ := Option.isSome_iff_exists.mp hsome
  cases t with
  | global x => cases List.find?_some hfirst
  | «local» e => exact ⟨m, e, hfirst⟩

namespace Scoping

/-- The declarations that take effect. -/
def declared (r : Scoping) : List Decl := r.decls.map (·.1)

/-- The name `n` declares `d`. -/
def Declares (r : Scoping) (n : Name) (d : Decl) : Prop := (n, .local d) ∈ r.uses ∧ d.site = some n.pos

@[simp] theorem declared_append (a b : Scoping) : (a ++ b).declared = a.declared ++ b.declared := by
  simp [declared]

theorem declared_declare (env : Env) (list : Pos) (self : List Decl) (kind : BindingKind)
    (xs : List (Name × Option Attrib)) (header : Scoping) :
    (declare env list self kind xs header).declared
      = header.declared ++ (self ++ xs.map (.ofName kind list)) := by
  simp [declare, declared, Function.comp_def]

theorem mem_implicitSelf {isMethod : Bool} {list : Pos} {d : Decl}
    (h : d ∈ implicitSelf isMethod list) : d.site = none ∧ d.list = list := by
  cases isMethod with
  | false => cases h
  | true =>
    obtain rfl := List.mem_singleton.mp h
    exact ⟨rfl, rfl⟩

/-- Of the names that mean a variable of one list, those of the list come first. -/
def Headed (r : Scoping) (list : Pos) : Prop :=
  ∃ own rest, r.uses.filter (·.2.isOf list) = own ++ rest ∧
    (∀ u ∈ own, ∃ d, u.2 = .local d ∧ d.site = some u.1.pos) ∧
    ∀ d ∈ r.declared, d.list = list → d.site = none ∨ ∃ u ∈ own, u.2 = .local d

namespace Headed

variable {a b : Scoping} {list : Pos}

/-- A part that declares nothing of the list comes after. -/
theorem append_left (h : a.Headed list) (hb : ∀ d ∈ b.declared, d.list ≠ list) :
    (a ++ b).Headed list := by
  obtain ⟨own, rest, heq, hown, hall⟩ := h
  refine ⟨own, rest ++ b.uses.filter (·.2.isOf list), ?_, hown, ?_⟩
  · rw [uses_append, List.filter_append, heq, List.append_assoc]
  · intro d hd hlist
    rw [declared_append] at hd
    rcases List.mem_append.mp hd with hd | hd
    · exact hall d hd hlist
    · exact absurd hlist (hb d hd)

/-- A part that neither means nor declares a variable of the list comes before. -/
theorem append_right (h : b.Headed list) (ha : a.uses.filter (·.2.isOf list) = [])
    (ha' : ∀ d ∈ a.declared, d.list ≠ list) : (a ++ b).Headed list := by
  obtain ⟨own, rest, heq, hown, hall⟩ := h
  refine ⟨own, rest, ?_, hown, ?_⟩
  · rw [uses_append, List.filter_append, ha, heq, List.nil_append]
  · intro d hd hlist
    rw [declared_append] at hd
    rcases List.mem_append.mp hd with hd | hd
    · exact absurd hlist (ha' d hd)
    · exact hall d hd hlist

section
variable (env : Env) (isMethod : Bool) (kind : BindingKind) (xs : List (Name × Option Attrib))
  {header : Scoping} {place : Pos}

/-- A list of declarations begins with its names. -/
theorem declare (hheader : ∀ d ∈ header.declared, d.list ≠ list) :
    (Scoping.declare env list (implicitSelf isMethod list) kind xs header).Headed list := by
  have hall : ∀ u ∈ xs.map fun x => (x.1, Target.local (.ofName kind list x)),
      u.2.isOf list = true := by
    intro u hu
    obtain ⟨x, -, rfl⟩ := List.mem_map.mp hu
    exact decide_eq_true rfl
  rw [Headed, declared_declare, Scoping.declare, List.filter_append, List.filter_eq_self.mpr hall]
  refine ⟨_, _, rfl, ?_, ?_⟩
  · intro u hu
    obtain ⟨x, -, rfl⟩ := List.mem_map.mp hu
    exact ⟨_, rfl, rfl⟩
  · intro d hd hlist
    rw [List.mem_append, List.mem_append] at hd
    rcases hd with hd | hd | hd
    · exact absurd hlist (hheader d hd)
    · exact .inl (mem_implicitSelf hd).1
    · obtain ⟨x, hx, rfl⟩ := List.mem_map.mp hd
      exact .inr ⟨_, List.mem_map_of_mem hx, rfl⟩

/-- The names of another list are left as they are. -/
theorem declare_of_ne (h : header.Headed place) (hne : list ≠ place) :
    (Scoping.declare env list (implicitSelf isMethod list) kind xs header).Headed place := by
  have hnone : ∀ u ∈ xs.map fun x => (x.1, Target.local (.ofName kind list x)),
      ¬u.2.isOf place = true := by
    intro u hu
    obtain ⟨x, -, rfl⟩ := List.mem_map.mp hu
    exact fun hof => hne (of_decide_eq_true hof)
  obtain ⟨own, rest, heq, hown, hall⟩ := h
  rw [Headed, declared_declare, Scoping.declare, List.filter_append,
    List.filter_eq_nil_iff.mpr hnone, heq, List.nil_append]
  refine ⟨own, rest, rfl, hown, ?_⟩
  intro d hd hlist
  rw [List.mem_append, List.mem_append] at hd
  rcases hd with hd | hd | hd
  · exact hall d hd hlist
  · exact .inl (mem_implicitSelf hd).1
  · obtain ⟨x, -, rfl⟩ := List.mem_map.mp hd
    exact absurd hlist hne

end

/-- The first name of the list that is spelled like one of its variables with a place is a declaration. -/
theorem first {r : Scoping} {d : Decl} (h : r.Headed d.list) (hd : d ∈ r.declared)
    (hsite : d.site.isSome = true) :
    ∃ m e k, r.uses.find? (·.2.isKin d) = some (m, .local e) ∧ r.Declares m e ∧ r.Declares k d := by
  obtain ⟨own, rest, hfilter, hown, hall⟩ := h
  -- only names that mean a variable of the list are in question
  have hamong : r.uses.find? (·.2.isKin d) = (own ++ rest).find? (·.2.isKin d) := by
    rw [← hfilter, List.find?_filter]
    congr 1
    funext u
    cases u.2 <;> simp [Target.isKin]
  have hdeclares : ∀ {k : Name} {e : Decl}, (k, .local e) ∈ own → r.Declares k e := by
    intro k e hk
    obtain ⟨e', he', hplace⟩ := hown _ hk
    cases he'
    exact ⟨(List.mem_filter.mp (hfilter ▸ List.mem_append_left rest hk)).1, hplace⟩
  rcases hall d hd rfl with hnone | ⟨⟨k, t⟩, hk, rfl⟩
  · rw [hnone] at hsite
    cases hsite
  · obtain ⟨m, e, hfirst⟩ := exists_first hk
    rw [List.find?_append, hfirst, Option.some_or] at hamong
    exact ⟨m, e, k, hamong, hdeclares (List.mem_of_find?_eq_some hfirst), hdeclares hk⟩

end Headed

/-- What is meant was visible before or is declared.  If no list stands where one of the visible
declarations has its list, every list comes first among what means its variables. -/
structure Foreseen (env : Env) (r : Scoping) : Prop where
  meant : ∀ {u : Name × Target} {d : Decl}, u ∈ r.uses → u.2 = .local d → d ∈ env ∨ d ∈ r.declared
  listed : ∀ d ∈ r.declared, d.list ∈ r.lists
  headed : r.lists.Nodup → (∀ d ∈ env, d.list ∉ r.lists) → ∀ list ∈ r.lists, r.Headed list

namespace Foreseen

variable {env env' : Env} {a b : Scoping}

theorem none : Foreseen env {} where
  meant hu := by cases hu
  listed d hd := by cases hd
  headed _ _ list hlist := by cases hlist

/-- A name means what is visible. -/
theorem use (n : Name) : Foreseen env { uses := [(n, env.target n.name)] } where
  meant := by
    intro u d hu hd
    obtain rfl := List.mem_singleton.mp hu
    rw [Env.target] at hd
    split at hd
    · next hlook =>
      cases hd
      exact .inl (List.mem_of_find?_eq_some hlook)
    · cases hd
  listed d hd := by cases hd
  headed _ _ list hlist := by cases hlist

/-- A part that declares nothing of a list, and sees nothing of it, does not mean its variables. -/
theorem filter_eq_nil (h : Foreseen env a) {list : Pos} (henv : ∀ d ∈ env, d.list ≠ list)
    (hlist : list ∉ a.lists) : a.uses.filter (·.2.isOf list) = [] := by
  refine List.filter_eq_nil_iff.mpr fun u hu hof => ?_
  cases hd : u.2 with
  | global x => simp [hd, Target.isOf] at hof
  | «local» d =>
    have heq : d.list = list := by simpa [hd, Target.isOf] using hof
    rcases h.meant hu hd with hin | hin
    · exact henv d hin heq
    · exact hlist (heq ▸ h.listed d hin)

/-- One part after another, which sees what was visible and what the first part declares. -/
theorem append (ha : Foreseen env a) (hb : Foreseen env' b)
    (henv : ∀ d ∈ env', d ∈ env ∨ d ∈ a.declared) : Foreseen env (a ++ b) where
  meant := by
    intro u d hu hd
    rw [declared_append, List.mem_append]
    rcases List.mem_append.mp hu with hu | hu
    · exact (ha.meant hu hd).imp_right .inl
    · rcases hb.meant hu hd with hin | hin
      · exact (henv d hin).imp_right .inl
      · exact .inr (.inr hin)
  listed d hd := by
    rw [declared_append] at hd
    rcases List.mem_append.mp hd with hd | hd
    · exact List.mem_append_left _ (ha.listed d hd)
    · exact List.mem_append_right _ (hb.listed d hd)
  headed := by
    intro hnodup hfresh list hlist
    rw [lists_append] at hnodup hfresh hlist
    obtain ⟨hnodupa, hnodupb, hdisjoint⟩ := List.nodup_append'.mp hnodup
    have hfresha : ∀ d ∈ env, d.list ∉ a.lists := fun d hd hin =>
      hfresh d hd (List.mem_append_left _ hin)
    rcases List.mem_append.mp hlist with hin | hin
    · exact (ha.headed hnodupa hfresha list hin).append_left fun d hd heq =>
        hdisjoint hin (heq ▸ hb.listed d hd)
    · have hfreshb : ∀ d ∈ env', d.list ∉ b.lists := by
        intro d hd hin'
        rcases henv d hd with hd | hd
        · exact hfresh d hd (List.mem_append_right _ hin')
        · exact hdisjoint (ha.listed d hd) hin'
      refine (hb.headed hnodupb hfreshb list hin).append_right ?_ ?_
      · refine ha.filter_eq_nil (fun d hd heq => ?_) fun hin' => hdisjoint hin' hin
        exact hfresh d hd (heq ▸ List.mem_append_right _ hin)
      · exact fun d hd heq => hdisjoint (ha.listed d hd) (heq ▸ hin)

/-- One part after another, which sees the same. -/
theorem both (ha : Foreseen env a) (hb : Foreseen env b) : Foreseen env (a ++ b) :=
  ha.append hb fun _ hd => .inl hd

/-- A list of declarations, whose header does not see them. -/
theorem declare {header : Scoping} (h : Foreseen env header) (list : Pos) (isMethod : Bool)
    (kind : BindingKind) (xs : List (Name × Option Attrib)) :
    Foreseen env (.declare env list (implicitSelf isMethod list) kind xs header) where
  meant := by
    intro u d hu hd
    rw [declared_declare]
    rcases List.mem_append.mp hu with hu | hu
    · obtain ⟨x, hx, rfl⟩ := List.mem_map.mp hu
      cases hd
      exact .inr (List.mem_append_right _ (List.mem_append_right _ (List.mem_map_of_mem hx)))
    · exact (h.meant hu hd).imp_right (List.mem_append_left _)
  listed d hd := by
    rw [declared_declare, List.mem_append, List.mem_append] at hd
    rcases hd with hd | hd | hd
    · exact List.mem_cons_of_mem _ (h.listed d hd)
    · rw [(mem_implicitSelf hd).2]
      exact List.mem_cons_self
    · obtain ⟨x, -, rfl⟩ := List.mem_map.mp hd
      exact List.mem_cons_self
  headed := by
    intro hnodup hfresh place hplace
    obtain ⟨hnotin, hnodup⟩ := List.nodup_cons.mp hnodup
    have hfreshHeader : ∀ d ∈ env, d.list ∉ header.lists := fun d hd hin =>
      hfresh d hd (List.mem_cons_of_mem _ hin)
    rcases List.mem_cons.mp hplace with rfl | hin
    · exact .declare env isMethod kind xs fun d hd heq => hnotin (heq ▸ h.listed d hd)
    · have hheader := h.headed hnodup hfreshHeader place hin
      exact hheader.declare_of_ne env isMethod kind xs fun heq => hnotin (heq ▸ hin)

/-- A list of declarations, and what sees them. -/
theorem declareIn {header body : Scoping} (h : Foreseen env header) {list : Pos} (isMethod : Bool)
    {kind : BindingKind} {xs : List (Name × Option Attrib)}
    (hbody : Foreseen (env.extend (implicitSelf isMethod list ++ xs.map (.ofName kind list))) body) :
    Foreseen env (.declare env list (implicitSelf isMethod list) kind xs header ++ body) := by
  refine (h.declare list isMethod kind xs).append hbody fun d hd => ?_
  rw [declared_declare]
  rcases List.mem_append.mp hd with hd | hd
  · exact .inr (List.mem_append_right _ (List.mem_reverse.mp hd))
  · exact .inl hd

end Foreseen

end Scoping

/-! ## 2. Over the whole tree -/

/-- What a statement makes visible it declares. -/
theorem Stmt.declares_subset (env : Env) (s : Stmt) : s.declares ⊆ (scopeStmt env s).declared := by
  cases s with
  | «local» p ns as vs =>
    rw [Stmt.declares, scopeStmt, Scoping.declared_declare]
    exact List.subset_append_right _ _
  | localFunction p n f =>
    rw [Stmt.declares, scopeStmt, Scoping.declared_append, Scoping.declared_declare]
    exact List.subset_append_left _ _
  | _ => exact List.nil_subset _

theorem Env.mem_extend {env : Env} {ds : List Decl} {d : Decl} :
    d ∈ env.extend ds ↔ d ∈ ds ∨ d ∈ env := by
  simp [Env.extend]

/-- What is visible after statements was visible before or is declared by them. -/
theorem Env.mem_after : ∀ {ss : List Stmt} {env : Env} {d : Decl}, d ∈ env.after ss →
    d ∈ env ∨ d ∈ (scopeStmts env ss).declared
  | [], _, _, hd => .inl hd
  | s :: ss, env, d, hd => by
    rw [scopeStmts, Scoping.declared_append, List.mem_append]
    change d ∈ (env.extend s.declares).after ss at hd
    rcases Env.mem_after hd with hin | hin
    · rcases Env.mem_extend.mp hin with hin | hin
      · exact .inr (.inl (s.declares_subset env hin))
      · exact .inl hin
    · exact .inr (.inr hin)

-- by the recursion of the pass: each case puts its parts together in the order of their names

mutual

theorem scopeExpr_foreseen (env : Env) (e : Expr) : (scopeExpr env e).Foreseen env := by
  cases e with
  | name n => exact .use n
  | function _ f => exact scopeFunc_foreseen env false f
  | table _ fs => exact scopeFields_foreseen env fs
  | binary _ _ l r => exact (scopeExpr_foreseen env l).both (scopeExpr_foreseen env r)
  | unary _ _ e => exact scopeExpr_foreseen env e
  | paren _ e => exact scopeExpr_foreseen env e
  | index _ o k => exact (scopeExpr_foreseen env o).both (scopeExpr_foreseen env k)
  | call _ f as => exact (scopeExpr_foreseen env f).both (scopeExprs_foreseen env as)
  | methodCall _ o _ as => exact (scopeExpr_foreseen env o).both (scopeExprs_foreseen env as)
  | _ => exact .none

theorem scopeExprs_foreseen (env : Env) (es : List Expr) : (scopeExprs env es).Foreseen env := by
  cases es with
  | nil => exact .none
  | cons e es => exact (scopeExpr_foreseen env e).both (scopeExprs_foreseen env es)

theorem scopeExpr?_foreseen (env : Env) (e : Option Expr) : (scopeExpr? env e).Foreseen env := by
  cases e with
  | none => exact .none
  | some e => exact scopeExpr_foreseen env e

theorem scopeFields_foreseen (env : Env) (fs : List TableField) :
    (scopeFields env fs).Foreseen env := by
  cases fs with
  | nil => exact .none
  | cons f fs =>
    obtain ⟨p, k, v⟩ := f
    exact ((scopeExpr?_foreseen env k).both (scopeExpr_foreseen env v)).both
      (scopeFields_foreseen env fs)

theorem scopeFunc_foreseen (env : Env) (isMethod : Bool) (f : FuncBody) :
    (scopeFunc env isMethod f).Foreseen env := by
  obtain ⟨p, ps, v, b⟩ := f
  exact Scoping.Foreseen.none.declareIn isMethod (scopeBlock_foreseen _ b)

theorem scopeBlock_foreseen (env : Env) (b : Block) : (scopeBlock env b).Foreseen env := by
  obtain ⟨p, ss⟩ := b
  exact scopeStmts_foreseen env ss

theorem scopeBlock?_foreseen (env : Env) (b : Option Block) : (scopeBlock? env b).Foreseen env := by
  cases b with
  | none => exact .none
  | some b => exact scopeBlock_foreseen env b

theorem scopeStmts_foreseen (env : Env) (ss : List Stmt) : (scopeStmts env ss).Foreseen env := by
  cases ss with
  | nil => exact .none
  | cons s ss =>
    refine (scopeStmt_foreseen env s).append (scopeStmts_foreseen _ ss) fun d hd => ?_
    exact (Env.mem_extend.mp hd).symm.imp_right fun hin => s.declares_subset env hin

theorem scopeClauses_foreseen (env : Env) (cs : List IfClause) :
    (scopeClauses env cs).Foreseen env := by
  cases cs with
  | nil => exact .none
  | cons c cs =>
    obtain ⟨p, e, b⟩ := c
    exact ((scopeExpr_foreseen env e).both (scopeBlock_foreseen env b)).both
      (scopeClauses_foreseen env cs)

theorem scopeStmt_foreseen (env : Env) (s : Stmt) : (scopeStmt env s).Foreseen env := by
  cases s with
  | «local» p ns as vs => exact (scopeExprs_foreseen env vs).declare p false .local _
  | assign _ ts vs => exact (scopeExprs_foreseen env ts).both (scopeExprs_foreseen env vs)
  | call _ e => exact scopeExpr_foreseen env e
  | «do» _ b => exact scopeBlock_foreseen env b
  | «while» _ c b => exact (scopeExpr_foreseen env c).both (scopeBlock_foreseen env b)
  | «repeat» _ b c =>
    obtain ⟨p, ss⟩ := b
    exact (scopeStmts_foreseen env ss).append (scopeExpr_foreseen _ c) fun d hd => Env.mem_after hd
  | «if» _ cs o => exact (scopeClauses_foreseen env cs).both (scopeBlock?_foreseen env o)
  | numericFor p v a b c body =>
    have hheader := (scopeExpr_foreseen env a).both
      ((scopeExpr_foreseen env b).both (scopeExpr?_foreseen env c))
    exact hheader.declareIn false (scopeBlock_foreseen _ body)
  | genericFor p ns vs body =>
    exact (scopeExprs_foreseen env vs).declareIn false (scopeBlock_foreseen _ body)
  | function _ t f m => exact (scopeExpr_foreseen env t).both (scopeFunc_foreseen env m f)
  | localFunction p n f =>
    exact Scoping.Foreseen.none.declareIn false (scopeFunc_foreseen _ false f)
  | «return» _ vs => exact scopeExprs_foreseen env vs
  | _ => exact .none

end

/-! ## 3. Whole documents -/

section
variable {source uri : Text} {c : Chunk}

/-- No two lists of declarations of a text stand at one place. -/
theorem parse_lists_nodup (h : parse source uri = .ok c) : (scopeBlock [] c.body).lists.Nodup := by
  obtain ⟨rows, σ, -, -, -, -, -, hlists⟩ := parse_follows h
  exact hlists

/-- A binding is named and numbered after what is meant: it has the number of no scope for a global, and
for a local that of its list, counted from 1. -/
def Target.Numbers (lists : List Pos) (b : Binding) : Target → Prop
  | .global _ => b.scope = globalScope
  | .local d => b.name = d.name ∧ 1 ≤ b.scope ∧ lists[b.scope - 1]? = some d.list

/-- The binding of a name has that name, and the number of what the name means. -/
theorem parse_numbers (h : parse source uri = .ok c) {u : Name × Target}
    (hu : u ∈ (scopeBlock [] c.body).uses) {b : Binding} (hb : c.bindings[u.1.binding]? = some b) :
    b.name = u.1.name ∧ u.2.Numbers (scopeBlock [] c.body).lists b := by
  obtain ⟨tokens, ms, next, σ, -, -, -, -, hbind, hbindings⟩ := parse_sound h
  rw [hbindings] at hb
  constructor
  · have hn : u.1 ∈ c.names := c.scoping_names ▸ List.mem_map_of_mem hu
    obtain ⟨b', hb', hname⟩ := (bindBlock_finds c.body {} σ hbind).named Tidy.initial u.1 hn
    have hcore : b' = b.core := by simpa [Scopes.table, Name.entry, hb] using hb'.symm
    rw [hcore] at hname
    exact hname
  · obtain ⟨rows, hsim, huses, hdecls⟩ := bindBlock_follows c.body Sim.initial hbind
    simp only [List.nil_append] at hsim huses hdecls
    obtain ⟨t, ht, hfits, hlist⟩ := hsim.fits hdecls hb
    obtain rfl := Option.some.inj (ht.symm.trans (huses u hu))
    cases hd : u.2 with
    | global x =>
      rw [hd] at hfits
      exact hfits.2.2.1
    | «local» d =>
      rw [hd] at hfits
      exact ⟨hfits.1, hfits.2.2.2.2.1, hlist d hd⟩

/-- Two names are spelled alike and have bindings of one number exactly when they mean variables of one
list that are spelled alike. -/
theorem parse_isKin_iff (h : parse source uri = .ok c) {u v : Name × Target}
    (hu : u ∈ (scopeBlock [] c.body).uses) (hv : v ∈ (scopeBlock [] c.body).uses) {b b' : Binding}
    (hb : c.bindings[u.1.binding]? = some b) (hb' : c.bindings[v.1.binding]? = some b') {d : Decl}
    (hd : u.2 = .local d) :
    v.1.name = u.1.name ∧ b'.scope = b.scope ↔ v.2.isKin d = true := by
  obtain ⟨hname, hnumbers⟩ := parse_numbers h hu hb
  obtain ⟨hname', hnumbers'⟩ := parse_numbers h hv hb'
  rw [hd] at hnumbers
  obtain ⟨hdname, hpos, hlist⟩ := hnumbers
  cases he : v.2 with
  | global x =>
    rw [he] at hnumbers'
    change b'.scope = 0 at hnumbers'
    simp only [Target.isKin, Bool.false_eq_true, iff_false]
    omega
  | «local» e =>
    rw [he] at hnumbers'
    obtain ⟨hename, hpos', hlist'⟩ := hnumbers'
    have hlists : b'.scope = b.scope ↔ e.list = d.list := by
      constructor
      · intro heq
        rw [heq] at hlist'
        exact Option.some.inj (hlist'.symm.trans hlist)
      · intro heq
        rw [← heq] at hlist
        obtain ⟨hlt, -⟩ := List.getElem?_eq_some_iff.mp hlist
        have hindex := (List.getElem?_inj hlt (parse_lists_nodup h)).mp (hlist.trans hlist'.symm)
        omega
    rw [Target.isKin, Bool.and_eq_true, decide_eq_true_eq, decide_eq_true_eq, hlists, ← hname,
      ← hname', hdname, hename, and_comm]

/-- **The first name of a variable's list and spelling.**  It is a declaration of the list, if the variable
has a place of its own, and then the variable is declared by a name as well. -/
theorem parse_declares_first (h : parse source uri = .ok c) {n : Name} {d : Decl}
    (hn : (n, .local d) ∈ (scopeBlock [] c.body).uses) :
    ∃ m e, (scopeBlock [] c.body).uses.find? (·.2.isKin d) = some (m, .local e) ∧
      (d.site.isSome = true → (scopeBlock [] c.body).Declares m e ∧
        ∃ k, (scopeBlock [] c.body).Declares k d) := by
  have hforeseen := scopeBlock_foreseen [] c.body
  generalize hpass : scopeBlock [] c.body = pass at hn hforeseen ⊢
  have hdeclared : d ∈ pass.declared := (hforeseen.meant hn rfl).resolve_left List.not_mem_nil
  have hheaded : pass.Headed d.list :=
    hforeseen.headed (hpass ▸ parse_lists_nodup h) (by simp) d.list (hforeseen.listed d hdeclared)
  cases hsite : d.site.isSome with
  | true =>
    obtain ⟨m, e, k, hfirst, hm, hk⟩ := hheaded.first hdeclared hsite
    exact ⟨m, e, hfirst, fun _ => ⟨hm, k, hk⟩⟩
  | false =>
    obtain ⟨m, e, hfirst⟩ := exists_first hn
    exact ⟨m, e, hfirst, nofun⟩

end

end LuaServer.Lua
