/-
# Where the type of a binding comes from

The checker changes the type of a binding at few steps: where a value is stored in it, and where it is
the variable of a numeric loop.  So a type that is known at some step was given by an earlier one
(`run_gives`), unless it is that of a builtin.

A report that an operation does not fit a type tells of the type that its variable has at that step, so
that type has such an origin too, and the stores to the variable do not disagree (`mistyped_origin`).

Main results: `run_gives`, `mistyped_origin`.
-/
import LuaServer.Proofs.Blame
import LuaServer.Proofs.Reach

namespace LuaServer.Lua

open scoped List

/-! ## 1. Types and classes of expressions -/

theorem base?_plain (t : Ty) : t.plain.base? = t.base? := by cases t <;> rfl

theorem BinaryOp.base?_result (op : BinaryOp) (l r : Ty) :
    (op.result l r).base? = if op.isComparison then some .boolean
      else if op = .concat then some .string
      else if op.isArithmetic || op.isBitwise then some .number
      else none := by
  have hnumber : (if l = .integer ∧ r = .integer then Ty.integer else .number).base? = some .number := by
    split <;> rfl
  cases op <;> first | rfl | exact hnumber

theorem UnaryOp.base?_result (op : UnaryOp) (t : Ty) :
    (op.result t).base? = some (if op = .not then .boolean else .number) := by
  cases op with
  | neg => cases t <;> rfl
  | _ => rfl

section
variable (env : CheckEnv)

/-- A class that does not depend on bindings is that of the type. -/
theorem base?_infer (types : Types) : ∀ {e : Expr} {t : Base}, e.base? = some t →
    (env.infer types e).base? = some t
  | .nil _, _, h | .boolean _ _, _, h | .string _ _, _, h | .table _ _, _, h | .function _ _, _, h => h
  | .number _ v _, _, h => by
    rw [CheckEnv.infer]
    split <;> exact h
  | .paren _ e, _, h => base?_infer types (e := e) h
  | .binary _ op l r, _, h => (op.base?_result _ _).trans h
  | .unary _ op _, _, h => (op.base?_result _).trans h
  | .name _, _, h | .vararg _, _, h | .index _ _ _, _, h | .call _ _ _, _, h
  | .methodCall _ _ _ _, _, h => by cases h

/-- So is that of what is stored, if that has a type. -/
theorem base?_storedType (types : Types) {s : Stored} {t u : Base} (h : s.base? = some t)
    (hu : (env.storedType types s).base? = some u) : u = t := by
  cases s with
  | value e => exact Option.some.inj (hu.symm.trans (base?_infer env types h))
  | further | unset => cases hu
  | missing | function f => exact Option.some.inj (hu.symm.trans h)

/-- The type of an expression depends on the types of its names only. -/
theorem infer_congr {types types' : Types} : ∀ {e : Expr},
    (∀ v ∈ namesIn (walkExpr e), types.of v.binding = types'.of v.binding) →
      env.infer types e = env.infer types' e
  | .nil _, _ | .boolean _ _, _ | .string _ _, _ | .table _ _, _ | .function _ _, _ | .number _ _ _, _
  | .vararg _, _ | .index _ _ _, _ | .call _ _ _, _ | .methodCall _ _ _ _, _ => rfl
  | .name n, h => by
    have hn := h n (by simp [walkExpr, Expr.name?])
    simp only [CheckEnv.infer, CheckEnv.typeOf, hn]
  | .paren _ e, h => infer_congr (e := e) fun v hv => h v (by simpa [walkExpr, Expr.name?] using hv)
  | .unary _ op e, h =>
    congrArg op.result (infer_congr (e := e) fun v hv => h v (by simpa [walkExpr, Expr.name?] using hv))
  | .binary _ op l r, h => by
    have hl := infer_congr (e := l) fun v hv => h v (by simp [walkExpr, Expr.name?, hv])
    have hr := infer_congr (e := r) fun v hv => h v (by simp [walkExpr, Expr.name?, hv])
    simp only [CheckEnv.infer, hl, hr]

end

/-! ## 2. One step -/

/-- A step gives a binding a type: by a store, of which it is the type, or as the variable of a numeric
loop, in which it is a number. -/
inductive CheckEnv.Gives (env : CheckEnv) (types : Types) : Event → BindingId → Ty → Prop
  | stored {ev : Event} {d : Name} {s : Stored} (h : (d, s) ∈ ev.storing) :
    Gives env types ev d.binding (env.storedType types s)
  | counter {p : Pos} {v : Name} {e₁ e₂ : Expr} {e₃ : Option Expr} {b : Block} {t : Ty}
    (ht : t.base? = some .number) :
    Gives env types (.visit (.stmt (.numericFor p v e₁ e₂ e₃ b))) v.binding t

/-- The values of a `local` do not mention what it declares. -/
def Event.Fresh : Event → Prop
  | .visit (.stmt (.local _ ns _ vs)) =>
    ∀ n ∈ ns, ∀ v ∈ namesIn (walkExprs vs), v.binding ≠ n.binding
  | _ => True

section
variable {env : CheckEnv} {types : Types} {id : BindingId}

theorem of_set (types : Types) (i : BindingId) (t : Ty) (id : BindingId) :
    Types.of (types.setIfInBounds i t) id = types.of id ∨
      i = id ∧ (Types.of (types.setIfInBounds i t) id = t ∨ Types.of (types.setIfInBounds i t) id = .any) := by
  rw [Types.of, Array.getElem?_setIfInBounds]
  split
  · next heq =>
    refine .inr ⟨heq, ?_⟩
    split
    · exact .inl rfl
    · exact .inr rfl
  · exact .inl rfl

theorem of_set_ne {types : Types} {i : BindingId} (t : Ty) (h : i ≠ id) :
    Types.of (types.setIfInBounds i t) id = types.of id := by
  rcases of_set types i t id with heq | ⟨heq, -⟩
  · exact heq
  · exact absurd heq h

/-- A type that is known after a change is the one from before or the new one. -/
theorem of_set_known {types : Types} {i : BindingId} {t : Ty}
    (h : Types.of (types.setIfInBounds i t) id ≠ .any) :
    Types.of (types.setIfInBounds i t) id = types.of id ∨
      i = id ∧ Types.of (types.setIfInBounds i t) id = t := by
  rcases of_set types i t id with heq | ⟨hid, heq | hany⟩
  · exact .inl heq
  · exact .inr ⟨hid, heq⟩
  · exact absurd hany h

theorem namesIn_walkExprs_getElem? {vs : List Expr} {i : Nat} {e : Expr} (h : vs[i]? = some e) :
    namesIn (walkExpr e) ⊆ namesIn (walkExprs vs) := by
  induction vs generalizing i with
  | nil => cases h
  | cons v vs ih =>
    rw [walkExprs, namesIn_append]
    cases i with
    | zero =>
      cases h
      exact List.subset_append_left _ _
    | succ i => exact List.Subset.trans (ih h) (List.subset_append_right _ _)

/-- The names of a `local` get the types of what they receive. -/
theorem assignTypes_gives {vs : List Expr} : ∀ (ns : List Name) (i : Nat) {types' : Types},
    (∀ n ∈ ns, ∀ v ∈ namesIn (walkExprs vs), v.binding ≠ n.binding) →
    (∀ v ∈ namesIn (walkExprs vs), types'.of v.binding = types.of v.binding) →
    (env.assignTypes vs i ns types').of id ≠ .any →
      (env.assignTypes vs i ns types').of id = types'.of id ∨
      ∃ d s, (d, s) ∈ received vs i (ns.map some) ∧ d.binding = id ∧
        (env.assignTypes vs i ns types').of id = env.storedType types s
  | [], _, _, _, _, _ => .inl rfl
  | n :: ns, i, types', hfresh, hsame, hknown => by
    obtain ⟨t, hcons, hsome, hnone⟩ : ∃ t, env.assignTypes vs i (n :: ns) types'
          = env.assignTypes vs (i + 1) ns (types'.setIfInBounds n.binding t) ∧
        (∀ e, vs[i]? = some e → t = env.infer types' e) ∧
        (vs[i]? = none → t = if vs.isEmpty || endsOpen vs then .any else .nil) :=
      ⟨_, rfl, fun _ he => by rw [he], fun he => by rw [he]⟩
    rw [hcons] at hknown ⊢
    have hrest := assignTypes_gives ns (i + 1)
      (fun m hm => hfresh m (List.mem_cons_of_mem n hm))
      (fun v hv => (of_set_ne t (hfresh n List.mem_cons_self v hv).symm).trans (hsame v hv)) hknown
    rcases hrest with heq | ⟨d, s, hd, hid, heq⟩
    · rw [heq] at hknown ⊢
      refine (of_set_known hknown).imp_right ?_
      rintro ⟨hid, hset⟩
      refine ⟨n, storedAt vs i, List.mem_cons_self, hid, hset.trans ?_⟩
      rw [storedAt]
      cases he : vs[i]? with
      | some e =>
        rw [hsome e he]
        exact infer_congr env fun v hv => hsame v (namesIn_walkExprs_getElem? he hv)
      | none =>
        rw [hnone he]
        cases hempty : vs.isEmpty <;> cases hopen : endsOpen vs <;> rfl
    · exact .inr ⟨d, s, List.mem_cons_of_mem _ hd, hid, heq⟩

/-- Names that get no type. -/
theorem of_setAll {ns : List Name} : ∀ {types : Types},
    Types.of (ns.foldl (fun types n => types.setIfInBounds n.binding .any) types) id ≠ .any →
      Types.of (ns.foldl (fun types n => types.setIfInBounds n.binding .any) types) id = types.of id := by
  induction ns with
  | nil => exact fun _ => rfl
  | cons n ns ih =>
    intro types hknown
    have hrest := ih hknown
    rw [List.foldl_cons] at hknown ⊢
    rw [hrest] at hknown ⊢
    rcases of_set_known hknown with heq | ⟨-, hany⟩
    · exact heq
    · exact absurd hany hknown

/-- **What a step does to types.**  A type that is known after a step was there before, or the step has
given it. -/
theorem retype_gives {ev : Event} (hfresh : ev.Fresh) (h : (env.retype types ev).of id ≠ .any) :
    (env.retype types ev).of id = types.of id ∨
      env.Gives types ev id ((env.retype types ev).of id) := by
  have hset : ∀ {d : Name} {s : Stored} {t : Ty}, (d, s) ∈ ev.storing → t = env.storedType types s →
      Types.of (types.setIfInBounds d.binding t) id ≠ .any →
      Types.of (types.setIfInBounds d.binding t) id = types.of id ∨
        env.Gives types ev id (Types.of (types.setIfInBounds d.binding t) id) := by
    rintro d s t hds rfl hknown
    refine (of_set_known hknown).imp_right ?_
    rintro ⟨rfl, heq⟩
    rw [heq]
    exact .stored hds
  unfold CheckEnv.retype at h ⊢
  split at h
  · next p ns as vs =>
    refine (assignTypes_gives ns 0 hfresh (fun _ _ => rfl) h).imp_right ?_
    rintro ⟨d, s, hd, rfl, heq⟩
    rw [heq]
    exact .stored hd
  · next p n f => exact hset (s := .function f) List.mem_cons_self rfl h
  · next p v e₁ e₂ e₃ b =>
    refine (of_set_known h).imp_right ?_
    rintro ⟨rfl, heq⟩
    rw [heq]
    refine .counter ?_
    split <;> rfl
  · exact .inl (of_setAll h)
  · exact .inl (of_setAll h)
  · next n f =>
    split at h
    · next hopen =>
      rw [if_pos hopen]
      exact hset (s := .function f) List.mem_cons_self rfl h
    · next hopen =>
      rw [if_neg hopen]
      exact .inl rfl
  · next n i vs =>
    cases he : vs[i]? with
    | none => exact .inl rfl
    | some e =>
      rw [he] at h
      dsimp only at h ⊢
      split at h
      · next hopen =>
        rw [if_pos hopen]
        refine hset (s := storedAt vs i) List.mem_cons_self ?_ h
        rw [storedAt, he]
        rfl
      · next hopen =>
        rw [if_neg hopen]
        exact .inl rfl
  · exact .inl rfl

/-! ## 3. Many steps -/

/-- The binding `id` got the type `t` from one of the events, with the types that there were then. -/
def CheckEnv.Origin (env : CheckEnv) (types : Types) (es : List Event) (id : BindingId) (t : Ty) : Prop :=
  ∃ before ev after, es = before ++ ev :: after ∧ env.Gives (env.run before types).2 ev id t

theorem CheckEnv.Origin.append {es : List Event} {t : Ty} (h : env.Origin types es id t)
    (more : List Event) : env.Origin types (es ++ more) id t := by
  obtain ⟨before, ev, after, rfl, hgives⟩ := h
  exact ⟨before, ev, after ++ more, by simp, hgives⟩

/-- **Where types come from.**  A type that is known after events was there before, or one of them has
given it. -/
theorem run_gives {es : List Event} (hfresh : ∀ ev ∈ es, ev.Fresh) (h : (env.run es types).2.of id ≠ .any) :
    (env.run es types).2.of id = types.of id ∨
      env.Origin types es id ((env.run es types).2.of id) := by
  induction es generalizing types with
  | nil => exact .inl rfl
  | cons ev es ih =>
    have hrun : (env.run (ev :: es) types).2 = (env.run es (env.retype types ev)).2 := rfl
    rw [hrun] at h ⊢
    rcases ih (fun e he => hfresh e (List.mem_cons_of_mem ev he)) h with heq | horigin
    · rw [heq] at h ⊢
      refine (retype_gives (hfresh ev List.mem_cons_self) h).imp_right fun hgives => ?_
      exact ⟨[], ev, es, rfl, hgives⟩
    · obtain ⟨before, e, after, rfl, hgives⟩ := horigin
      exact .inr ⟨ev :: before, e, after, rfl, hgives⟩

end

/-! ## 4. Reports on names -/

/-- No two nodes with one head. -/
theorem eq_of_head? {ns : List Node} (h : (headsIn ns).Nodup) {x y : Node} (hx : x ∈ ns) (hy : y ∈ ns)
    {p : Pos} (hxp : x.head? = some p) (hyp : y.head? = some p) : x = y := by
  induction ns with
  | nil => cases hx
  | cons nd ns ih =>
    have hsub : headsIn ns <+ headsIn (nd :: ns) := (List.sublist_cons_self nd ns).filterMap _
    have hfirst : ∀ {z : Node}, nd.head? = some p → z ∈ ns → z.head? ≠ some p := by
      intro z hnd hz hzp
      rw [headsIn, List.filterMap_cons_some hnd, List.nodup_cons] at h
      exact h.1 (List.mem_filterMap.mpr ⟨z, hz, hzp⟩)
    rcases List.mem_cons.mp hx with rfl | hx' <;> rcases List.mem_cons.mp hy with rfl | hy'
    · rfl
    · exact absurd hyp (hfirst hxp hy')
    · exact absurd hxp (hfirst hyp hx')
    · exact ih (hsub.nodup h) hx' hy'

section
variable {source uri : Text} {c : Chunk}

theorem events_fresh (h : parse source uri = .ok c) : ∀ ev ∈ c.events, ev.Fresh := by
  intro ev hev
  unfold Event.Fresh
  split
  · next p ns as vs =>
    exact fun n hn => (parse_local h (Chunk.stmt_of_event hev) n hn).2
  · trivial

/-- The stores to a binding that is not settled disagree. -/
theorem disagree_of_settled {id : BindingId} {b : Binding} (hb : c.bindings[id]? = some b)
    (h : (c.unsettled[id]?).getD false = false) :
    disagree ((c.storesTo id).map Stored.base?) = false := by
  obtain ⟨hlt, -⟩ := Array.getElem?_eq_some_iff.mp hb
  have hget : c.unsettled[id]? = some (disagree (storedIn c.stores id)) := by
    rw [Chunk.unsettled, Array.getElem?_ofFn, dif_pos hlt]
  rw [hget, Option.getD_some, storedIn_eq] at h
  exact h

/-- A report on the type of an operand that stands where a name does is on that name. -/
theorem mistyped_name (h : parse source uri = .ok c) {settings : CheckSettings} {m : Message}
    (hm : m ∈ (check settings c).messages) {op : Operation} {t : Ty} {subject : Option Subject}
    (hissue : m.issue = .mistyped op t subject) {n : Name} (hn : n ∈ c.names) (hpos : n.pos = m.pos) :
    let env : CheckEnv := ⟨settings, c.bindings, c.unsettled⟩
    ∃ before ev after, c.events = before ++ ev :: after ∧
      env.typeOf (env.run before c.initialTypes).2 n.binding ≠ .any ∧
      t.base? = (env.typeOf (env.run before c.initialTypes).2 n.binding).base? := by
  intro env
  obtain ⟨before, ev, after, hes, habout⟩ | ⟨_, _, _, _, _, rfl⟩ := check_report hm
  swap
  · cases hissue
  obtain ⟨types, htypes⟩ : ∃ types, types = (env.run before c.initialTypes).2 := ⟨_, rfl⟩
  rw [← htypes] at habout
  refine ⟨before, ev, after, hes, ?_⟩
  rw [← htypes]
  cases habout with
  | untyped | shadows | undefined | literal | division => cases hissue
  | @operand _ _ e _ he hknown ht =>
    have hev : ev ∈ c.events := by simp [hes]
    have hnode : .expr e ∈ c.walk := (c.events_of ev hev).nodes (operands_nodes he (mem_walkExpr e))
    obtain ⟨nd, hnd, hname⟩ := List.mem_filterMap.mp hn
    have hhead : nd.head? = some n.pos := by
      cases nd with
      | declared d =>
        cases hname
        rfl
      | expr d =>
        cases d <;> simp_all [Node.name?, Expr.name?, Node.head?, Expr.head?, Expr.pos]
      | _ => cases hname
    have heq : .expr e = nd := by
      refine eq_of_head? (parse_heads_nodup h) hnode hnd ?_ hhead
      rw [hpos]
      exact head?_of_infer env types hknown
    subst heq
    obtain ⟨rfl⟩ : e = .name n := by
      cases e <;> simp_all [Node.name?, Expr.name?]
    cases hissue
    refine ⟨hknown, ?_⟩
    rcases ht with rfl | rfl
    · rfl
    · exact base?_plain _

/-- **What a report on the type of a variable says.**  The variable has a class at that step: some step
before has given it, and the stores to it do not disagree. -/
theorem mistyped_origin (h : parse source uri = .ok c) {settings : CheckSettings} {m : Message}
    (hm : m ∈ (check settings c).messages) {op : Operation} {t : Ty} {subject : Option Subject}
    (hissue : m.issue = .mistyped op t subject) {n : Name} (hn : n ∈ c.names) (hpos : n.pos = m.pos)
    {b : Binding} (hb : c.bindings[n.binding]? = some b) (hlocal : b.kind ≠ .global) :
    ∃ base ty, t.base? = some base ∧ ty.base? = some base ∧
      disagree ((c.storesTo n.binding).map Stored.base?) = false ∧
      CheckEnv.Origin ⟨settings, c.bindings, c.unsettled⟩ c.initialTypes c.events n.binding ty := by
  obtain ⟨before, ev, after, hes, hknown, ht⟩ := mistyped_name h hm hissue hn hpos
  obtain ⟨env, henv⟩ : ∃ env : CheckEnv, env = ⟨settings, c.bindings, c.unsettled⟩ := ⟨_, rfl⟩
  rw [← henv] at hknown ht ⊢
  rw [CheckEnv.typeOf] at hknown ht
  split at hknown
  · exact absurd rfl hknown
  · next hsettled =>
    rw [if_neg hsettled] at ht
    rw [henv] at hsettled
    obtain ⟨base, hbase⟩ : ∃ base, ((env.run before c.initialTypes).2.of n.binding).base? = some base := by
      cases hty : (env.run before c.initialTypes).2.of n.binding <;>
        first | exact absurd hty hknown | exact ⟨_, rfl⟩
    refine ⟨base, _, ht.trans hbase, hbase, disagree_of_settled hb (by simpa using hsettled), ?_⟩
    have hfresh : ∀ e ∈ before, e.Fresh := fun e he => events_fresh h e (by simp [hes, he])
    rcases run_gives hfresh hknown with heq | horigin
    · -- no type of a local is known before the first step
      have hinitial : c.initialTypes.of n.binding = .any := by
        rw [Types.of, Chunk.initialTypes, Array.getElem?_map, hb]
        simp [Binding.isGlobal, hlocal]
      rw [heq] at hknown
      exact absurd hinitial hknown
    · rw [hes]
      exact horigin.append _

end

end LuaServer.Lua
