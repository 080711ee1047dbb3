/-
# What the checker reports fits the text

The steps of the checker look at nodes of the tree only (`Chunk.events_of`), and these stand at tokens.
So a report stands at a token and is no longer than its text, and it shows nothing but literals, numerals
and texts of tokens.  Of the types that the checker finds, the parameters of a function are the only part
that comes from the text.

Main results: `check_fits`, `check_types`.
-/
import LuaServer.Proofs.Places
import LuaServer.Proofs.Resolution
import LuaServer.Proofs.Standing
import LuaServer.Proofs.Steps

namespace LuaServer.Lua

/-! ## 1. The nodes of events -/

/-- The nodes of events stand at tokens. -/
def Heard (ts : List Token) (es : List Event) : Prop := ∀ ev ∈ es, Standing ts ev.nodes

section
variable {ts : List Token}

@[simp] theorem heard_cons {ev : Event} {es : List Event} :
    Heard ts (ev :: es) ↔ Standing ts ev.nodes ∧ Heard ts es := by simp [Heard]

theorem standing_walkExprs_cons {e : Expr} {es : List Expr} :
    Standing ts (walkExprs (e :: es)) ↔ Standing ts (walkExpr e) ∧ Standing ts (walkExprs es) := by
  simp [walkExprs]

end

/-! ## 2. Types -/

/-- The parameters of a type can be shown. -/
def Ty.Clean : Ty → Prop
  | .closure ps _ => ∀ p ∈ ps, LuaServer.Clean p
  | _ => True

/-- A type of which the parameters can be shown can be shown. -/
theorem Ty.Clean.text : ∀ {t : Ty}, t.Clean → LuaServer.Clean t.text
  | .closure ps more, h => by
    have hall : ∀ p ∈ ps ++ if more then [LuaServer.text "..."] else [], LuaServer.Clean p := by
      intro p hp
      rcases List.mem_append.mp hp with hp | hp
      · exact h p hp
      · cases more
        · cases hp
        · rw [List.mem_singleton.mp hp]
          exact clean_text _
    have hjoin := clean_join (clean_text ", ") hall
    simp only [Ty.text, clean_append, clean_text, hjoin, and_self]
  | .any, _ | .nil, _ | .boolean, _ | .integer, _ | .number, _ | .string, _ | .table, _
  | .function, _ => clean_text _

/-- The types of all bindings can be shown. -/
def Types.Clean (types : Types) : Prop := ∀ id, (types.of id).Clean

/-- The texts of tokens: a name is its own text, and a token other than the end has one. -/
structure Lexical (ts : List Token) : Prop where
  name : ∀ t ∈ ts, ∀ x, t.kind = .name x → t.text = x ∧ LuaServer.Clean x
  nonempty : ∀ t ∈ ts, t.kind ≠ .eof → 1 ≤ t.text.length

theorem Types.Clean.set {types : Types} (h : types.Clean) (id : BindingId) {t : Ty} (ht : t.Clean) :
    Types.Clean (types.setIfInBounds id t) := by
  intro i
  rw [Types.of, Array.getElem?_setIfInBounds]
  split
  · split
    · exact ht
    · trivial
  · exact h i

theorem Types.Clean.setAll {ns : List Name} {t : Ty} (ht : t.Clean) :
    ∀ {types : Types}, types.Clean →
      Types.Clean (ns.foldl (fun types n => types.setIfInBounds n.binding t) types) := by
  induction ns with
  | nil => exact id
  | cons n ns ih => exact fun h => ih (h.set n.binding ht)

section
variable {ts : List Token} {env : CheckEnv} {types : Types}

/-- A name at a token can be shown. -/
theorem Lexical.clean_name (hts : Lexical ts) {n : Name} (h : ∃ t ∈ ts, t.writes n) :
    LuaServer.Clean n.name := by
  obtain ⟨t, ht, hkind, -⟩ := h
  exact (hts.name t ht _ hkind).2

theorem clean_ofFunc (hts : Lexical ts) {f : FuncBody} (h : Standing ts (walkFunc f)) :
    (Ty.ofFunc f).Clean := by
  obtain ⟨p, ps, v, b⟩ := f
  obtain ⟨hps, -⟩ : (∀ n ∈ ps, ∃ t ∈ ts, t.writes n) ∧ Standing ts (walkBlock b) := by
    simp_all [walkFunc]
  intro x hx
  obtain ⟨n, hn, rfl⟩ := List.mem_map.mp hx
  exact hts.clean_name (hps n hn)

theorem clean_builtin (name : Text) : ((builtinType? name).getD .any).Clean := by
  unfold builtinType?
  repeat' split
  all_goals trivial

theorem clean_initialTypes (c : Chunk) : c.initialTypes.Clean := by
  intro id
  rw [Types.of, Chunk.initialTypes, Array.getElem?_map]
  cases c.bindings[id]? with
  | none => trivial
  | some b =>
    simp only [Option.map_some, Option.getD_some]
    split
    · exact clean_builtin _
    · trivial

theorem clean_binary (op : BinaryOp) (l r : Ty) : (op.result l r).Clean := by
  unfold BinaryOp.result
  repeat' split
  all_goals trivial

theorem clean_unary (op : UnaryOp) {t : Ty} (h : t.Clean) : (op.result t).Clean := by
  cases op with
  | neg =>
    rw [UnaryOp.result]
    split
    · exact h
    · trivial
  | _ => trivial

/-- The type of an expression can be shown. -/
theorem infer_clean (hts : Lexical ts) (htypes : types.Clean) :
    ∀ e : Expr, Standing ts (walkExpr e) → (env.infer types e).Clean
  | .nil _, _ | .boolean _ _, _ | .string _ _, _ | .table _ _, _ | .vararg _, _ | .index _ _ _, _
  | .call _ _ _, _ | .methodCall _ _ _ _, _ => trivial
  | .number _ v _, _ => by
    simp only [CheckEnv.infer]
    split <;> trivial
  | .function _ f, h => clean_ofFunc hts (by simp_all [walkExpr])
  | .paren _ e, h => infer_clean hts htypes e (by simp_all [walkExpr])
  | .name n, _ => by
    simp only [CheckEnv.infer, CheckEnv.typeOf]
    split
    · trivial
    · exact htypes n.binding
  | .unary _ op e, h => clean_unary op (infer_clean hts htypes e (by simp_all [walkExpr]))
  | .binary _ op l r, _ => clean_binary op _ _

theorem standing_getElem? {es : List Expr} (h : Standing ts (walkExprs es)) {i : Nat} {e : Expr}
    (he : es[i]? = some e) : Standing ts (walkExpr e) := by
  induction es generalizing i with
  | nil => cases he
  | cons d es ih =>
    obtain ⟨hd, hes⟩ := standing_walkExprs_cons.mp h
    cases i with
    | zero =>
      cases he
      exact hd
    | succ i => exact ih hes he

theorem assignTypes_clean (hts : Lexical ts) {vs : List Expr} (hvs : Standing ts (walkExprs vs)) :
    ∀ (ns : List Name) (i : Nat) {types : Types}, types.Clean →
      (env.assignTypes vs i ns types).Clean
  | [], _, _, h => h
  | n :: ns, i, types, h => by
    rw [CheckEnv.assignTypes]
    refine assignTypes_clean hts hvs ns (i + 1) (h.set n.binding ?_)
    split
    · next e he => exact infer_clean hts h e (standing_getElem? hvs he)
    · split <;> trivial

/-- An event keeps types such that they can be shown. -/
theorem retype_clean (hts : Lexical ts) (htypes : types.Clean) {ev : Event}
    (h : Standing ts ev.nodes) : (env.retype types ev).Clean := by
  unfold CheckEnv.retype
  split
  · next ns _ vs =>
    have hvs : Standing ts (walkExprs vs) := by simp_all [Event.nodes, walkStmt]
    exact assignTypes_clean hts hvs ns 0 htypes
  · next n f =>
    have hf : Standing ts (walkFunc f) := by simp_all [Event.nodes, walkStmt]
    exact htypes.set _ (clean_ofFunc hts hf)
  · refine htypes.set _ ?_
    split <;> trivial
  · exact htypes.setAll (t := .any) trivial
  · exact htypes.setAll (t := .any) trivial
  · next n f =>
    have hf : Standing ts (walkFunc f) := by simp_all [Event.nodes]
    split
    · exact htypes.set _ (clean_ofFunc hts hf)
    · exact htypes
  · next n i vs =>
    have hvs : Standing ts (walkExprs vs) := by simp_all [Event.nodes]
    split
    · next e he =>
      split
      · exact htypes.set _ (infer_clean hts htypes e (standing_getElem? hvs he))
      · exact htypes
    · exact htypes
  · exact htypes

/-- The types after events can be shown. -/
theorem run_clean (hts : Lexical ts) {es : List Event} (hes : Heard ts es) (h : types.Clean) :
    (env.run es types).2.Clean := by
  induction es generalizing types with
  | nil => exact h
  | cons ev es ih =>
    obtain ⟨hev, hrest⟩ := heard_cons.mp hes
    exact ih hrest (retype_clean hts h hev)

end

/-! ## 3. Reports -/

/-- A report stands at a token and is no longer than its text, and it can be shown. -/
structure Message.Fits (ts : List Token) (m : Message) : Prop where
  stands : ∃ t ∈ ts, t.pos = m.pos ∧ m.length ≤ t.text.length
  clean : Clean m.issue.message

section
variable {ts : List Token} {env : CheckEnv} {types : Types}

/-- A report on a name. -/
theorem fits_name (hts : Lexical ts) {n : Name} (h : ∃ t ∈ ts, t.writes n) {issue : Issue}
    (hclean : Clean n.name → Clean issue.message) : Message.Fits ts ⟨n.pos, n.name.length, issue⟩ := by
  refine ⟨?_, hclean (hts.clean_name h)⟩
  obtain ⟨t, ht, hkind, hpos⟩ := h
  exact ⟨t, ht, hpos, Nat.le_of_eq (congrArg List.length (hts.name t ht _ hkind).1.symm)⟩

/-- An expression at a token, with as much of it as a report concerns. -/
theorem Expr.At.stands (hts : Lexical ts) {e : Expr} (h : e.At ts) :
    ∃ t ∈ ts, t.pos = e.pos ∧ e.span ≤ t.text.length := by
  obtain ⟨t, ht, hpos, hkind, hshows⟩ := h
  refine ⟨t, ht, hpos, ?_⟩
  have hpositive := hts.nonempty t ht hkind
  cases e with
  | name n => exact Nat.le_of_eq (congrArg List.length (hts.name t ht _ hshows.1).1.symm)
  | _ => exact hpositive

theorem clean_subject (hts : Lexical ts) {e : Expr} (h : e.At ts) :
    Clean (((env.subject? e).map Subject.text).getD []) := by
  cases e with
  | name n =>
    obtain ⟨t, ht, -, -, hshows⟩ := h
    have hname := hts.clean_name ⟨t, ht, hshows⟩
    simp [CheckEnv.subject?, Expr.name?, Subject.text, hname]
  | _ => exact clean_nil

/-- A report on an operand. -/
theorem fits_mistyped (hts : Lexical ts) {op : Operation} {e : Expr} {t : Ty} (h : e.At ts)
    (ht : t.Clean) : (env.mistyped op e t).Fits ts := by
  refine ⟨h.stands hts, ?_⟩
  have hsubject : Clean (((env.subject? e).map Subject.text).getD []) := clean_subject hts h
  simp [CheckEnv.mistyped, Issue.message, ht.text, hsubject]

theorem clean_plain (t : Ty) : t.plain.Clean := by cases t <;> trivial

/-- The names that an event declares are written by tokens. -/
theorem declares_standing {ev : Event} (h : Standing ts ev.nodes) :
    ∀ n ∈ ev.declares, ∃ t ∈ ts, t.writes n := fun _ hn => h _ (declares_nodes hn)

/-- What an event reports fits the tokens. -/
theorem about_fits (hts : Lexical ts) (hclean : ∀ t ∈ ts, Clean t.text) (htypes : types.Clean)
    {ev : Event} (h : Standing ts ev.nodes) {m : Message} (hm : env.About types ev m) : m.Fits ts := by
  cases hm with
  | untyped hn =>
    exact fits_name hts (declares_standing h _ hn) fun hname => by simp [Issue.message, hname]
  | shadows hn =>
    refine fits_name hts (declares_standing h _ hn) fun hname => ?_
    simp only [Issue.message, clean_append, clean_text, clean_quoted, hname, true_and]
    split <;> simp
  | undefined =>
    obtain ⟨t, ht, -, -, hshows⟩ := h.head
    exact fits_name hts ⟨t, ht, hshows⟩ fun hname => by simp [Issue.message, hname]
  | literal =>
    obtain ⟨t, ht, hpos, -, -, hshows⟩ := h.head
    have htext := hclean t ht
    rw [hshows] at htext
    refine ⟨⟨t, ht, hpos, Nat.le_of_eq (congrArg List.length hshows.symm)⟩, ?_⟩
    simp [Issue.message, htext]
  | division => exact ⟨h.head.stands hts, clean_text _⟩
  | @operand _ _ e _ he _ ht =>
    have hstanding : Standing ts (walkExpr e) := fun nd hnd => h nd (operands_nodes he hnd)
    refine fits_mistyped hts hstanding.head ?_
    rcases ht with rfl | rfl
    · exact infer_clean hts htypes e hstanding
    · exact clean_plain _

end

/-! ## 4. Whole texts -/

section
variable {source uri : Text} {c : Chunk} {ts : List Token}

/-- A word can be shown. -/
theorem clean_word {x : Text} (h : x.all isNameChar = true) : Clean x := by
  intro c hc
  have hchar := List.all_eq_true.mp h c hc
  simp only [isNameChar, isNameStart, isDigit, Bool.or_eq_true, Bool.and_eq_true,
    decide_eq_true_eq] at hchar
  refine isSurrogate_eq_false.mpr (.inl ?_)
  rcases hchar with ((rfl | ⟨-, hle⟩) | ⟨-, hle⟩) | ⟨-, hle⟩
  · decide
  all_goals exact Nat.lt_of_le_of_lt hle (by decide)

theorem Lexes.lexical (h : Lexes .start source ts) : Lexical ts := by
  refine ⟨?_, ?_⟩
  · intro t ht x hx
    obtain ⟨htext, -, hword⟩ := h.name_text t ht x hx
    exact ⟨htext, clean_word hword⟩
  · intro t ht hkind
    obtain ⟨k, hk⟩ := h.located t ht
    exact List.length_pos_iff.mpr (hk.nonempty hkind)

/-- The events of a chunk that is read look at nodes that stand at tokens. -/
theorem events_heard (h : parse source uri = .ok c) :
    ∃ ts, Lexes .start source ts ∧ Heard ts c.events := by
  obtain ⟨ts, ms, next, σ, hlex, hreads, -⟩ := parse_sound h
  have hstanding : Standing ts (walkBlock c.body) := by
    refine hreads.standing fun t ht => ?_
    rw [hreads.tokens]
    exact List.mem_append_left next ht
  have hwalk : Standing ts c.walk := standing_cons.mpr ⟨trivial, hstanding⟩
  exact ⟨ts, hlex, fun ev hev nd hnd => hwalk nd ((c.events_of ev hev).nodes hnd)⟩

/-- The names of a chunk can be shown. -/
theorem names_clean (h : parse source uri = .ok c) : ∀ n ∈ c.names, Clean n.name := by
  obtain ⟨ts, ms, next, σ, hlex, hreads, -⟩ := parse_sound h
  intro n hn
  have hidents : c.names = idents ms := hreads.idents
  rw [hidents] at hn
  obtain ⟨m, hm, hn⟩ := List.mem_filterMap.mp hn
  have htoken : m.tok ∈ ts := by
    rw [hreads.tokens]
    exact List.mem_append_left next (List.mem_map_of_mem hm)
  exact hlex.lexical.clean_name ⟨m.tok, htoken, hreads.written m hm n hn⟩

/-- **The types of a chunk can be shown.** -/
theorem check_types (h : parse source uri = .ok c) (settings : CheckSettings) :
    (check settings c).types.Clean := by
  obtain ⟨ts, hlex, hheard⟩ := events_heard h
  show Types.Clean (CheckEnv.run ⟨settings, c.bindings, c.unsettled⟩ c.events c.initialTypes).2
  exact run_clean hlex.lexical hheard (clean_initialTypes c)

/-- **Every report of the checker fits the text.** -/
theorem check_fits (h : parse source uri = .ok c) (hsource : Clean source) (settings : CheckSettings) :
    ∃ ts, Lexes .start source ts ∧ ∀ m ∈ (check settings c).messages, m.Fits ts := by
  obtain ⟨ts, hlex, hheard⟩ := events_heard h
  have hclean : ∀ t ∈ ts, Clean t.text := by
    intro t ht
    obtain ⟨k, hk⟩ := hlex.located t ht
    exact hsource.subset hk.subset
  refine ⟨ts, hlex, fun m hm => ?_⟩
  obtain ⟨before, ev, after, hes, hm⟩ | ⟨ev, hev, n, hn, _, rfl⟩ := check_report hm
  · have hbefore : Heard ts before := fun ev hev => hheard ev (by simp [hes, hev])
    exact about_fits hlex.lexical hclean (run_clean hlex.lexical hbefore (clean_initialTypes c))
      (hheard ev (by simp [hes])) hm
  · refine fits_name hlex.lexical (declares_standing (hheard ev hev) n hn) fun hname => ?_
    simp [Issue.message, hname]

end

end LuaServer.Lua
