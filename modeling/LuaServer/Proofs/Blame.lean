/-
# Where the checker reports

A step of the checker reports on the names that it reads or declares, on the head of the node that it
visits, and, if that is an operation, on the heads of its operands.  Which of these depends on the tag of
the report alone (`Event.places`).  Over all steps no place comes twice for one tag: an operand is the
operand of one operation only, every node is visited once, and no two nodes have one head.

So the list of reports is in order, has no two reports of one tag at one place, and every report stands on
the line of a token.

Main result: `check_messages`.
-/
import LuaServer.Proofs.Findings
import LuaServer.Proofs.Heads
import LuaServer.Proofs.Lines
import LuaServer.Proofs.NameReports
import LuaServer.Proofs.Stretches

namespace LuaServer.Lua

open scoped List

/-! ## 1. The places of steps -/

/-- The head of the expression that a step visits. -/
def Event.head? : Event → Option Pos
  | .visit (.expr e) => e.head?
  | _ => none

/-- Where a step may report with a tag. -/
def Event.places (tag : String) (ev : Event) : List Pos :=
  if tag = "type" then ev.operands.filterMap Expr.head?
  else if tag = "integer" then ev.head?.toList
  else if tag = "undefined" then ev.read?.toList.map (·.pos)
  else ev.declares.map (·.pos)

/-- How many operands of steps have their head at a place. -/
def operandsAt (es : List Event) (q : Pos) : Nat :=
  ((es.flatMap Event.operands).filterMap Expr.head?).count q

/-- How many of the expressions that steps visit have their head at a place. -/
def visitsAt (es : List Event) (q : Pos) : Nat := (es.filterMap Event.head?).count q

section
variable (ev : Event) (es : List Event) (q : Pos)

@[simp] theorem operandsAt_nil : operandsAt [] q = 0 := rfl

@[simp] theorem visitsAt_nil : visitsAt [] q = 0 := rfl

@[simp] theorem operandsAt_cons :
    operandsAt (ev :: es) q = (ev.operands.filterMap Expr.head?).count q + operandsAt es q := by
  simp [operandsAt]

@[simp] theorem visitsAt_cons : visitsAt (ev :: es) q = ev.head?.toList.count q + visitsAt es q := by
  cases h : ev.head? <;> simp [visitsAt, h, List.count_cons, Nat.add_comm]

@[simp] theorem operandsAt_append (fs : List Event) :
    operandsAt (es ++ fs) q = operandsAt es q + operandsAt fs q := by
  simp [operandsAt]

@[simp] theorem visitsAt_append (fs : List Event) :
    visitsAt (es ++ fs) q = visitsAt es q + visitsAt fs q := by
  simp [visitsAt]

end

/-- The operands and the visited expressions of the steps for nodes have different heads among those of
the nodes, and an operand has none of `own`. -/
def Blamed (ns : List Node) (es : List Event) (own : List Pos) : Prop :=
  ∀ q, operandsAt es q + own.count q ≤ headsAt ns q ∧ visitsAt es q ≤ headsAt ns q

theorem count_filterMap_cons (e : Expr) (es : List Expr) (q : Pos) :
    ((e :: es).filterMap Expr.head?).count q = e.head?.toList.count q + (es.filterMap Expr.head?).count q := by
  cases h : e.head? <;> simp [h, List.count_cons, Nat.add_comm]

/-! ## 2. No place twice -/

mutual

theorem exprEvents_blamed : ∀ e : Expr, Blamed (walkExpr e) (exprEvents e) e.head?.toList
  | .name _ | .nil _ | .boolean _ _ | .number _ _ _ | .string _ _ | .vararg _ => by
    intro q
    simp [walkExpr, exprEvents, Event.operands, Event.head?]
  | .function _ f => by
    intro q
    have hf := funcEvents_blamed f q
    simp [walkExpr, exprEvents, Event.operands, Event.head?] at *
    omega
  | .table _ fs => by
    intro q
    have hfs := fieldsEvents_blamed fs q
    simp [walkExpr, exprEvents, Event.operands, Event.head?] at *
    omega
  | .binary _ _ l r => by
    intro q
    have hl := exprEvents_blamed l q
    have hr := exprEvents_blamed r q
    simp [walkExpr, exprEvents, Event.operands, Event.head?, count_filterMap_cons] at *
    omega
  | .unary _ _ x => by
    intro q
    have hx := exprEvents_blamed x q
    simp [walkExpr, exprEvents, Event.operands, Event.head?, count_filterMap_cons] at *
    omega
  | .paren _ x => by
    intro q
    have hx := exprEvents_blamed x q
    simp [walkExpr, exprEvents, Event.operands, Event.head?] at *
    omega
  | .index _ o k => by
    intro q
    have ho := exprEvents_blamed o q
    have hk := exprEvents_blamed k q
    simp [walkExpr, exprEvents, Event.operands, Event.head?, Expr.head?] at *
    omega
  | .call _ f as => by
    intro q
    have hf := exprEvents_blamed f q
    have has := exprsEvents_blamed as q
    simp [walkExpr, exprEvents, Event.operands, Event.head?, Expr.head?, count_filterMap_cons] at *
    omega
  | .methodCall _ o _ as => by
    intro q
    have ho := exprEvents_blamed o q
    have has := exprsEvents_blamed as q
    simp [walkExpr, exprEvents, Event.operands, Event.head?, Expr.head?] at *
    omega

theorem exprsEvents_blamed : ∀ es : List Expr, Blamed (walkExprs es) (exprsEvents es) []
  | [] => fun _ => by simp [walkExprs, exprsEvents]
  | e :: es => by
    intro q
    have he := exprEvents_blamed e q
    have hes := exprsEvents_blamed es q
    simp [walkExprs, exprsEvents] at *
    omega

theorem expr?Events_blamed : ∀ e : Option Expr, Blamed (walkExpr? e) (expr?Events e) []
  | none => fun _ => by simp [walkExpr?, expr?Events]
  | some e => by
    intro q
    have he := exprEvents_blamed e q
    simp [walkExpr?, expr?Events] at *
    omega

theorem fieldsEvents_blamed : ∀ fs : List TableField, Blamed (walkFields fs) (fieldsEvents fs) []
  | [] => fun _ => by simp [walkFields, fieldsEvents]
  | .mk _ k v :: fs => by
    intro q
    have hk := expr?Events_blamed k q
    have hv := exprEvents_blamed v q
    have hfs := fieldsEvents_blamed fs q
    simp [walkFields, fieldsEvents, Event.operands, Event.head?] at *
    omega

theorem funcEvents_blamed : ∀ f : FuncBody, Blamed (walkFunc f) (funcEvents f) []
  | .mk _ ps _ b => by
    intro q
    have hb := blockEvents_blamed b q
    simp [walkFunc, funcEvents, Event.operands, Event.head?] at *
    omega

theorem blockEvents_blamed : ∀ b : Block, Blamed (walkBlock b) (blockEvents b) []
  | .mk _ ss => by
    intro q
    have hss := stmtsEvents_blamed ss q
    simp [walkBlock, blockEvents, Event.operands, Event.head?] at *
    omega

theorem block?Events_blamed : ∀ b : Option Block, Blamed (walkBlock? b) (block?Events b) []
  | none => fun _ => by simp [walkBlock?, block?Events]
  | some b => blockEvents_blamed b

theorem stmtsEvents_blamed : ∀ ss : List Stmt, Blamed (walkStmts ss) (stmtsEvents ss) []
  | [] => fun _ => by simp [walkStmts, stmtsEvents]
  | s :: ss => by
    intro q
    have hs := stmtEvents_blamed s q
    have hss := stmtsEvents_blamed ss q
    simp [walkStmts, stmtsEvents] at *
    omega

theorem clausesEvents_blamed : ∀ cs : List IfClause, Blamed (walkClauses cs) (clausesEvents cs) []
  | [] => fun _ => by simp [walkClauses, clausesEvents]
  | .mk _ c b :: cs => by
    intro q
    have hc := exprEvents_blamed c q
    have hb := blockEvents_blamed b q
    have hcs := clausesEvents_blamed cs q
    simp [walkClauses, clausesEvents, Event.operands, Event.head?] at *
    omega

/-- A plain target is not visited. -/
theorem targetsEvents_blamed (vs : List Expr) : ∀ (i : Nat) (ts : List Expr),
    Blamed (walkExprs ts) (targetsEvents vs i ts) []
  | _, [] => fun _ => by simp [walkExprs, targetsEvents]
  | i, t :: ts => by
    intro q
    have ht := exprEvents_blamed t q
    have hts := targetsEvents_blamed vs (i + 1) ts q
    cases t <;> simp [walkExprs, targetsEvents, Event.operands, Event.head?] at * <;> omega

theorem stmtEvents_blamed (s : Stmt) : Blamed (walkStmt s) (stmtEvents s) [] := by
  intro q
  cases s with
  | «local» _ ns _ vs =>
    have hvs := exprsEvents_blamed vs q
    simp [walkStmt, stmtEvents, Event.operands, Event.head?] at *
    omega
  | assign _ ts vs =>
    have hts := targetsEvents_blamed vs 0 ts q
    have hvs := exprsEvents_blamed vs q
    simp [walkStmt, stmtEvents, Event.operands, Event.head?] at *
    omega
  | call _ e =>
    have he := exprEvents_blamed e q
    simp [walkStmt, stmtEvents, Event.operands, Event.head?] at *
    omega
  | «do» _ b =>
    have hb := blockEvents_blamed b q
    simp [walkStmt, stmtEvents, Event.operands, Event.head?] at *
    omega
  | «while» _ c b =>
    have hc := exprEvents_blamed c q
    have hb := blockEvents_blamed b q
    simp [walkStmt, stmtEvents, Event.operands, Event.head?] at *
    omega
  | «repeat» _ b c =>
    have hb := blockEvents_blamed b q
    have hc := exprEvents_blamed c q
    simp [walkStmt, stmtEvents, Event.operands, Event.head?] at *
    omega
  | «if» _ cs o =>
    have hcs := clausesEvents_blamed cs q
    have ho := block?Events_blamed o q
    simp [walkStmt, stmtEvents, Event.operands, Event.head?] at *
    omega
  | numericFor _ _ a b c body =>
    have ha := exprEvents_blamed a q
    have hb := exprEvents_blamed b q
    have hc := expr?Events_blamed c q
    have hbody := blockEvents_blamed body q
    simp [walkStmt, stmtEvents, Event.operands, Event.head?] at *
    omega
  | genericFor _ _ vs body =>
    have hvs := exprsEvents_blamed vs q
    have hbody := blockEvents_blamed body q
    simp [walkStmt, stmtEvents, Event.operands, Event.head?] at *
    omega
  | function _ t f _ =>
    have ht := exprEvents_blamed t q
    have hf := funcEvents_blamed f q
    cases t <;> simp [walkStmt, stmtEvents, Event.operands, Event.head?] at * <;> omega
  | localFunction _ _ f =>
    have hf := funcEvents_blamed f q
    simp [walkStmt, stmtEvents, Event.operands, Event.head?] at *
    omega
  | «return» _ vs =>
    have hvs := exprsEvents_blamed vs q
    simp [walkStmt, stmtEvents, Event.operands, Event.head?] at *
    omega
  | _ => simp [walkStmt, stmtEvents, Event.operands, Event.head?]

end

/-- No two steps have one place for one tag. -/
theorem parse_places_nodup {source uri : Text} {c : Chunk} (h : parse source uri = .ok c) (tag : String) :
    (c.events.flatMap (Event.places tag)).Nodup := by
  have hblamed : ∀ q, operandsAt c.events q ≤ headsAt c.walk q ∧ visitsAt c.events q ≤ headsAt c.walk q := by
    intro q
    simpa [Chunk.events, Chunk.walk, Event.operands, Event.head?] using blockEvents_blamed c.body q
  have hheads : ∀ q, headsAt c.walk q ≤ 1 := List.nodup_iff_count_le_one.mp (parse_heads_nodup h)
  obtain ⟨used, entered, ha⟩ := c.told
  have hnodup := (ha.names.map (·.pos)).nodup_iff.mpr (parse_names_nodup h)
  rw [List.map_append, List.map_append, List.nodup_append'] at hnodup
  obtain ⟨hused, hentered, -⟩ := hnodup
  unfold Event.places
  split
  · rw [← List.filterMap_flatMap]
    exact List.nodup_iff_count_le_one.mpr fun q => Nat.le_trans (hblamed q).1 (hheads q)
  · split
    · rw [← List.filterMap_eq_flatMap_toList]
      exact List.nodup_iff_count_le_one.mpr fun q => Nat.le_trans (hblamed q).2 (hheads q)
    · split
      · rw [← List.map_flatMap, ← List.filterMap_eq_flatMap_toList]
        exact hused.of_append_left
      · rw [← List.map_flatMap]
        refine ((ha.declares.map (·.pos)).nodup_iff).mpr ?_
        exact ((List.filter_sublist.map _).map _).nodup hentered

/-! ## 3. The reports of a step -/

/-- The reports of each tag stand at different ones of the places for it. -/
def Spread (places : String → List Pos) (ms : List Message) : Prop :=
  ∀ tag, (reportsOf tag ms).map (·.pos) <+ places tag

namespace Spread

variable {places : String → List Pos} {ms ns : List Message} {tag : String}

theorem nil : Spread places [] := fun _ => List.nil_sublist _

/-- Further reports, all of them of a new tag. -/
theorem append (h : Spread places ms) (hms : ∀ m ∈ ms, m.issue.tag ≠ tag)
    (hns : ∀ m ∈ ns, m.issue.tag = tag) (hplaces : ns.map (·.pos) <+ places tag) :
    Spread places (ms ++ ns) := by
  intro t
  rw [reportsOf_append, reportsOf_eq hns]
  by_cases ht : tag = t
  · subst ht
    have hnone : reportsOf tag ms = [] := List.filter_eq_nil_iff.mpr fun m hm => by simp [hms m hm]
    rwa [if_pos rfl, hnone, List.nil_append]
  · rw [if_neg ht, List.append_nil]
    exact h t

/-- Reports of one tag. -/
theorem of_tag (hms : ∀ m ∈ ms, m.issue.tag = tag) (hplaces : ms.map (·.pos) <+ places tag) :
    Spread places ms :=
  nil.append nofun hms hplaces

end Spread

section
variable (env : CheckEnv) (types : Types)

/-- Only an expression with a head of its own has a type that is known. -/
theorem head?_of_infer {e : Expr} (h : env.infer types e ≠ .any) : e.head? = some e.pos := by
  cases e <;> first | rfl | exact absurd rfl h

theorem operands_places (op : Operation) {wrong : Ty → Bool} (hwrong : wrong .any = false)
    (es : List Expr) : (env.operands types op wrong es).map (·.pos) <+ es.filterMap Expr.head? := by
  induction es with
  | nil => exact .slnil
  | cons e es ih =>
    have hcons : env.operands types op wrong (e :: es)
        = (if wrong (env.infer types e).plain then [env.mistyped op e (env.infer types e).plain] else [])
          ++ env.operands types op wrong es := by
      simp only [CheckEnv.operands, List.filterMap_cons]
      split <;> simp_all
    rw [hcons]
    split
    · next hty =>
      have hhead : e.head? = some e.pos := by
        refine head?_of_infer env types fun hany => ?_
        rw [hany] at hty
        exact absurd (hty.symm.trans hwrong) (by decide)
      rw [List.filterMap_cons_some hhead]
      exact ih.cons_cons e.pos
    · refine ih.trans ?_
      rw [← List.singleton_append, List.filterMap_append]
      exact List.sublist_append_right ..

theorem filterMap_places {f : Name → Option Message} (hf : ∀ n m, f n = some m → m.pos = n.pos)
    (ns : List Name) : (ns.filterMap f).map (·.pos) <+ ns.map (·.pos) := by
  induction ns with
  | nil => exact .slnil
  | cons n ns ih =>
    cases hn : f n with
    | none =>
      rw [List.filterMap_cons_none hn]
      exact ih.cons n.pos
    | some m =>
      rw [List.filterMap_cons_some hn, List.map_cons, List.map_cons, hf n m hn]
      exact ih.cons_cons n.pos

theorem pos_shadowing (n : Name) (m : Message) (h : env.shadowing n = some m) : m.pos = n.pos := by
  obtain ⟨line, rfl⟩ := CheckEnv.of_shadowing h
  rfl

theorem pos_unusedReport (n : Name) (m : Message) (h : env.unusedReport n = some m) : m.pos = n.pos := by
  obtain ⟨isFunction, rfl⟩ := CheckEnv.of_unusedReport h
  rfl

/-- A step reports with each tag at its places for that tag. -/
theorem report_spread (ev : Event) : Spread (ev.places ·) (env.report types ev) := by
  -- what comes before the reports on names that hide others, all of it with the tag `tag`
  have hmask : ∀ (tag : String) {ms : List Message}, (∀ m ∈ ms, m.issue.tag = tag) → tag ≠ "mask" →
      ms.map (·.pos) <+ ev.places tag →
      Spread (ev.places ·) (ms ++ ev.declares.filterMap env.shadowing) := by
    intro tag ms htag hne hplaces
    refine (Spread.of_tag htag hplaces).append (fun m hm => ?_) (tag_shadowing env ev.declares)
      (filterMap_places (pos_shadowing env) ev.declares)
    rw [htag m hm]
    exact hne
  unfold CheckEnv.report
  split
  · next ns _ vs =>
    refine hmask "any" (tag_untyped env vs ns) (by decide) ?_
    rw [CheckEnv.untyped]
    split
    · rw [List.map_map]
      exact .refl _
    · exact List.nil_sublist _
  · next n =>
    refine hmask "undefined" (fun m hm => ?_) (by decide) ?_
    · split at hm
      · split at hm
        · obtain rfl := List.mem_singleton.mp hm
          rfl
        · cases hm
      · cases hm
    · split
      · split
        · simp [Event.places, Expr.name?]
        · exact List.nil_sublist _
      · exact List.nil_sublist _
  · next p v source =>
    refine hmask "integer" (fun m hm => ?_) (by decide) ?_
    · split at hm
      · obtain rfl := List.mem_singleton.mp hm
        rfl
      · cases hm
    · split
      · simp [Event.places, Event.head?, Expr.head?, Expr.pos]
      · exact List.nil_sublist _
  · next p op l r =>
    obtain ⟨division, hdivision⟩ : ∃ ms : List Message, ms
        = if env.settings.integer && op = .div then [⟨p, 1, .floatDivision⟩] else [] := ⟨_, rfl⟩
    obtain ⟨operands, hoperands⟩ : ∃ ms : List Message, ms
        = if op.isArithmetic then env.operands types .arithmetic Ty.notArithmetic [l, r]
          else if op.isBitwise then env.operands types .bitwise Ty.notArithmetic [l, r]
          else if op = .concat then env.operands types .concatenate Ty.notConcatenable [l, r]
          else [] := ⟨_, rfl⟩
    have hinteger : (∀ m ∈ division, m.issue.tag = "integer") ∧ division.map (·.pos) <+ [p] := by
      rw [hdivision]
      split <;> simp [Issue.tag]
    have htype : (∀ m ∈ operands, m.issue.tag = "type") ∧
        operands.map (·.pos) <+ [l, r].filterMap Expr.head? := by
      rw [hoperands]
      repeat' split
      · exact ⟨tag_operands env types _ _ _, operands_places env types _ rfl _⟩
      · exact ⟨tag_operands env types _ _ _, operands_places env types _ rfl _⟩
      · exact ⟨tag_operands env types _ _ _, operands_places env types _ rfl _⟩
      · exact ⟨by simp, List.nil_sublist _⟩
    rw [← hdivision, ← hoperands]
    refine ((Spread.of_tag hinteger.1 hinteger.2).append (fun m hm => ?_) htype.1 htype.2).append
      (fun m hm => ?_) (tag_shadowing env _) (List.nil_sublist _)
    · rw [hinteger.1 m hm]
      decide
    · rcases List.mem_append.mp hm with hm | hm
      · rw [hinteger.1 m hm]
        decide
      · rw [htype.1 m hm]
        decide
  · next p op e =>
    refine hmask "type" (fun m hm => ?_) (by decide) ?_
    · split at hm
      · exact tag_operands env types _ _ _ m hm
      · cases hm
    · split
      · exact operands_places env types .arithmetic rfl [e]
      · exact List.nil_sublist _
  · next p f as =>
    dsimp only
    refine hmask "type" (fun m hm => ?_) (by decide) ?_
    · split at hm
      · obtain rfl := List.mem_singleton.mp hm
        rfl
      · cases hm
    · split
      · next hty =>
        have hhead : f.head? = some f.pos := by
          refine head?_of_infer env types fun hany => ?_
          rw [hany] at hty
          cases hty
        simp [Event.places, Event.operands, hhead, CheckEnv.mistyped]
      · exact List.nil_sublist _
  · exact hmask "any" (by simp) (by decide) (List.nil_sublist _)

/-- Over a list of steps, the reports with a tag stand at the places for it. -/
theorem run_spread (es : List Event) :
    Spread (fun tag => es.flatMap (Event.places tag)) (env.run es types).1 := by
  induction es generalizing types with
  | nil => exact .nil
  | cons ev es ih =>
    intro tag
    have hrun : (env.run (ev :: es) types).1
        = env.report types ev ++ (env.run es (env.retype types ev)).1 := rfl
    dsimp only
    rw [hrun, reportsOf_append, List.map_append, List.flatMap_cons]
    exact (report_spread env types ev tag).append (ih (env.retype types ev) tag)

end

/-! ## 4. The tokens of reports -/

/-- A report concerns the front of a token, on one line. -/
def Message.InToken (ts : List Token) (m : Message) : Prop :=
  ∃ t ∈ ts, t.pos = m.pos ∧ 1 ≤ m.length ∧ m.length ≤ t.text.length ∧ code '\n' ∉ t.text.take m.length

section
variable {source : Text} {ts : List Token} {env : CheckEnv} {types : Types} {issue : Issue}

theorem inToken_name (hlex : Lexes .start source ts) {n : Name} (h : ∃ t ∈ ts, t.writes n) :
    Message.InToken ts ⟨n.pos, n.name.length, issue⟩ := by
  obtain ⟨t, ht, hkind, hpos⟩ := h
  obtain ⟨htext, hne, -⟩ := hlex.name_text t ht _ hkind
  have hline := hlex.newline_notMem_name t ht _ hkind
  refine ⟨t, ht, hpos, List.length_pos_iff.mpr hne, Nat.le_of_eq (by rw [htext]), fun hin => ?_⟩
  exact hline (List.mem_of_mem_take hin)

theorem inToken_one (hlex : Lexes .start source ts) {e : Expr} (h : e.At ts) :
    Message.InToken ts ⟨e.pos, 1, issue⟩ := by
  obtain ⟨t, ht, hpos, hkind, -⟩ := h
  obtain ⟨hlength, hline⟩ := hlex.first t ht hkind
  exact ⟨t, ht, hpos, Nat.le_refl 1, hlength, hline⟩

theorem inToken_expr (hlex : Lexes .start source ts) {e : Expr} (h : e.At ts) :
    Message.InToken ts ⟨e.pos, e.span, issue⟩ := by
  cases e with
  | name n =>
    obtain ⟨t, ht, -, -, hshows⟩ := h
    exact inToken_name hlex ⟨t, ht, hshows⟩
  | _ => exact inToken_one hlex h

/-- The reports of a step concern fronts of tokens. -/
theorem about_inToken (hlex : Lexes .start source ts) {ev : Event} (h : Standing ts ev.nodes) {m : Message}
    (hm : env.About types ev m) : m.InToken ts := by
  cases hm with
  | untyped hn | shadows hn => exact inToken_name hlex (declares_standing h _ hn)
  | undefined =>
    obtain ⟨t, ht, -, -, hshows⟩ := h.head
    exact inToken_name hlex ⟨t, ht, hshows⟩
  | literal =>
    obtain ⟨t, ht, hpos, hkind, hnumber, htext⟩ := h.head
    obtain ⟨hlength, -⟩ := hlex.first t ht hkind
    have hline := hlex.newline_notMem_number t ht _ hnumber
    rw [htext] at hlength
    refine ⟨t, ht, hpos, hlength, Nat.le_of_eq (by rw [htext]), fun hin => ?_⟩
    exact hline (List.mem_of_mem_take hin)
  | division => exact inToken_one hlex h.head
  | @operand _ _ e _ he =>
    have hstanding : Standing ts (walkExpr e) := fun nd hnd => h nd (operands_nodes he hnd)
    exact inToken_expr hlex hstanding.head

end

/-! ## 5. All reports -/

section
variable {source uri : Text} {c : Chunk}

/-- The reports of a check before they are put in order. -/
def reportsBefore (settings : CheckSettings) (c : Chunk) : List Message :=
  let env : CheckEnv := ⟨settings, c.bindings, c.unsettled⟩
  (env.run c.events c.initialTypes).1
    ++ if settings.unused then (declaresIn c.events).filterMap env.unusedReport else []

theorem check_perm (settings : CheckSettings) (c : Chunk) :
    (check settings c).messages ~ reportsBefore settings c :=
  List.mergeSort_perm _ _

/-- A check reports with each tag at no place twice. -/
theorem check_apart (h : parse source uri = .ok c) (settings : CheckSettings) (tag : String) :
    ((reportsOf tag (check settings c).messages).map (·.pos)).Nodup := by
  obtain ⟨env, henv⟩ : ∃ env : CheckEnv, env = ⟨settings, c.bindings, c.unsettled⟩ := ⟨_, rfl⟩
  obtain ⟨unused, hunused⟩ : ∃ unused, unused
      = if settings.unused then (declaresIn c.events).filterMap env.unusedReport else [] := ⟨_, rfl⟩
  have hms : (check settings c).messages ~ (env.run c.events c.initialTypes).1 ++ unused := by
    rw [hunused, henv]
    exact check_perm settings c
  have htag : ∀ m ∈ unused, m.issue.tag = "unused" := by
    intro m hm
    rw [hunused] at hm
    split at hm
    · exact tag_unused env _ m hm
    · cases hm
  have hplaces : unused.map (·.pos) <+ c.events.flatMap (Event.places "unused") := by
    have hdeclares : c.events.flatMap (Event.places "unused") = (declaresIn c.events).map (·.pos) :=
      List.map_flatMap.symm
    rw [hunused, hdeclares]
    split
    · exact filterMap_places (pos_unusedReport env) _
    · exact List.nil_sublist _
  have hrun := run_spread env c.initialTypes c.events
  have hnone : ∀ m ∈ (env.run c.events c.initialTypes).1, m.issue.tag ≠ "unused" := by
    have hreports := (reportsOf_run env c.initialTypes c.events).1
    intro m hm heq
    have hin : m ∈ reportsOf "unused" (env.run c.events c.initialTypes).1 :=
      List.mem_filter.mpr ⟨hm, by simp [heq]⟩
    rw [hreports] at hin
    cases hin
  have hspread := hrun.append hnone htag hplaces tag
  exact ((hms.filter _).map _).nodup_iff.mpr (hspread.nodup (parse_places_nodup h tag))

/-- Reports that have no place twice for any tag. -/
theorem nodup_of_reportsOf {ms : List Message}
    (h : ∀ tag, ((reportsOf tag ms).map (·.pos)).Nodup) : (ms.map fun m => (m.pos, m.issue.tag)).Nodup := by
  rw [List.Nodup, List.pairwise_map, List.pairwise_iff_getElem]
  intro i j hi hj hij heq
  obtain ⟨hpos, htag⟩ := Prod.mk.inj heq
  have hpair := h (ms[i]).issue.tag
  rw [List.Nodup, List.pairwise_map, reportsOf, List.pairwise_filter, List.pairwise_iff_getElem] at hpair
  exact hpair i j hi hj hij (by simp) (by simp [htag]) hpos

/-- The reports of a check come in the order of their places. -/
theorem check_ordered (settings : CheckSettings) (c : Chunk) :
    (check settings c).messages.Pairwise fun a b => a.pos.le b.pos = true := by
  have htotal : ∀ a b : Message, (a.pos.le b.pos || b.pos.le a.pos) = true := by
    intro a b
    simp only [Bool.or_eq_true, Pos.le_iff]
    omega
  have hsorted : ∀ ms : List Message,
      (ms.mergeSort fun a b => a.pos.le b.pos).Pairwise fun a b => a.pos.le b.pos = true :=
    List.pairwise_mergeSort (fun _ _ _ hab hbc => Pos.le_trans hab hbc) htotal
  exact hsorted _

/-- The reports of a check concern fronts of tokens. -/
theorem check_inToken (h : parse source uri = .ok c) (settings : CheckSettings) :
    ∃ ts, Lexes .start source ts ∧ ∀ m ∈ (check settings c).messages, m.InToken ts := by
  obtain ⟨ts, hlex, hheard⟩ := events_heard h
  refine ⟨ts, hlex, fun m hm => ?_⟩
  obtain ⟨before, ev, after, hes, hm⟩ | ⟨ev, hev, n, hn, _, rfl⟩ := check_report hm
  · exact about_inToken hlex (hheard ev (by simp [hes])) hm
  · exact inToken_name hlex (declares_standing (hheard ev hev) n hn)

theorem Message.InToken.within {ts : List Token} {m : Message} (hm : m.InToken ts)
    (hlex : Lexes .start source ts) : (spanFrom m.pos m.length).Within source := by
  obtain ⟨t, ht, hpos, hone, hlength, hline⟩ := hm
  obtain ⟨line, hget, hend⟩ := hlex.inLine ht hlength hline
  rw [hpos] at hget hend
  exact ⟨rfl, by simp only [spanFrom]; omega, line, hget, hend⟩

/-- The stretch of a diagnostic is that of the report of which it is made. -/
theorem span_ofFinding {m : Message} {d : Diagnostic} (hone : 1 ≤ m.length)
    (h : Diagnostic.ofFinding (.ofMessage m) = .ok d) : d.span = spanFrom m.pos m.length := by
  obtain ⟨span, hspan, rfl⟩ := ofFinding_ok h
  rw [spanAt] at hspan
  rcases span_make_cases (max (m.pos.line - 1) 0) (max (m.pos.column - 1) 0) (max m.length 1) with
    ⟨-, hmade⟩ | ⟨-, c, v, hout⟩
  · obtain rfl := Except.ok.inj (hmade.symm.trans hspan)
    simp only [spanFrom, Span.mk.injEq, Position.mk.injEq]
    omega
  · cases hout.symm.trans hspan

/-- **The reports of a check are well formed.**  They come in the order of their places, and no two of
them have one place and one tag.  Each concerns at least one code point at the front of a token, all of
them on one line.  So the range that is published for it is a part of a line of the text and not empty;
and one is published if the places of the text can be sent. -/
theorem check_messages (h : parse source uri = .ok c) (settings : CheckSettings) :
    let ms := (check settings c).messages
    (ms.Pairwise fun a b => a.pos.le b.pos = true) ∧ (ms.map fun m => (m.pos, m.issue.tag)).Nodup ∧
    ∃ ts, tokenize source = .ok ts ∧ ∀ m ∈ ms,
      (∃ t ∈ ts, t.pos = m.pos ∧ 1 ≤ m.length ∧ m.length ≤ t.text.length ∧
        code '\n' ∉ t.text.take m.length) ∧
      (∀ d, Diagnostic.ofFinding (.ofMessage m) = .ok d → d.span.Within source) ∧
      (Sendable source → ∃ d, Diagnostic.ofFinding (.ofMessage m) = .ok d) := by
  intro ms
  obtain ⟨ts, hlex, htokens⟩ := check_inToken h settings
  refine ⟨check_ordered settings c, nodup_of_reportsOf (check_apart h settings), ts,
    tokensFrom_iff.mpr hlex, fun m hm => ⟨htokens m hm, fun d hd => ?_, fun hsend => ?_⟩⟩
  · obtain ⟨t, -, -, hone, -⟩ := htokens m hm
    rw [span_ofFinding hone hd]
    exact (htokens m hm).within hlex
  · obtain ⟨t, ht, hpos, -, hlength, -⟩ := htokens m hm
    obtain ⟨hone, hline, hcolumn⟩ := hsend.token hlex ht hpos hlength
    have hspan := spanAt_eq m.length hone hline hcolumn
    exact ⟨.ofMessage m, by rw [Diagnostic.ofFinding, Finding.ofMessage, hspan]; rfl⟩

end

/-- In `local s = a.b + (1)('x')` on two lines the right operand of `+` has no report, as its type is not
known, but what it calls has one of the kind `type`, and the local has one of the kind `unused`. -/
theorem check_messages_operand :
    ∃ c, parse (text "local s = a.b\n+ (1)('x')") [] = .ok c ∧
      (check ⟨false, false, true⟩ c).messages.map (fun m => (m.pos, m.length, m.issue.tag))
        ~ [(⟨2, 3⟩, 1, "type"), (⟨1, 7⟩, 1, "unused")] ∧
      ((check ⟨false, false, true⟩ c).messages.map fun m => (m.pos, m.issue.tag)).Nodup ∧
      ∀ m ∈ (check ⟨false, false, true⟩ c).messages, ∀ d,
        Diagnostic.ofFinding (.ofMessage m) = .ok d → d.span.Within (text "local s = a.b\n+ (1)('x')") := by
  have hrun : (parse (text "local s = a.b\n+ (1)('x')") []).toOption.map (fun c =>
      (reportsBefore ⟨false, false, true⟩ c).map fun m => (m.pos, m.length, m.issue.tag))
      = some [(⟨2, 3⟩, 1, "type"), (⟨1, 7⟩, 1, "unused")] := by decide +kernel
  cases h : parse (text "local s = a.b\n+ (1)('x')") [] with
  | error e =>
    rw [h] at hrun
    cases hrun
  | ok c =>
    obtain ⟨-, hnodup, ts, -, hms⟩ := check_messages h ⟨false, false, true⟩
    have hperm := (check_perm ⟨false, false, true⟩ c).map fun m => (m.pos, m.length, m.issue.tag)
    rw [h] at hrun
    simp only [Except.toOption, Option.map_some, Option.some.injEq] at hrun
    rw [hrun] at hperm
    exact ⟨c, rfl, hperm, hnodup, fun m hm => (hms m hm).2.1⟩

end LuaServer.Lua
