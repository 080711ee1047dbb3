/-
# Layers of settings

Each value that a client sends for its settings is a layer over the ones before: what it gives a name
replaces what the name had, and a null gives nothing (`given?`).  The names keep the places at which they
first got a value.

The settings for analysis are validated.  The loop that drops what is invalid and validates again comes to
an end after one round, because it drops all that is invalid and nothing else, so each of the settings for
analysis depends on its own name only (`analysisOf_eq`).

A session that keeps the last validated settings until the next layer comes (`KeptSettings`) answers as one
that validates them each time.  The invariant is that what is kept is what would be computed.

Main result: `settings_layered`.
-/
import Mathlib.Data.List.Forall2
import LuaServer.Proofs.LastWriter

namespace LuaServer

open Lua (CheckSettings)

variable {σ τ : Type}

/-! ## 1. Validation -/

section
variable {settings : Members} {name : Text}

theorem get?_without (names : List Text) (name : Text) : ∀ settings : Members,
    Table.get? name (without names settings) = if name ∈ names then none else Table.get? name settings
  | [] => by simp [without, Table.get?]
  | (n, v) :: settings => by
    have ih := get?_without names name settings
    rw [without] at ih ⊢
    by_cases hn : n ∈ names
    · rw [List.filter_cons_of_neg (by simpa using hn), ih, Table.get?]
      split
      · rfl
      · next hname =>
        rw [if_neg]
        rintro rfl
        exact hname hn
    · rw [List.filter_cons_of_pos (by simpa using hn), Table.get?, Table.get?, ih]
      by_cases hname : n = name
      · subst hname
        simp [hn]
      · simp [hname]

theorem mem_invalidNames : name ∈ invalidNames settings ↔
    name ∈ analysisNames ∧ (Table.get? name settings).any isNotBoolean = true := by
  rw [invalidNames, List.mem_filter]

/-- What is invalid is present. -/
theorem invalidNames_filter_keys :
    (invalidNames settings).filter (· ∈ Table.keys settings) = invalidNames settings := by
  refine List.filter_eq_self.mpr fun name hname => ?_
  obtain ⟨v, hv, -⟩ := (Option.any_eq_true _ _).mp (mem_invalidNames.mp hname).2
  exact decide_eq_true (Table.mem_keys.mpr ⟨v, hv⟩)

/-- Nothing is invalid once that is dropped. -/
theorem invalidNames_without : invalidNames (without (invalidNames settings) settings) = [] := by
  refine List.eq_nil_iff_forall_not_mem.mpr fun name hname => ?_
  obtain ⟨hmem, hany⟩ := mem_invalidNames.mp hname
  rw [get?_without] at hany
  split at hany
  · cases hany
  · next hvalid => exact hvalid (mem_invalidNames.mpr ⟨hmem, hany⟩)

/-- A setting that is not a boolean has its default, and so has one that is dropped. -/
theorem booleanSetting_without (name : Text) (default : Bool) :
    booleanSetting name default (without (invalidNames settings) settings)
      = booleanSetting name default settings := by
  rw [booleanSetting, booleanSetting, get?_without]
  by_cases hinvalid : name ∈ invalidNames settings
  · rw [if_pos hinvalid]
    have hany := (mem_invalidNames.mp hinvalid).2
    cases hget : Table.get? name settings with
    | none => rfl
    | some v =>
      rw [hget] at hany
      cases v with
      | bool b => cases hany
      | _ => rfl
  · rw [if_neg hinvalid]

theorem booleanSettings_without :
    booleanSettings (without (invalidNames settings) settings) = booleanSettings settings := by
  simp only [booleanSettings, booleanSetting_without]

/-- Valid settings are used as they are. -/
theorem dropInvalid_of_valid (h : invalidNames settings = []) :
    dropInvalid settings = (booleanSettings settings, []) := by
  have hvalidate : validate settings = .ok (booleanSettings settings) := by
    rw [validate, h]
  rw [dropInvalid, hvalidate]

/-- **Validation ends.**  The loop drops all that is invalid and nothing else, and then it succeeds. -/
theorem dropInvalid_eq (settings : Members) :
    dropInvalid settings = (booleanSettings settings, invalidNames settings) := by
  cases hinvalid : invalidNames settings with
  | nil => exact dropInvalid_of_valid hinvalid
  | cons name names =>
    have herror : validate settings = .error (name :: names) := by
      rw [validate, hinvalid]
    have hbad := @invalidNames_filter_keys settings
    have hagain := dropInvalid_of_valid (@invalidNames_without settings)
    rw [booleanSettings_without, hinvalid] at hagain
    rw [hinvalid] at hbad
    rw [dropInvalid, herror]
    dsimp only
    split
    · next hnone => cases hbad.symm.trans hnone
    · next hsome =>
      cases hbad.symm.trans hsome
      simp [hagain]

theorem analysisOf_eq (settings : Members) : analysisOf settings = booleanSettings settings :=
  congrArg Prod.fst (dropInvalid_eq settings)

end

/-! ## 2. Layers -/

/-- What a layer gives a name. -/
def given? (name : Text) (layer : Members) : Option Json := (Table.get? name layer).bind Json.given?

/-- The names to which a layer gives something, in order. -/
def givenNames (layer : Members) : List Text := (layer.filter fun e => e.2.given?.isSome).map (·.1)

/-- The members that a value contributes to the settings. -/
inductive Contributes : Json → Members → Prop
  /-- The server's own section, if that is an object. -/
  | own {sent : Json} {members : Members} (h : sent.get? settingsSection = some (.obj members)) :
    Contributes sent members
  /-- Else the whole value, if that is an object. -/
  | whole {members : Members}
    (h : ∀ own, Json.get? settingsSection (.obj members) ≠ some (.obj own)) :
    Contributes (.obj members) members
  /-- Else nothing. -/
  | nothing {sent : Json} (h : ∀ members, sent ≠ .obj members) : Contributes sent []

theorem pickSection_eq {sent : Json} {members : Members} (h : Contributes sent members) :
    pickSection sent = members := by
  cases h with
  | own h =>
    cases sent with
    | obj ms =>
      have hget : Table.get? settingsSection ms = some (.obj members) := h
      rw [pickSection, hget]
    | _ => cases h
  | whole h =>
    rw [pickSection]
    split
    · next hget => exact absurd hget (h _)
    · rfl
  | nothing h =>
    cases sent with
    | obj ms => exact absurd rfl (h ms)
    | _ => rfl

/-- Every value contributes what is picked of it. -/
theorem contributes_pickSection (sent : Json) : Contributes sent (pickSection sent) := by
  cases sent with
  | obj members =>
    rw [pickSection]
    split
    · next hown => exact .own hown
    · next hnone => exact .whole hnone
  | _ => exact .nothing nofun

/-- Settings after layers, oldest first. -/
def mergeLayers (layers : List Members) (settings : Members) : Members :=
  layers.foldl (fun acc layer => mergeLayer layer acc) settings

section
variable {settings : Members} {names : List Text}

theorem mergeLayer_cons (n : Text) (v : Json) (layer settings : Members) :
    mergeLayer ((n, v) :: layer) settings =
      mergeLayer layer (v.given?.elim settings fun v => Table.insert n v settings) := by
  cases v <;> rfl

/-- What one layer gives replaces what was there. -/
theorem get?_mergeLayer (name : Text) : ∀ {layer : Members} (settings : Members),
    (Table.keys layer).Nodup →
      Table.get? name (mergeLayer layer settings) = (given? name layer).or (Table.get? name settings)
  | [], _, _ => rfl
  | (n, v) :: layer, settings, h => by
    obtain ⟨hn, hlayer⟩ := List.nodup_cons.mp h
    rw [mergeLayer_cons, get?_mergeLayer name _ hlayer, given?, given?, Table.get?]
    by_cases hname : n = name
    · subst hname
      have hnone : Table.get? n layer = none := by
        cases hget : Table.get? n layer with
        | none => rfl
        | some v => exact absurd (Table.mem_keys.mpr ⟨v, hget⟩) hn
      rw [hnone, if_pos rfl]
      cases hv : v.given? with
      | none => simp [hv]
      | some x => simp [hv]
    · rw [if_neg hname]
      cases v.given? with
      | none => rfl
      | some x => rw [Option.elim_some, Table.get?_insert_of_ne x (Ne.symm hname)]

/-- Setting a name, where the names stand in the order in which they first came. -/
theorem keys_insert_eraseDups (h : Table.keys settings = names.eraseDups) (name : Text) (value : Json) :
    Table.keys (Table.insert name value settings) = (names ++ [name]).eraseDups := by
  rw [Table.keys_insert, h, List.eraseDups_append]
  by_cases hname : name ∈ names
  · simp [List.removeAll, hname]
  · simp [List.removeAll, List.eraseDups_cons, hname]

theorem keys_mergeLayer : ∀ (layer : Members) {settings : Members} {names : List Text},
    Table.keys settings = names.eraseDups →
      Table.keys (mergeLayer layer settings) = (names ++ givenNames layer).eraseDups
  | [], _, names, h => by simpa [mergeLayer, givenNames] using h
  | (n, v) :: layer, settings, names, h => by
    rw [mergeLayer_cons]
    cases hv : v.given? with
    | none =>
      rw [Option.elim_none, keys_mergeLayer layer h]
      simp [givenNames, hv]
    | some x =>
      rw [Option.elim_some, keys_mergeLayer layer (keys_insert_eraseDups h n x)]
      simp [givenNames, hv]

/-- The last of several layers that gives a name something counts. -/
theorem get?_mergeLayers (name : Text) : ∀ {layers : List Members} (settings : Members),
    (∀ layer ∈ layers, (Table.keys layer).Nodup) →
      Table.get? name (mergeLayers layers settings) =
        (layers.filterMap (given? name)).getLast?.or (Table.get? name settings)
  | [], _, _ => rfl
  | layer :: layers, settings, h => by
    obtain ⟨hlayer, hlayers⟩ := List.forall_mem_cons.mp h
    have ih := get?_mergeLayers name (mergeLayer layer settings) hlayers
    rw [get?_mergeLayer name settings hlayer] at ih
    rw [mergeLayers, List.foldl_cons, ← mergeLayers, ih, List.filterMap_cons]
    cases given? name layer with
    | none => rfl
    | some v =>
      rw [List.getLast?_cons]
      cases (layers.filterMap (given? name)).getLast? <;> rfl

theorem keys_mergeLayers : ∀ (layers : List Members) {settings : Members} {names : List Text},
    Table.keys settings = names.eraseDups →
      Table.keys (mergeLayers layers settings) = (names ++ layers.flatMap givenNames).eraseDups
  | [], _, names, h => by simpa [mergeLayers] using h
  | layer :: layers, settings, names, h => by
    have ih := keys_mergeLayers layers (keys_mergeLayer layer h)
    rw [List.append_assoc] at ih
    rw [List.flatMap_cons, ← ih]
    rfl

end

/-! ## 3. Steps -/

/-- What happens to the settings of a session. -/
inductive SettingsStep where
  /-- The client sends a value for them. -/
  | send (sent : Json)
  /-- The settings for analysis are looked up. -/
  | look

/-- Settings with those for analysis as they were last validated, until a layer comes. -/
structure KeptSettings where
  members : Members := []
  view : Option CheckSettings := none

/-- What is kept is what would be computed. -/
def KeptSettings.Agrees (s : KeptSettings) : Prop :=
  ∀ view, s.view = some view → view = analysisOf s.members

namespace SettingsStep

/-- The value that a step sends. -/
def sent? : SettingsStep → Option Json
  | .send sent => some sent
  | .look => none

/-- The layer that a step adds. -/
def picked? (step : SettingsStep) : Option Members := step.sent?.map pickSection

/-- A step of a session, with what is seen by it. -/
def act : SettingsStep → Act σ τ (Option CheckSettings)
  | .send sent => do
    addLayer (pickSection sent)
    return none
  | .look => return some (← session).analysis

/-- The same step where the settings for analysis are kept. -/
def kept : SettingsStep → StateM KeptSettings (Option CheckSettings)
  | .send sent => do
    modify fun s => { members := mergeLayer (pickSection sent) s.members, view := none }
    return none
  | .look => do
    let s ← get
    match s.view with
    | some view => return some view
    | none =>
      let view := analysisOf s.members
      set { s with view := some view }
      return some view

/-- The settings after a step. -/
def layered (settings : Members) : SettingsStep → Members
  | .send sent => mergeLayer (pickSection sent) settings
  | .look => settings

/-- What is seen by a step. -/
def seen? (settings : Members) : SettingsStep → Option CheckSettings
  | .send _ => none
  | .look => some (analysisOf settings)

theorem filterMap_picked (steps : List SettingsStep) :
    steps.filterMap picked? = (steps.filterMap sent?).map pickSection := by
  rw [List.map_filterMap]
  rfl

theorem act_run (step : SettingsStep) (w : World σ τ) :
    step.act w = (.ok (step.seen? w.session.settings),
      { w with session.settings := step.layered w.session.settings }) := by
  cases step <;> rfl

/-- A step where the settings for analysis are kept sees the same, and leaves them up to date. -/
theorem kept_run (step : SettingsStep) {s : KeptSettings} (h : s.Agrees) :
    ∃ s', step.kept s = (step.seen? s.members, s') ∧ s'.members = step.layered s.members ∧ s'.Agrees := by
  cases step with
  | send sent => exact ⟨_, rfl, rfl, fun view hview => nomatch hview⟩
  | look =>
    rcases s with ⟨members, _ | view⟩
    · refine ⟨⟨members, some (analysisOf members)⟩, rfl, rfl, fun view hview => ?_⟩
      exact (Option.some.inj hview).symm
    · refine ⟨⟨members, some view⟩, ?_, rfl, h⟩
      rw [seen?, ← h view rfl]
      rfl

/-- Steps after each other.  A session sees in each of them what one sees that keeps the settings for
analysis. -/
theorem mapM_run : ∀ (steps : List SettingsStep) {s : KeptSettings} {w : World σ τ}, s.Agrees →
    w.session.settings = s.members → ∃ seen s',
      steps.mapM act w = (.ok seen, { w with session.settings := s'.members }) ∧
      steps.mapM kept s = (seen, s') ∧ s'.Agrees ∧
      s'.members = mergeLayers (steps.filterMap picked?) s.members ∧
      ∀ before after, steps = before ++ .look :: after →
        seen[before.length]? = some (some (analysisOf (mergeLayers (before.filterMap picked?) s.members)))
  | [], s, w, h, hw => by
    refine ⟨[], s, ?_, rfl, h, rfl, fun before after hsplit => ?_⟩
    · rw [← hw]
      rfl
    · simp at hsplit
  | step :: steps, s, w, h, hw => by
    obtain ⟨s₁, hkept, hmembers, hagrees⟩ := kept_run step h
    obtain ⟨seen, s', hact, hrest, hagrees', hmembers', hseen⟩ := mapM_run steps
      (w := { w with session.settings := s₁.members }) hagrees rfl
    -- the layers of a first step are merged before those of the others
    have hmerge : ∀ later : List SettingsStep, mergeLayers (later.filterMap picked?) s₁.members
        = mergeLayers ((step :: later).filterMap picked?) s.members := by
      intro later
      rw [hmembers]
      cases step <;> rfl
    refine ⟨step.seen? s.members :: seen, s', ?_, ?_, hagrees', hmembers'.trans (hmerge steps), ?_⟩
    · rw [List.mapM_cons, bind_run, act_run, hw, ← hmembers, andThen_ok, bind_run, hact]
      rfl
    · rw [List.mapM_cons]
      simp only [bind, StateT.bind, hkept, hrest]
      rfl
    · rintro (_ | ⟨first, before⟩) after hsplit
      · obtain ⟨rfl, -⟩ := List.cons.inj hsplit
        rfl
      · obtain ⟨rfl, hrest⟩ := List.cons.inj hsplit
        rw [← hmerge before]
        exact hseen before after hrest

end SettingsStep

/-- What the layers last give a name, if that is a boolean, and a default otherwise. -/
def isOn (name : String) (default : Bool) (layers : List Members) : Bool :=
  boolOr default (layers.filterMap (given? (text name))).getLast?

/-- The settings for analysis after layers, each of them what its own name was last given. -/
def viewOf (layers : List Members) : CheckSettings where
  strict := isOn "strict" false layers
  integer := isOn "integer" false layers
  unused := isOn "unused" true layers

theorem get?_layered (name : Text) {layers : List Members}
    (h : ∀ layer ∈ layers, (Table.keys layer).Nodup) :
    Table.get? name (mergeLayers layers []) = (layers.filterMap (given? name)).getLast? := by
  rw [get?_mergeLayers name [] h]
  exact Option.or_none

theorem analysisOf_layered {layers : List Members} (h : ∀ layer ∈ layers, (Table.keys layer).Nodup) :
    analysisOf (mergeLayers layers []) = viewOf layers := by
  rw [analysisOf_eq]
  simp only [booleanSettings, booleanSetting, viewOf, isOn, get?_layered _ h]

/-- **The last layer counts, name by name.**  Values are sent to a fresh session, and in between its settings
for analysis are looked up, as often as one likes.  Then each name has the value that was given last, the
names stand in the order in which they were first given something, and each of the settings for analysis is
the value of its name if that is a boolean, whatever the others are.  So it is wherever they are looked up in
between, for the values that were sent by then.  Nothing else changes.  A session that keeps the settings for
analysis until the next value comes sees the same. -/
theorem settings_layered {w : World σ τ} (hfresh : w.session.settings = []) {steps : List SettingsStep}
    {layers : List Members}
    (hlayers : List.Forall₂ Contributes (steps.filterMap SettingsStep.sent?) layers)
    (hdistinct : ∀ layer ∈ layers, (Table.keys layer).Nodup) :
    ∃ seen w' kept, steps.mapM SettingsStep.act w = (.ok seen, w') ∧
      (∀ name, Table.get? name w'.session.settings = (layers.filterMap (given? name)).getLast?) ∧
      Table.keys w'.session.settings = (layers.flatMap givenNames).eraseDups ∧
      w'.session.analysis = viewOf layers ∧
      (∀ before after, steps = before ++ .look :: after → seen[before.length]? =
        some (some (viewOf (layers.take (before.filterMap SettingsStep.sent?).length)))) ∧
      w' = { w with session.settings := w'.session.settings } ∧
      steps.mapM SettingsStep.kept {} = (seen, kept) ∧
      (SettingsStep.look.kept kept).1 = some (viewOf layers) := by
  have hstart : ({} : KeptSettings).Agrees := fun view hview => nomatch hview
  obtain ⟨seen, kept, hact, hkept, hagrees, hmembers, hseen⟩ :=
    SettingsStep.mapM_run steps hstart hfresh
  have hpicked : steps.filterMap SettingsStep.picked? = layers := by
    rw [SettingsStep.filterMap_picked, ← List.forall₂_eq_eq_eq, List.forall₂_map_left_iff]
    exact hlayers.imp fun _ _ => pickSection_eq
  have hmerged : kept.members = mergeLayers layers [] := by
    rw [hmembers, hpicked]
  have hanalysis : analysisOf kept.members = viewOf layers := by
    rw [hmerged, analysisOf_layered hdistinct]
  refine ⟨seen, _, kept, hact, fun name => ?_, ?_, hanalysis, fun before after hsplit => ?_, rfl, hkept, ?_⟩
  · exact (congrArg (Table.get? name) hmerged).trans (get?_layered name hdistinct)
  · exact (congrArg Table.keys hmerged).trans (@keys_mergeLayers layers [] [] rfl)
  · -- what was picked by then are the first of the layers
    have hbefore : before.filterMap SettingsStep.picked?
        = layers.take (before.filterMap SettingsStep.sent?).length := by
      rw [← hpicked, hsplit, List.filterMap_append]
      refine (List.take_left' ?_).symm
      rw [SettingsStep.filterMap_picked, List.length_map]
    rw [hseen before after hsplit, hbefore]
    have hfirst := @analysisOf_layered (layers.take (before.filterMap SettingsStep.sent?).length)
      fun layer hlayer => hdistinct layer (List.mem_of_mem_take hlayer)
    exact congrArg (fun view => some (some view)) hfirst
  · obtain ⟨s', hlook, -⟩ := SettingsStep.kept_run .look hagrees
    rw [hlook]
    exact congrArg some hanalysis

/-- A section of its own hides what is beside it, a value without one counts as a whole, a null gives nothing,
and a list contributes nothing.  A boolean that is overridden by a number is not found again. -/
theorem settings_layered_overridden :
    let layer₁ := [("unused", .string "no"), ("strict", .bool true)]
    let layer₂ := [("unused", .null), ("integer", .bool true), ("lunals", .nat 5)]
    let layer₃ := [("strict", .nat 1), ("unused", .bool false)]
    let steps : List SettingsStep := [.look,
      .send (.object [("lunals", .object layer₁), ("integer", .bool false)]), .look, .send (.object layer₂),
      .look, .look, .send (.arr [.bool true]), .send (.object [("lunals", .object layer₃)])]
    ∃ seen w', steps.mapM SettingsStep.act (Connection.fresh () : Connection Unit LuaTree).world
        = (.ok seen, w') ∧
      seen[4]? = some (some { strict := true, integer := true, unused := true }) ∧
      Table.keys w'.session.settings = [text "unused", text "strict", text "integer", text "lunals"] ∧
      w'.session.analysis = { strict := false, integer := true, unused := false } := by
  intro layer₁ layer₂ layer₃ steps
  let members (ms : List (String × Json)) : Members := ms.map fun m => (text m.1, m.2)
  have hlayers : List.Forall₂ Contributes (steps.filterMap SettingsStep.sent?)
      [members layer₁, members layer₂, [], members layer₃] := by
    refine .cons (.own rfl) (.cons (.whole fun own h => ?_) (.cons (.nothing fun ms h => ?_)
      (.cons (.own rfl) .nil)))
    · cases h
    · cases h
  obtain ⟨seen, w', -, hrun, -, hkeys, hanalysis, hseen, -⟩ :=
    settings_layered (w := (Connection.fresh () : Connection Unit LuaTree).world) rfl hlayers
      (by decide +kernel)
  refine ⟨seen, w', hrun, ?_, hkeys.trans (by decide +kernel), hanalysis.trans (by decide +kernel)⟩
  exact (hseen (steps.take 4) (steps.drop 5) rfl).trans (by decide +kernel)

end LuaServer
