/-
# What is kept is what was published

After every message the diagnostics that a session keeps, the trees that it keeps and the last notice
that the client has about each document are those of the texts as they stand, under the settings as they
stand (`Coherent`).

A message may break this for a while: a document with a new text is stale, and new settings make all of
them stale.  The invariant of a session that has started (`Upkeep`) names the stale documents; an analysis
settles one of them, and no handler stops before none is left.  Before it has started a session has no
documents (`Vacant`), so that the settings of the start make none stale.

Main result: `handleAll_coherent`.
-/
import LuaServer.Connection
import LuaServer.Proofs.Clients
import LuaServer.Proofs.Findings
import LuaServer.Proofs.Messages

namespace LuaServer

/-! ## 1. Coherence -/

/-- The state of a server of Lua documents. -/
abbrev LuaWorld := World Unit LuaTree

/-- A session in which one document is open. -/
def sessionWith (uri source : Text) : LuaWorld :=
  { session := { documents := [(uri, ⟨source, some 1, .null⟩)], memory := () } }

/-- What is kept and was told about an open document is what is found in its text. -/
structure Settled (w : LuaWorld) (uri : Text) (doc : Document) : Prop where
  diagnostics : Table.get? uri w.session.diagnostics
    = some (diagnosticsIn w.session.analysis doc.text uri)
  tree : Table.get? uri w.session.trees = treeIn w.session.analysis doc.text uri
  told : lastNotice? uri w.sent
    = some (publishJson uri (diagnosticsIn w.session.analysis doc.text uri) doc.version)

/-- Nothing is kept about a document that is not open, and the last notice about it, if there is one, is
that it has no diagnostics. -/
structure Forgotten (w : LuaWorld) (uri : Text) : Prop where
  diagnostics : Table.get? uri w.session.diagnostics = none
  tree : Table.get? uri w.session.trees = none
  told : ∀ m, lastNotice? uri w.sent = some m → m = publishJson uri [] none

/-- **Coherence.**  There are diagnostics for exactly the open documents.  Every open document is settled,
and its tree is kept if and only if none of its diagnostics is an error.  Every other document is
forgotten. -/
structure Coherent (w : LuaWorld) : Prop where
  diagnosed : ∀ uri, uri ∈ Table.keys w.session.diagnostics ↔ uri ∈ Table.keys w.session.documents
  settled : ∀ uri doc, Table.get? uri w.session.documents = some doc → Settled w uri doc
  kept : ∀ uri doc, Table.get? uri w.session.documents = some doc →
    (uri ∈ Table.keys w.session.trees
      ↔ ∀ d ∈ diagnosticsIn w.session.analysis doc.text uri, d.severity ≠ .error)
  forgotten : ∀ uri, Table.get? uri w.session.documents = none → Forgotten w uri

/-- A text whose analysis can be published. -/
structure Publishable (t : Text) : Prop where
  clean : Clean t
  sendable : Sendable t

/-- What is true between two steps of a session that has started: every open document that is not stale
is settled. -/
structure Upkeep (stale : List Text) (w : LuaWorld) : Prop where
  started : w.session.initialized = true
  texts : ∀ uri doc, Table.get? uri w.session.documents = some doc → Clean uri ∧ Publishable doc.text
  settled : ∀ uri doc, Table.get? uri w.session.documents = some doc → uri ∉ stale → Settled w uri doc
  forgotten : ∀ uri, Table.get? uri w.session.documents = none → Forgotten w uri

/-- No document is open. -/
structure Vacant (w : LuaWorld) : Prop where
  documents : w.session.documents = []
  forgotten : ∀ uri, Forgotten w uri

/-- What is true between two messages. -/
def Tidy (w : LuaWorld) : Prop := w.session.initialized = false ∧ Vacant w ∨ Upkeep [] w

/-- The tree of a text is kept if and only if none of its diagnostics is an error. -/
theorem treeIn_isSome {settings : Lua.CheckSettings} {source uri : Text} :
    (treeIn settings source uri).isSome
      ↔ ∀ d ∈ diagnosticsIn settings source uri, d.severity ≠ .error := by
  unfold treeIn
  split
  · next e hparse => simp [diagnosticsIn, hparse, Diagnostic.ofFault]
  · split
    · next herror =>
      obtain ⟨d, hd, hseverity⟩ := List.any_eq_true.mp herror
      simp only [Option.isSome_none, Bool.false_eq_true, false_iff]
      exact fun h => h d hd (of_decide_eq_true hseverity)
    · next herror =>
      simp only [Option.isSome_some, true_iff]
      intro d hd hseverity
      exact herror (List.any_eq_true.mpr ⟨d, hd, decide_eq_true hseverity⟩)

namespace Upkeep

/-! ## 2. Changes of a world -/

section
variable {stale : List Text} {w : LuaWorld}

/-- The log, the exits and the flags of a session that has started do not count. -/
theorem congr {w' : LuaWorld} (h : Upkeep stale w)
    (hstarted : w'.session.initialized = w.session.initialized)
    (hdocuments : w'.session.documents = w.session.documents)
    (hsettings : w'.session.settings = w.session.settings)
    (hdiagnostics : w'.session.diagnostics = w.session.diagnostics)
    (htrees : w'.session.trees = w.session.trees) (hsent : w'.sent = w.sent) : Upkeep stale w' := by
  have hanalysis : w'.session.analysis = w.session.analysis := congrArg analysisOf hsettings
  refine ⟨hstarted.trans h.started, ?_, ?_, ?_⟩
  · intro uri doc hdoc
    exact h.texts uri doc (hdocuments ▸ hdoc)
  · intro uri doc hdoc hstale
    obtain ⟨hd, ht, htold⟩ := h.settled uri doc (hdocuments ▸ hdoc) hstale
    exact ⟨by rw [hdiagnostics, hanalysis, hd], by rw [htrees, hanalysis, ht],
      by rw [hsent, hanalysis, htold]⟩
  · intro uri hdoc
    obtain ⟨hd, ht, htold⟩ := h.forgotten uri (hdocuments ▸ hdoc)
    exact ⟨hdiagnostics ▸ hd, htrees ▸ ht, hsent ▸ htold⟩

theorem logged (w : LuaWorld) (log : List LogRecord) (h : Upkeep stale w) :
    Upkeep stale { w with log := log } := h.congr rfl rfl rfl rfl rfl rfl

/-- A response is no notice. -/
theorem responded {m : Json} (hm : noticeUri? m = none) (w : LuaWorld) (h : Upkeep stale w) :
    Upkeep stale { w with sent := w.sent ++ [m] } := by
  have hlast : ∀ uri, lastNotice? uri (w.sent ++ [m]) = lastNotice? uri w.sent := by
    intro uri
    rw [lastNotice?_append, hm, if_neg nofun]
  refine ⟨h.started, h.texts, ?_, ?_⟩
  · intro uri doc hdoc hstale
    obtain ⟨hd, ht, htold⟩ := h.settled uri doc hdoc hstale
    exact ⟨hd, ht, (hlast uri).trans htold⟩
  · intro uri hdoc
    obtain ⟨hd, ht, htold⟩ := h.forgotten uri hdoc
    exact ⟨hd, ht, fun n hn => htold n ((hlast uri).symm.trans hn)⟩

/-- A document with a new text is stale. -/
theorem put {uri : Text} {doc : Document} (h : Upkeep stale w) (huri : Clean uri) (htext : Publishable doc.text) :
    Upkeep (uri :: stale)
      { w with session := { w.session with documents := Table.insert uri doc w.session.documents } } := by
  refine ⟨h.started, ?_, ?_, ?_⟩
  · intro other doc' hdoc
    by_cases hother : other = uri
    · subst hother
      obtain rfl := Option.some.inj ((Table.get?_insert_self ..).symm.trans hdoc)
      exact ⟨huri, htext⟩
    · exact h.texts other doc' ((Table.get?_insert_of_ne doc hother _).symm.trans hdoc)
  · intro other doc' hdoc hstale
    obtain ⟨hother, hstale⟩ := List.ne_and_not_mem_of_not_mem_cons hstale
    obtain ⟨hd, ht, htold⟩ :=
      h.settled other doc' ((Table.get?_insert_of_ne doc hother _).symm.trans hdoc) hstale
    exact ⟨hd, ht, htold⟩
  · intro other hdoc
    by_cases hother : other = uri
    · subst hother
      cases (Table.get?_insert_self ..).symm.trans hdoc
    · obtain ⟨hd, ht, htold⟩ :=
        h.forgotten other ((Table.get?_insert_of_ne doc hother _).symm.trans hdoc)
      exact ⟨hd, ht, htold⟩

/-- A document that is closed is forgotten. -/
theorem close (uri : Text) (h : Upkeep stale w) :
    Upkeep stale
      { w with
        session := { w.session with
          documents := Table.erase uri w.session.documents
          trees := Table.erase uri w.session.trees
          diagnostics := Table.erase uri w.session.diagnostics }
        sent := w.sent ++ [publishJson uri [] none] } := by
  have hother : ∀ other doc, Table.get? other (Table.erase uri w.session.documents) = some doc →
      other ≠ uri := by
    rintro other doc hdoc rfl
    cases (Table.get?_erase_self ..).symm.trans hdoc
  refine ⟨h.started, ?_, ?_, ?_⟩
  · intro other doc hdoc
    have hne := hother other doc hdoc
    exact h.texts other doc ((Table.get?_erase_of_ne hne _).symm.trans hdoc)
  · intro other doc hdoc hstale
    have hne := hother other doc hdoc
    obtain ⟨hd, ht, htold⟩ :=
      h.settled other doc ((Table.get?_erase_of_ne hne _).symm.trans hdoc) hstale
    exact ⟨(Table.get?_erase_of_ne hne _).trans hd, (Table.get?_erase_of_ne hne _).trans ht,
      (lastNotice?_publish_of_ne hne ..).trans htold⟩
  · intro other hdoc
    by_cases hne : other = uri
    · subst hne
      exact ⟨Table.get?_erase_self .., Table.get?_erase_self .., fun m hm =>
        (Option.some.inj ((lastNotice?_publish ..).symm.trans hm)).symm⟩
    · obtain ⟨hd, ht, htold⟩ := h.forgotten other ((Table.get?_erase_of_ne hne _).symm.trans hdoc)
      exact ⟨(Table.get?_erase_of_ne hne _).trans hd, (Table.get?_erase_of_ne hne _).trans ht,
        fun m hm => htold m ((lastNotice?_publish_of_ne hne ..).symm.trans hm)⟩

/-- Under new settings every open document is stale. -/
theorem resettle (settings : Members) (h : Upkeep stale w) :
    Upkeep (Table.keys w.session.documents)
      { w with session := { w.session with settings := settings } } := by
  refine ⟨h.started, h.texts, ?_, fun uri hdoc => ?_⟩
  · intro uri doc hdoc hstale
    exact absurd (Table.mem_keys.mpr ⟨doc, hdoc⟩) hstale
  · obtain ⟨hd, ht, htold⟩ := h.forgotten uri hdoc
    exact ⟨hd, ht, htold⟩

/-- The report on an open document settles it. -/
theorem applied {uri : Text} {doc : Document} (h : Upkeep stale w)
    (hdoc : Table.get? uri w.session.documents = some doc) :
    Upkeep (stale.filter (· ≠ uri))
      { w with
        session := Report.applied ⟨diagnosticsIn w.session.analysis doc.text uri,
          treeIn w.session.analysis doc.text uri⟩ uri w.session
        sent := w.sent
          ++ [publishJson uri (diagnosticsIn w.session.analysis doc.text uri) doc.version] } := by
  set r : Report := ⟨diagnosticsIn w.session.analysis doc.text uri,
    treeIn w.session.analysis doc.text uri⟩ with hr
  have htrees : ∀ other, other ≠ uri →
      Table.get? other (r.keep uri w.session.trees) = Table.get? other w.session.trees := by
    intro other hne
    unfold Report.keep
    split
    · exact Table.get?_erase_of_ne hne _
    · exact Table.get?_insert_of_ne _ hne _
  have htree : Table.get? uri (r.keep uri w.session.trees) = r.tree := by
    unfold Report.keep
    split
    · next hnone => exact (Table.get?_erase_self ..).trans hnone.symm
    · next t hsome => exact (Table.get?_insert_self ..).trans hsome.symm
  refine ⟨h.started, h.texts, ?_, ?_⟩
  · intro other doc' hdoc' hstale
    by_cases hne : other = uri
    · subst hne
      obtain rfl := Option.some.inj (hdoc.symm.trans hdoc')
      exact ⟨Table.get?_insert_self .., htree, lastNotice?_publish ..⟩
    · have hfresh : other ∉ stale := fun hmem => hstale (List.mem_filter.mpr ⟨hmem, by simpa using hne⟩)
      obtain ⟨hd, ht, htold⟩ := h.settled other doc' hdoc' hfresh
      exact ⟨(Table.get?_insert_of_ne _ hne _).trans hd, (htrees other hne).trans ht,
        (lastNotice?_publish_of_ne hne ..).trans htold⟩
  · intro other hdoc'
    have hne : other ≠ uri := by
      rintro rfl
      cases hdoc.symm.trans hdoc'
    obtain ⟨hd, ht, htold⟩ := h.forgotten other hdoc'
    exact ⟨(Table.get?_insert_of_ne _ hne _).trans hd, (htrees other hne).trans ht,
      fun m hm => htold m ((lastNotice?_publish_of_ne hne ..).symm.trans hm)⟩

end

end Upkeep

/-- Without documents the settings do not count either. -/
theorem Vacant.congr {w w' : LuaWorld} (h : Vacant w)
    (hdocuments : w'.session.documents = w.session.documents)
    (hdiagnostics : w'.session.diagnostics = w.session.diagnostics)
    (htrees : w'.session.trees = w.session.trees)
    (hsent : ∀ uri, lastNotice? uri w'.sent = lastNotice? uri w.sent) : Vacant w' := by
  refine ⟨hdocuments.trans h.documents, fun uri => ?_⟩
  obtain ⟨hd, ht, htold⟩ := h.forgotten uri
  exact ⟨hdiagnostics ▸ hd, htrees ▸ ht, fun m hm => htold m (hsent uri ▸ hm)⟩

theorem Vacant.tidy {w : LuaWorld} (h : Vacant w) : Tidy w := by
  have hnone : ∀ {uri doc}, Table.get? uri w.session.documents ≠ some doc := by
    intro uri doc hdoc
    rw [h.documents] at hdoc
    cases hdoc
  cases hstarted : w.session.initialized with
  | false => exact .inl ⟨hstarted, h⟩
  | true => exact .inr ⟨hstarted, fun _ _ hdoc => absurd hdoc hnone,
      fun _ _ hdoc => absurd hdoc hnone, fun uri _ => h.forgotten uri⟩

namespace Tidy

theorem coherent {w : LuaWorld} (h : Tidy w) : Coherent w := by
  have hsettled : ∀ uri doc, Table.get? uri w.session.documents = some doc → Settled w uri doc := by
    intro uri doc hdoc
    rcases h with ⟨-, h⟩ | h
    · rw [h.documents] at hdoc
      cases hdoc
    · exact h.settled uri doc hdoc List.not_mem_nil
  have hforgotten : ∀ uri, Table.get? uri w.session.documents = none → Forgotten w uri := by
    intro uri hdoc
    rcases h with ⟨-, h⟩ | h
    · exact h.forgotten uri
    · exact h.forgotten uri hdoc
  refine ⟨fun uri => ?_, hsettled, fun uri doc hdoc => ?_, hforgotten⟩
  · rw [Table.mem_keys, Table.mem_keys]
    cases hdoc : Table.get? uri w.session.documents with
    | none => simp [(hforgotten uri hdoc).diagnostics]
    | some doc => simp [(hsettled uri doc hdoc).diagnostics]
  · rw [Table.mem_keys, (hsettled uri doc hdoc).tree, ← Option.isSome_iff_exists, treeIn_isSome]

theorem logged (w : LuaWorld) (log : List LogRecord) : Tidy w → Tidy { w with log := log }
  | .inl ⟨hstarted, h⟩ => .inl ⟨hstarted, h.congr rfl rfl rfl fun _ => rfl⟩
  | .inr h => .inr (h.logged w log)

theorem responded {m : Json} (hm : noticeUri? m = none) (w : LuaWorld) :
    Tidy w → Tidy { w with sent := w.sent ++ [m] }
  | .inl ⟨hstarted, h⟩ => .inl ⟨hstarted, h.congr rfl rfl rfl fun uri => by
      rw [lastNotice?_append, hm, if_neg nofun]⟩
  | .inr h => .inr (h.responded hm w)

end Tidy

/-! ## 3. Steps -/

section
variable (read : ReadFile) (onExit : ExitPolicy)

/-- **An analysis settles a document,** and it does not fail. -/
theorem Upkeep.analyze {stale : List Text} {w : LuaWorld} (h : Upkeep stale w) (uri : Text) :
    ∃ tree w', analyze (luaServer read onExit) uri w = (.ok tree, w') ∧
      Upkeep (stale.filter (· ≠ uri)) w' := by
  cases hdoc : Table.get? uri w.session.documents with
  | none =>
    refine ⟨none, w, analyze_absent read onExit hdoc, h.started, h.texts, ?_, h.forgotten⟩
    intro other doc hother hstale
    have hne : other ≠ uri := by
      rintro rfl
      cases hdoc.symm.trans hother
    exact h.settled other doc hother fun hmem =>
      hstale (List.mem_filter.mpr ⟨hmem, by simpa using hne⟩)
  | some doc =>
    obtain ⟨huri, htext⟩ := h.texts uri doc hdoc
    have hclean : ∀ d ∈ diagnosticsIn w.session.analysis doc.text uri, Clean d.message ∧ Clean d.source :=
      clean_diagnosticsIn htext.clean
    obtain ⟨body, hencode⟩ := publish_encodes doc.version huri hclean
    obtain ⟨log, hrun⟩ := analyze_open read onExit hdoc (inspect_eq htext.clean htext.sendable) hencode
    exact ⟨_, _, hrun, (h.applied hdoc).congr rfl rfl rfl rfl rfl rfl⟩

/-- An analysis of all stale documents leaves none. -/
theorem Upkeep.analyzeAll : ∀ (uris : List Text) {stale : List Text} {w : LuaWorld},
    Upkeep stale w → stale ⊆ uris → Upkeep [] (analyzeAll (luaServer read onExit) uris w).2
  | [], stale, w, h, hsub => by
    obtain rfl := List.subset_nil.mp hsub
    exact h
  | uri :: uris, stale, w, h, hsub => by
    obtain ⟨tree, w', hrun, h'⟩ := h.analyze read onExit uri
    have hrest : stale.filter (· ≠ uri) ⊆ uris := by
      intro other hmem
      obtain ⟨hstale, hne⟩ := List.mem_filter.mp hmem
      exact (List.mem_cons.mp (hsub hstale)).resolve_left (by simpa using hne)
    rw [LuaServer.analyzeAll, bind_run, hrun]
    exact Upkeep.analyzeAll uris h' hrest

theorem analyze_keeps (uri : Text) : Keeps (Upkeep []) (analyze (luaServer read onExit) uri) := by
  intro w h
  obtain ⟨tree, w', hrun, h'⟩ := h.analyze read onExit uri
  rw [hrun]
  exact h'

/-- A document is stored and analysed. -/
theorem store_keeps {uri t : Text} (huri : Clean uri) (ht : Publishable t) (version : Option Int)
    (language : Json) :
    Keeps (Upkeep []) (do
      putDocument uri t version language
      let _ ← analyze (luaServer read onExit) uri
      return Json.null) := by
  intro w h
  cases hpath : fsPath? uri with
  | error e =>
    rw [bind_run, putDocument_run_error w hpath]
    exact h
  | ok path =>
    have hput := h.put huri
      (show Publishable (Document.next (Table.get? uri w.session.documents) t version language).text
        from ht)
    obtain ⟨tree, w', hrun, h'⟩ := hput.analyze read onExit uri
    rw [bind_run, putDocument_run w hpath, andThen_ok, bind_run, hrun]
    simpa using h'

theorem resolve_keeps (place : PlaceParams) :
    Keeps (Upkeep []) (resolve (luaServer read onExit) place) := by
  refine (analyze_keeps read onExit place.uri).bind fun tree => ?_
  cases tree with
  | none => exact .refuse _ _ _
  | some tree =>
    refine Keeps.bind (fun _ h => h) fun os => ?_
    split
    · exact .pure _
    · exact .refuse _ _ _

theorem matching_keeps (tree : LuaTree) (o : Occurrence) :
    Keeps (Upkeep []) (matching (luaServer read onExit) tree o) := fun _ h => h

theorem hover_keeps (place : PlaceParams) : Keeps (Upkeep []) (hover (luaServer read onExit) place) :=
  (resolve_keeps read onExit place).bind fun _ => (Keeps.orCrash _).bind fun _ => .pure _

theorem rename_keeps (p : RenameParams) : Keeps (Upkeep []) (rename (luaServer read onExit) p) := by
  unfold rename
  split
  · exact (resolve_keeps read onExit p.place).bind fun r =>
      (matching_keeps read onExit r.1 r.2).bind fun _ => (Keeps.orCrash _).bind fun _ => .pure _
  · exact .refuse _ _ _

theorem references_keeps (place : PlaceParams) :
    Keeps (Upkeep []) (references (luaServer read onExit) place) :=
  (resolve_keeps read onExit place).bind fun r =>
    (matching_keeps read onExit r.1 r.2).bind fun _ => (Keeps.orCrash _).bind fun _ => .pure _

theorem definition_keeps (place : PlaceParams) :
    Keeps (Upkeep []) (definition (luaServer read onExit) place) := by
  refine (resolve_keeps read onExit place).bind fun r =>
    (matching_keeps read onExit r.1 r.2).bind fun os => ?_
  split
  · exact .throw _
  · exact (Keeps.orCrash _).bind fun _ => .pure _

/-- A change of the settings leaves no document stale. -/
theorem didChangeConfiguration_keeps (settings : Json) :
    Keeps (Upkeep []) (didChangeConfiguration (luaServer read onExit) settings) := by
  intro w h
  have hstale := (h.resettle (mergeLayer (pickSection settings) w.session.settings)).analyzeAll
    read onExit _ (List.Subset.refl _)
  rw [didChangeConfiguration, bind_run, addLayer, modifySession_run, andThen_ok, bind_run, session_run,
    andThen_ok, bind_run]
  rcases hrun : analyzeAll (luaServer read onExit) (Table.keys w.session.documents) _ with ⟨r, w'⟩
  rw [hrun] at hstale
  cases r <;> exact hstale

theorem didClose_keeps {uri : Text} (huri : Clean uri) :
    Keeps (Upkeep []) (didClose uri : Act Unit LuaTree Json) := by
  intro w h
  have hnone : ∀ d ∈ ([] : List Diagnostic), Clean d.message ∧ Clean d.source := nofun
  obtain ⟨body, hencode⟩ := publish_encodes none huri hnone
  rw [didClose, bind_run, removeDocument, modifySession_run, andThen_ok, bind_run, send_run _ hencode]
  exact h.close uri

/-- The start of a session opens no document. -/
theorem startSession_vacant (params : Option Json) :
    Keeps Vacant (startSession (luaServer read onExit) params) := by
  unfold startSession
  refine Keeps.session.bind fun s => ?_
  split
  · exact .refuse _ _ _
  · have hlayer : ∀ layer, Keeps Vacant (addLayer layer : Act Unit LuaTree Unit) :=
      fun layer => Keeps.modifySession fun w h => h.congr rfl rfl rfl fun _ => rfl
    refine (Keeps.orCrash _).bind fun root => ?_
    refine (Keeps.modifySession fun w h => h.congr rfl rfl rfl fun _ => rfl).bind fun _ => ?_
    refine (Keeps.orCrash _).bind fun layer => (hlayer layer).bind fun _ => (hlayer _).bind fun _ => ?_
    refine (Keeps.modifySession fun w h => h.congr rfl rfl rfl fun _ => rfl).bind fun _ => ?_
    refine Keeps.session.bind fun s => ?_
    exact (Keeps.record (fun w log h => h.congr rfl rfl rfl fun _ => rfl) _ _ _).bind fun _ => .pure _

/-- A session is started once. -/
theorem startSession_keeps (params : Option Json) :
    Keeps (Upkeep []) (startSession (luaServer read onExit) params) := by
  intro w h
  rw [startSession, bind_run, session_run, andThen_ok, if_pos h.started]
  exact h

theorem exit_keeps {I : LuaWorld → Prop}
    (hrunning : ∀ w, I w → I { w with session := { w.session with running := false } })
    (hexits : ∀ w exits, I w → I { w with exits := exits }) :
    Keeps I (exit (luaServer read onExit)) := by
  refine (Keeps.modifySession hrunning).bind fun _ => Keeps.session.bind fun s => ?_
  cases onExit with
  | leave => exact .throw _
  | note =>
    refine Keeps.bind (x := modify _) ?_ fun _ => .pure _
    exact fun w h => hexits w _ h

/-! ## 4. Messages -/

/-- A message whose texts can be shown, and whose documents can be published. -/
structure Envelope.Proper (e : Envelope) : Prop where
  clean : e.Clean
  texts : ∀ t ∈ e.texts, Sendable t

/-- **A started session is kept up by every method.** -/
theorem call_keeps {e : Envelope} (h : e.Proper) {m : Method} (hm : Method.ofText? e.method = some m) :
    Keeps (Upkeep []) (call (luaServer read onExit) m e.params) := by
  cases m with
  | start => exact startSession_keeps read onExit e.params
  | initialized => exact .pure _
  | shutdown =>
    exact (Keeps.modifySession fun w h => h.congr rfl rfl rfl rfl rfl rfl).bind fun _ => .pure _
  | exit =>
    exact exit_keeps read onExit (fun w h => h.congr rfl rfl rfl rfl rfl rfl)
      fun w exits h => h.congr rfl rfl rfl rfl rfl rfl
  | didOpen =>
    refine .withParams fun p hp => ?_
    obtain ⟨ms, hclean, hread⟩ := h.clean.read hp
    obtain ⟨huri, htext⟩ := openParams?_clean hclean hread
    have hsend : Sendable p.text := h.texts _ (by simp [Envelope.texts, hm, hp])
    exact store_keeps read onExit huri ⟨htext, hsend⟩ _ _
  | didChange =>
    refine .withParams fun p hp => ?_
    obtain ⟨ms, hclean, hread⟩ := h.clean.read hp
    obtain ⟨huri, htexts⟩ := changeParams?_clean hclean hread
    unfold didChange
    split
    · exact .refuse _ _ _
    · split
      · exact .pure _
      · next c hlast =>
        have hc := List.mem_of_getLast? hlast
        have hsend : Sendable c.text :=
          h.texts _ (by simpa [Envelope.texts, hm, hp] using ⟨c, hc, rfl⟩)
        exact store_keeps read onExit huri ⟨htexts c hc, hsend⟩ _ _
  | didClose =>
    refine .withParams fun uri hp => ?_
    obtain ⟨ms, hclean, hread⟩ := h.clean.read hp
    exact didClose_keeps (closeParams?_clean hclean hread)
  | didSave =>
    refine .withParams fun p hp => ?_
    obtain ⟨ms, hclean, hread⟩ := h.clean.read hp
    obtain ⟨huri, htext⟩ := saveParams?_clean hclean hread
    unfold didSave
    split
    · next t ht =>
      have hsend : Sendable t := h.texts _ (by simp [Envelope.texts, hm, hp, ht])
      exact store_keeps read onExit huri ⟨htext t ht, hsend⟩ _ _
    · exact (Keeps.pure ()).bind fun _ => (analyze_keeps read onExit p.uri).bind fun _ => .pure _
  | didChangeConfiguration =>
    exact .withParams fun settings _ => didChangeConfiguration_keeps read onExit settings
  | hover => exact .withParams fun place _ => hover_keeps read onExit place
  | rename => exact .withParams fun p _ => rename_keeps read onExit p
  | references => exact .withParams fun place _ => references_keeps read onExit place
  | definition => exact .withParams fun place _ => definition_keeps read onExit place
  | completion => exact .withParams fun _ _ => .pure _
  | signatureHelp => exact .withParams fun _ _ => .pure _

/-- A session that has not started answers to nothing but its start and an exit. -/
theorem call_tidy {e : Envelope} (h : e.Proper) {m : Method} (hm : Method.ofText? e.method = some m)
    {w : LuaWorld} (hw : Tidy w) (hallowed : w.session.initialized = false → m = .start ∨ m = .exit) :
    Tidy (call (luaServer read onExit) m e.params w).2 := by
  rcases hw with ⟨hno, hvacant⟩ | hw
  · rcases hallowed hno with rfl | rfl
    · exact (startSession_vacant read onExit e.params w hvacant).tidy
    · exact (exit_keeps read onExit (I := Vacant) (fun w h => h.congr rfl rfl rfl fun _ => rfl)
        (fun w exits h => h.congr rfl rfl rfl fun _ => rfl) w hvacant).tidy
  · exact .inr (call_keeps read onExit h hm w hw)

theorem handleRequest_tidy {e : Envelope} (h : e.Proper) (id : Json) :
    Keeps Tidy (handleRequest (luaServer read onExit) id e) := by
  have hanswer : Keeps Tidy (answer (luaServer read onExit) e) := by
    intro w hw
    rcases answer_cases (luaServer read onExit) e w with ⟨_, _, hrun, -⟩ | ⟨m, hm, hallowed, hrun⟩
    · rw [hrun]
      exact hw
    · rw [hrun]
      exact call_tidy read onExit h hm hw fun hno => .inl (hallowed hno)
  refine (Keeps.attempt hanswer).bind fun r => ?_
  split
  · exact Keeps.send (Tidy.responded rfl)
  · exact (Keeps.record Tidy.logged _ _ _).bind fun _ => Keeps.send (Tidy.responded rfl)
  · exact (Keeps.record Tidy.logged _ _ _).bind fun _ => Keeps.send (Tidy.responded rfl)
  · exact .throw _

theorem handleNotification_tidy {e : Envelope} (h : e.Proper) :
    Keeps Tidy (handleNotification (luaServer read onExit) e) := by
  intro w hw
  rcases handleNotification_cases (luaServer read onExit) e w with ⟨log, hrun⟩ | ⟨m, hm, hallowed, hcall⟩
  · rw [hrun]
    exact hw.logged w log
  · have hafter := call_tidy read onExit h hm hw fun hno => .inr (hallowed hno)
    rcases hcall with ⟨status, w', hcall, hrun⟩ | ⟨log, hrun⟩
    · rw [hcall] at hafter
      rw [hrun]
      exact hafter
    · rw [hrun]
      exact hafter.logged _ log

/-- A body without half pairs, in which every text of a document can be sent. -/
structure ProperBody (body : Bytes) : Prop where
  clean : CleanBody body
  texts : ∀ e ∈ (decode body).toOption, ∀ t ∈ e.texts, Sendable t

instance (body : Bytes) : Decidable (ProperBody body) :=
  decidable_of_iff (CleanBody body ∧ ∀ e ∈ (decode body).toOption, ∀ t ∈ e.texts, Sendable t)
    ⟨fun h => ⟨h.1, h.2⟩, fun h => ⟨h.clean, h.texts⟩⟩

/-- A request is proper if the texts of documents that it brings can be sent. -/
theorem properBody_requestBody {id : Nat} {params : List (String × Json)} (m : Method)
    (hid : (Json.nat id).Plain) (h : (Json.object params).Plain)
    (htexts : ∀ t ∈ Envelope.texts ⟨text m.name, some (.nat id), some (Json.object params)⟩,
      Sendable t) : ProperBody (requestBody id m params) := by
  refine ⟨cleanBody_requestBody m hid h, fun e he => ?_⟩
  rw [decode_requestBody m hid h] at he
  obtain rfl := Option.some.inj he
  exact htexts

/-- **One message keeps a session tidy.** -/
theorem handle_tidy {body : Bytes} (h : ProperBody body) {w : LuaWorld} (hw : Tidy w) :
    Tidy (handle (luaServer read onExit) w body).2 := by
  have hkeeps : Keeps Tidy (handlePayload (luaServer read onExit) body) := by
    unfold handlePayload
    split
    · refine (Keeps.record Tidy.logged _ _ _).bind fun _ => ?_
      split
      · exact Keeps.send (Tidy.responded rfl)
      · exact .pure _
    · next e he =>
      have hproper : e.Proper := ⟨h.clean.envelope he, h.texts e (by rw [he]; rfl)⟩
      split
      · exact handleRequest_tidy read onExit hproper _
      · exact handleNotification_tidy read onExit hproper
  have hafter := hkeeps w hw
  rw [handle]
  split
  · next heq => rwa [heq] at hafter
  · next heq => rwa [heq] at hafter

/-- So do any number of messages. -/
theorem handleAll_tidy : ∀ {bodies : List Bytes}, (∀ body ∈ bodies, ProperBody body) →
    ∀ {w : LuaWorld}, Tidy w → Tidy (handleAll (luaServer read onExit) w bodies).2
  | [], _, _, hw => hw
  | body :: bodies, h, w, hw => by
    have hfirst := handle_tidy read onExit (h body List.mem_cons_self) hw
    rw [handleAll]
    split
    · next w' heq =>
      rw [heq] at hfirst
      exact handleAll_tidy (fun b hb => h b (List.mem_cons_of_mem body hb)) hfirst
    · next heq => rwa [heq] at hfirst

/-- **What is kept is what was published.**  After any messages to a session that is fresh at first, the
diagnostics, the trees and what the client was last told are those of the documents as they stand.

The texts of the documents must be such that all their places can be sent: they have fewer than 2 ^ 31
code points, and the longest of these have more than one line. -/
theorem handleAll_coherent {bodies : List Bytes} (h : ∀ body ∈ bodies, ProperBody body) :
    Coherent (handleAll (luaServer read onExit) (Connection.fresh ()).world bodies).2 := by
  have hvacant : Vacant (Connection.fresh () : Connection Unit LuaTree).world :=
    ⟨rfl, fun uri => ⟨rfl, rfl, nofun⟩⟩
  exact (handleAll_tidy read onExit h hvacant.tidy).coherent

end

/-- A document with a warning is opened, which new settings silence.  Then its text is changed to one that
is refused, and another document is opened and closed. -/
theorem handleAll_coherent_edited :
    let doc (uri : String) := ("textDocument", Json.object [("uri", .string uri),
      ("languageId", .string "lua"), ("version", .nat 1), ("text", .string "local a")])
    let bodies := [
      requestBody 1 .start [],
      requestBody 2 .didOpen [doc "a.lua"],
      requestBody 3 .didChangeConfiguration [("settings", Json.object [("unused", .bool false)])],
      requestBody 4 .didOpen [doc "b.lua"],
      requestBody 5 .didChange [doc "a.lua",
        ("contentChanges", .arr [Json.object [("text", .string "local a =")]])],
      requestBody 6 .didClose [doc "b.lua"]]
    (∀ body ∈ bodies, ProperBody body) ∧
      Coherent (handleAll (luaServer (fun _ => none) .note) (Connection.fresh ()).world bodies).2 := by
  intro doc bodies
  have hproper : ∀ body ∈ bodies, ProperBody body := by
    simp only [bodies, List.forall_mem_cons]
    refine ⟨properBody_requestBody .start ?_ ?_ ?_, properBody_requestBody .didOpen ?_ ?_ ?_,
      properBody_requestBody .didChangeConfiguration ?_ ?_ ?_, properBody_requestBody .didOpen ?_ ?_ ?_,
      properBody_requestBody .didChange ?_ ?_ ?_, properBody_requestBody .didClose ?_ ?_ ?_,
      List.forall_mem_nil _⟩
    all_goals first
      | simp only [Envelope.texts, Method.ofText?_name]; decide +kernel
      | decide +kernel
  exact ⟨hproper, handleAll_coherent _ _ hproper⟩

end LuaServer
