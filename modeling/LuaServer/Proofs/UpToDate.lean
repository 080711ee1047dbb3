/-
# Documents whose analysis is up to date

Most questions analyse a document again before they answer, and the analysis writes to the session.  It
changes nothing there if the document is up to date: what would be found is what is kept, and what the
client was told last.  A text whose analysis crashes is no exception, as the crash repeats itself.

Every message leaves all documents up to date (`handle_steady`).  Two things make a document stale, a new
text and new settings.  After a new text the one document is analysed at once.  After new settings all of
them are, one after the other, and a crash brings that to a stop: the documents behind it stay stale.  So
changes of the settings must be carried through (`Rechecked`), as they are whenever the places of all
texts can be sent (`rechecks_of_proper`).

Main results: `handle_steady`, `rechecks_of_proper`.
-/
import LuaServer.Proofs.Coherence
import LuaServer.Proofs.Survival

namespace LuaServer

/-! ## 1. Reports on clean texts -/

/-- The diagnostics of findings say what the findings say. -/
theorem diagnosticsOf_says {fs : List Finding} {ds : List Diagnostic} (h : diagnosticsOf fs = .ok ds) :
    ∀ d ∈ ds, ∃ f ∈ fs, d.message = f.message ∧ d.source = diagnosticSource f.tag := by
  replace h := diagnosticsOf_ok h
  induction h with
  | nil => nofun
  | @cons f first fs rest hfirst _ ih =>
    intro d hd
    rcases List.mem_cons.mp hd with rfl | hd
    · obtain ⟨span, -, rfl⟩ := ofFinding_ok hfirst
      exact ⟨f, List.mem_cons_self, rfl, rfl⟩
    · obtain ⟨g, hg, hsays⟩ := ih d hd
      exact ⟨g, List.mem_cons_of_mem f hg, hsays⟩

/-- The diagnostic of a syntax error says what its fault says. -/
theorem ofRefusal_says {e : Lua.SyntaxError} {d : Diagnostic}
    (h : Diagnostic.ofRefusal e.message = .ok (some d)) :
    d.message = e.fault.message ∧ d.source = diagnosticSource (text "syntax") := by
  simp only [Diagnostic.ofRefusal, splitPlace?_message] at h
  split at h
  · cases h
  · split at h
    · cases h
    · split at h
      · cases h
      · cases h
        exact ⟨rfl, rfl⟩

section
variable {settings : Lua.CheckSettings} {source uri : Text} {r : Report}

/-- What a report on a clean text says can be shown, however long the text is. -/
theorem inspect_clean (hclean : Clean source) (h : inspect settings source uri = .ok r) :
    ∀ d ∈ r.diagnostics, Clean d.message ∧ Clean d.source := by
  intro d hd
  cases inspected_of h with
  | refused hparse hrefusal =>
    obtain rfl := Option.mem_toList.mp hd
    obtain ⟨hmessage, htag⟩ := ofRefusal_says hrefusal
    rw [hmessage, htag]
    exact ⟨(Lua.parse_error hparse).2 hclean, clean_diagnosticSource _⟩
  | read hparse hds =>
    obtain ⟨f, hf, hmessage, htag⟩ := diagnosticsOf_says hds d hd
    obtain ⟨m, hm, rfl⟩ := List.mem_map.mp hf
    obtain ⟨ts, hlex, hfits⟩ := Lua.check_fits hparse hclean settings
    rw [hmessage, htag]
    exact ⟨(hfits m hm).clean, clean_diagnosticSource _⟩

end

section
variable (read : ReadFile) (onExit : ExitPolicy) {uri : Text} {doc : Document} {w : LuaWorld}

/-- The trees after an analysis has crashed: if the text is refused, its tree was dropped before. -/
def treesAfterCrash (source uri : Text) (trees : Table LuaTree) : Table LuaTree :=
  match Lua.parse source uri with
  | .error _ => Table.erase uri trees
  | .ok _ => trees

/-- An analysis that crashes keeps and publishes nothing. -/
theorem analyze_crashed {c : Crash} (hdoc : Table.get? uri w.session.documents = some doc)
    (hcrash : inspect w.session.analysis doc.text uri = .error c) :
    analyze (luaServer read onExit) uri w = (.error (.crashed c),
      { w with session := { w.session with
          trees := treesAfterCrash doc.text uri w.session.trees } }) := by
  rw [analyze, bind_run, session_run, andThen_ok, hdoc, treesAfterCrash]
  cases inspected_of hcrash with
  | refusedBeyond hparse hrefusal =>
    simp only [luaServer, luaFrontEnd, hparse, bind_run, reportRefusal, dropTree, modifySession_run,
      andThen_ok, hrefusal, orCrash_error_run, andThen_error]
  | readBeyond hparse hds =>
    simp only [luaServer, luaFrontEnd, hparse, bind_run, hds, orCrash_error_run, andThen_error]

/-- **What an analysis of an open document does:** it keeps and publishes its report, or it crashes. -/
theorem analyze_cases (hdoc : Table.get? uri w.session.documents = some doc) (huri : Clean uri)
    (htext : Clean doc.text) :
    (∃ r log, inspect w.session.analysis doc.text uri = .ok r ∧
      analyze (luaServer read onExit) uri w = (.ok r.tree,
        { w with
          session := r.applied uri w.session, sent := w.sent ++ [r.notice uri doc], log := log })) ∨
    ∃ c, inspect w.session.analysis doc.text uri = .error c ∧
      analyze (luaServer read onExit) uri w = (.error (.crashed c),
        { w with session := { w.session with
            trees := treesAfterCrash doc.text uri w.session.trees } }) := by
  cases hreport : inspect w.session.analysis doc.text uri with
  | error c => exact .inr ⟨c, rfl, analyze_crashed read onExit hdoc hreport⟩
  | ok r =>
    obtain ⟨body, hencode⟩ := publish_encodes doc.version huri (inspect_clean htext hreport)
    obtain ⟨log, hrun⟩ := analyze_open read onExit hdoc hreport hencode
    exact .inl ⟨r, log, rfl, hrun⟩

end

/-! ## 2. Up to date -/

/-- An analysis of a document would find what is kept and what was told last.  If it would crash over a
text that is refused, then no tree is kept. -/
structure Current (w : LuaWorld) (uri : Text) (doc : Document) : Prop where
  found : ∀ r, inspect w.session.analysis doc.text uri = .ok r →
    Table.get? uri w.session.diagnostics = some r.diagnostics ∧
      Table.get? uri w.session.trees = r.tree ∧ lastNotice? uri w.sent = some (r.notice uri doc)
  crashed : ∀ c e, inspect w.session.analysis doc.text uri = .error c →
    Lua.parse doc.text uri = .error e → Table.get? uri w.session.trees = none

/-- What is true between two steps of a session that has started: every open document that is not stale
is up to date. -/
structure UpToDate (stale : List Text) (w : LuaWorld) : Prop where
  started : w.session.initialized = true
  texts : ∀ uri doc, Table.get? uri w.session.documents = some doc → Clean uri ∧ Clean doc.text
  current : ∀ uri doc, Table.get? uri w.session.documents = some doc → uri ∉ stale → Current w uri doc

/-- What is true between two messages: the session has not started and has no documents, or they are all
up to date. -/
def Steady (w : LuaWorld) : Prop := w.session.initialized = false ∧ Vacant w ∨ UpToDate [] w

/-- A change concerns one document only. -/
structure Concerns (uri : Text) (w w' : LuaWorld) : Prop where
  started : w'.session.initialized = w.session.initialized
  settings : w'.session.settings = w.session.settings
  documents : ∀ other, other ≠ uri →
    Table.get? other w'.session.documents = Table.get? other w.session.documents
  diagnostics : ∀ other, other ≠ uri →
    Table.get? other w'.session.diagnostics = Table.get? other w.session.diagnostics
  trees : ∀ other, other ≠ uri →
    Table.get? other w'.session.trees = Table.get? other w.session.trees
  told : ∀ other, other ≠ uri → lastNotice? other w'.sent = lastNotice? other w.sent

/-- Whether a document is up to date depends on what is kept and was told about it, and on the settings. -/
theorem Current.congr {w w' : LuaWorld} {uri : Text} {doc : Document} (h : Current w uri doc)
    (hsettings : w'.session.settings = w.session.settings)
    (hdiagnostics : Table.get? uri w'.session.diagnostics = Table.get? uri w.session.diagnostics)
    (htrees : Table.get? uri w'.session.trees = Table.get? uri w.session.trees)
    (htold : lastNotice? uri w'.sent = lastNotice? uri w.sent) : Current w' uri doc := by
  have hanalysis : w'.session.analysis = w.session.analysis := congrArg analysisOf hsettings
  refine ⟨fun r hr => ?_, fun c e hc he => ?_⟩
  · rw [hdiagnostics, htrees, htold]
    exact h.found r (hanalysis ▸ hr)
  · rw [htrees]
    exact h.crashed c e (hanalysis ▸ hc) he

namespace UpToDate

section
variable {stale stale' : List Text} {w w' : LuaWorld} {uri : Text} {doc : Document}

/-- What has to be shown after a change that concerns one document. -/
theorem change (uri : Text) (h : UpToDate stale w) (hchange : Concerns uri w w')
    (hstale : ∀ other, other ≠ uri → other ∈ stale → other ∈ stale')
    (hdoc : ∀ doc, Table.get? uri w'.session.documents = some doc →
      (Clean uri ∧ Clean doc.text) ∧ (uri ∉ stale' → Current w' uri doc)) : UpToDate stale' w' := by
  refine ⟨hchange.started.trans h.started, fun other doc hother => ?_, fun other doc hother hfresh => ?_⟩
  · by_cases hne : other = uri
    · subst hne
      exact (hdoc doc hother).1
    · exact h.texts other doc ((hchange.documents other hne).symm.trans hother)
  · by_cases hne : other = uri
    · subst hne
      exact (hdoc doc hother).2 hfresh
    · have hcurrent := h.current other doc ((hchange.documents other hne).symm.trans hother)
        fun hmem => hfresh (hstale other hne hmem)
      exact hcurrent.congr hchange.settings (hchange.diagnostics other hne) (hchange.trees other hne)
        (hchange.told other hne)

/-- The log, the exits, the responses and the flags of a session that has started do not count. -/
theorem congr (h : UpToDate stale w) (hstarted : w'.session.initialized = w.session.initialized)
    (hdocuments : w'.session.documents = w.session.documents)
    (hsettings : w'.session.settings = w.session.settings)
    (hdiagnostics : w'.session.diagnostics = w.session.diagnostics)
    (htrees : w'.session.trees = w.session.trees)
    (htold : ∀ uri, lastNotice? uri w'.sent = lastNotice? uri w.sent) : UpToDate stale w' := by
  refine ⟨hstarted.trans h.started, fun uri doc hdoc => ?_, fun uri doc hdoc hfresh => ?_⟩
  · exact h.texts uri doc (hdocuments ▸ hdoc)
  · exact (h.current uri doc (hdocuments ▸ hdoc) hfresh).congr hsettings (by rw [hdiagnostics])
      (by rw [htrees]) (htold uri)

/-- A document with a new text is stale. -/
theorem put (h : UpToDate stale w) (huri : Clean uri) (htext : Clean doc.text) :
    UpToDate (uri :: stale)
      { w with session := { w.session with documents := Table.insert uri doc w.session.documents } } := by
  refine h.change uri ⟨rfl, rfl, fun other hne => Table.get?_insert_of_ne doc hne _,
    fun _ _ => rfl, fun _ _ => rfl, fun _ _ => rfl⟩ (fun _ _ => List.mem_cons_of_mem uri) ?_
  intro doc' hdoc
  obtain rfl := Option.some.inj ((Table.get?_insert_self ..).symm.trans hdoc)
  exact ⟨⟨huri, htext⟩, fun hfresh => absurd List.mem_cons_self hfresh⟩

/-- A document that is closed is not kept. -/
theorem close (uri : Text) (h : UpToDate stale w) :
    UpToDate stale
      { w with
        session := { w.session with
          documents := Table.erase uri w.session.documents
          trees := Table.erase uri w.session.trees
          diagnostics := Table.erase uri w.session.diagnostics }
        sent := w.sent ++ [publishJson uri [] none] } := by
  refine h.change uri ⟨rfl, rfl, fun other hne => Table.get?_erase_of_ne hne _,
    fun other hne => Table.get?_erase_of_ne hne _, fun other hne => Table.get?_erase_of_ne hne _,
    fun other hne => lastNotice?_publish_of_ne hne ..⟩ (fun _ _ => id) ?_
  intro doc hdoc
  cases (Table.get?_erase_self ..).symm.trans hdoc

/-- Under new settings every open document is stale. -/
theorem resettle (settings : Members) (h : UpToDate stale w) :
    UpToDate (Table.keys w.session.documents)
      { w with session := { w.session with settings := settings } } := by
  refine ⟨h.started, h.texts, fun uri doc hdoc hfresh => ?_⟩
  exact absurd (Table.mem_keys.mpr ⟨doc, hdoc⟩) hfresh

/-- The report on an open document brings it up to date. -/
theorem applied {r : Report} (h : UpToDate stale w)
    (hdoc : Table.get? uri w.session.documents = some doc)
    (hreport : inspect w.session.analysis doc.text uri = .ok r) (log : List LogRecord) :
    UpToDate (stale.filter (· ≠ uri))
      { w with
        session := r.applied uri w.session, sent := w.sent ++ [r.notice uri doc], log := log } := by
  refine h.change uri ⟨rfl, rfl, fun _ _ => rfl,
    fun other hne => Table.get?_insert_of_ne _ hne _, fun other hne => ?_,
    fun other hne => lastNotice?_publish_of_ne hne ..⟩ ?_ ?_
  · change Table.get? other (r.keep uri w.session.trees) = _
    unfold Report.keep
    split
    · exact Table.get?_erase_of_ne hne _
    · exact Table.get?_insert_of_ne _ hne _
  · intro other hne hmem
    exact List.mem_filter.mpr ⟨hmem, by simpa using hne⟩
  · intro doc' hdoc'
    obtain rfl := Option.some.inj (hdoc.symm.trans hdoc')
    refine ⟨h.texts uri doc hdoc, fun _ => ⟨fun r' hr' => ?_, fun c e hc _ => ?_⟩⟩
    · obtain rfl := Except.ok.inj (hreport.symm.trans hr')
      refine ⟨Table.get?_insert_self .., ?_, lastNotice?_publish ..⟩
      change Table.get? uri (r.keep uri w.session.trees) = r.tree
      unfold Report.keep
      split
      · next hnone => exact (Table.get?_erase_self ..).trans hnone.symm
      · next t hsome => exact (Table.get?_insert_self ..).trans hsome.symm
    · cases hreport.symm.trans hc

/-- So does a crash, which would repeat itself. -/
theorem crashed {c : Crash} (h : UpToDate stale w)
    (hdoc : Table.get? uri w.session.documents = some doc)
    (hcrash : inspect w.session.analysis doc.text uri = .error c) :
    UpToDate (stale.filter (· ≠ uri))
      { w with session := { w.session with
          trees := treesAfterCrash doc.text uri w.session.trees } } := by
  refine h.change uri ⟨rfl, rfl, fun _ _ => rfl, fun _ _ => rfl, fun other hne => ?_,
    fun _ _ => rfl⟩ ?_ ?_
  · dsimp only [treesAfterCrash]
    split
    · exact Table.get?_erase_of_ne hne _
    · rfl
  · intro other hne hmem
    exact List.mem_filter.mpr ⟨hmem, by simpa using hne⟩
  · intro doc' hdoc'
    obtain rfl := Option.some.inj (hdoc.symm.trans hdoc')
    refine ⟨h.texts uri doc hdoc, fun _ => ⟨fun r hr => ?_, fun c' e _ he => ?_⟩⟩
    · cases hcrash.symm.trans hr
    · dsimp only [treesAfterCrash]
      rw [he]
      exact Table.get?_erase_self ..

/-- **An analysis brings a document up to date,** however it ends.  If it fails it has crashed. -/
theorem analyze (read : ReadFile) (onExit : ExitPolicy) (h : UpToDate stale w) (uri : Text) :
    UpToDate (stale.filter (· ≠ uri)) (analyze (luaServer read onExit) uri w).2 ∧
      ∀ f, (analyze (luaServer read onExit) uri w).1 = .error f → ∃ c, f = .crashed c := by
  cases hdoc : Table.get? uri w.session.documents with
  | none =>
    rw [analyze_absent read onExit hdoc]
    refine ⟨h.change uri ⟨rfl, rfl, fun _ _ => rfl, fun _ _ => rfl, fun _ _ => rfl,
      fun _ _ => rfl⟩ (fun other hne hmem => ?_) fun doc hsome => ?_, by simp⟩
    · exact List.mem_filter.mpr ⟨hmem, by simpa using hne⟩
    · cases hdoc.symm.trans hsome
  | some doc =>
    obtain ⟨huri, htext⟩ := h.texts uri doc hdoc
    rcases analyze_cases read onExit hdoc huri htext with ⟨r, log, hreport, hrun⟩ | ⟨c, hcrash, hrun⟩
    · rw [hrun]
      exact ⟨h.applied hdoc hreport log, by simp⟩
    · rw [hrun]
      exact ⟨h.crashed hdoc hcrash, by simp⟩

/-- An analysis of all stale documents that does not crash leaves none. -/
theorem analyzeAll (read : ReadFile) (onExit : ExitPolicy) : ∀ (uris : List Text) {stale : List Text}
    {w : LuaWorld}, UpToDate stale w → stale ⊆ uris →
    (∀ c, (analyzeAll (luaServer read onExit) uris w).1 ≠ .error (.crashed c)) →
    UpToDate [] (analyzeAll (luaServer read onExit) uris w).2
  | [], stale, w, h, hsub, _ => by
    obtain rfl := List.subset_nil.mp hsub
    exact h
  | uri :: uris, stale, w, h, hsub, hgood => by
    obtain ⟨hfirst, hfails⟩ := h.analyze read onExit uri
    have hrest : stale.filter (· ≠ uri) ⊆ uris := by
      intro other hmem
      obtain ⟨hstale, hne⟩ := List.mem_filter.mp hmem
      exact (List.mem_cons.mp (hsub hstale)).resolve_left (by simpa using hne)
    rw [LuaServer.analyzeAll, bind_run] at hgood ⊢
    rcases hrun : LuaServer.analyze (luaServer read onExit) uri w with ⟨f | tree, w'⟩
    · rw [hrun] at hfails hgood
      obtain ⟨c, rfl⟩ := hfails f rfl
      exact absurd rfl (hgood c)
    · rw [hrun] at hfirst hgood
      exact analyzeAll read onExit uris hfirst hrest hgood

end

end UpToDate

theorem Vacant.steady {w : LuaWorld} (h : Vacant w) : Steady w := by
  have hnone : ∀ {uri doc}, Table.get? uri w.session.documents ≠ some doc := by
    intro uri doc hdoc
    rw [h.documents] at hdoc
    cases hdoc
  cases hstarted : w.session.initialized with
  | false => exact .inl ⟨hstarted, h⟩
  | true => exact .inr ⟨hstarted, fun _ _ hdoc => absurd hdoc hnone, fun _ _ hdoc => absurd hdoc hnone⟩

namespace Steady

theorem logged (w : LuaWorld) (log : List LogRecord) : Steady w → Steady { w with log := log }
  | .inl ⟨hstarted, h⟩ => .inl ⟨hstarted, h.congr rfl rfl rfl fun _ => rfl⟩
  | .inr h => .inr (h.congr rfl rfl rfl rfl rfl fun _ => rfl)

/-- A reply is no notice. -/
theorem replied {m : Json} (w : LuaWorld) (hm : IsReply m) :
    Steady w → Steady { w with sent := w.sent ++ [m] } := by
  have hno : noticeUri? m = none := by cases hm <;> rfl
  have hlast : ∀ uri, lastNotice? uri (w.sent ++ [m]) = lastNotice? uri w.sent := by
    intro uri
    rw [lastNotice?_append, hno, if_neg (by simp)]
  rintro (⟨hstarted, h⟩ | h)
  · exact .inl ⟨hstarted, h.congr rfl rfl rfl hlast⟩
  · exact .inr (h.congr rfl rfl rfl rfl rfl hlast)

end Steady

/-! ## 3. Questions -/

/-- The methods by which a client asks about a place in a document. -/
def Method.questions : List Method :=
  [.hover, .rename, .references, .definition, .completion, .signatureHelp]

/-- What follows a step leaves the world as it is. -/
theorem bind_world {σ τ α β : Type} {x : Act σ τ α} {f : α → Act σ τ β} {w : World σ τ}
    (hf : ∀ a, Keeps (· = (x w).2) (f a)) : ((x >>= f) w).2 = (x w).2 := by
  rw [bind_run]
  rcases hrun : x w with ⟨e | a, v⟩
  · rfl
  · have hrest := hf a v (congrArg Prod.snd hrun).symm
    rwa [hrun] at hrest

section
variable (read : ReadFile) (onExit : ExitPolicy)

/-- A step leaves the world as it is, or as the analysis of a document leaves it. -/
def MerelyAnalyses {α : Type} (x : Act Unit LuaTree α) : Prop :=
  ∀ w, (x w).2 = w ∨ ∃ uri, (x w).2 = (analyze (luaServer read onExit) uri w).2

theorem resolve_world (place : PlaceParams) (w : LuaWorld) :
    (resolve (luaServer read onExit) place w).2
      = (analyze (luaServer read onExit) place.uri w).2 := by
  refine bind_world fun tree => ?_
  cases tree with
  | none => exact .refuse _ _ _
  | some tree =>
    refine Keeps.bind (fun _ h => h) fun os => ?_
    split
    · exact .pure _
    · exact .refuse _ _ _

/-- What is done with the identifier at a place, if it leaves the world as it is. -/
theorem MerelyAnalyses.resolved {α : Type} (place : PlaceParams)
    {f : LuaTree × Occurrence → Act Unit LuaTree α} (hf : ∀ w r, Keeps (· = w) (f r)) :
    MerelyAnalyses read onExit (resolve (luaServer read onExit) place >>= f) := by
  intro w
  refine .inr ⟨place.uri, ?_⟩
  rw [bind_world (hf _), resolve_world]

theorem matching_still (w : LuaWorld) (tree : LuaTree) (o : Occurrence) :
    Keeps (· = w) (matching (luaServer read onExit) tree o) := fun _ h => h

theorem rename_analyses (p : RenameParams) :
    MerelyAnalyses read onExit (rename (luaServer read onExit) p) := by
  unfold rename
  split
  · exact .resolved read onExit p.place fun w r => (matching_still read onExit w r.1 r.2).bind fun _ =>
      (Keeps.orCrash _).bind fun _ => .pure _
  · exact fun _ => .inl rfl

theorem definition_analyses (place : PlaceParams) :
    MerelyAnalyses read onExit (definition (luaServer read onExit) place) := by
  refine .resolved read onExit place fun w r =>
    (matching_still read onExit w r.1 r.2).bind fun os => ?_
  split
  · exact .throw _
  · exact (Keeps.orCrash _).bind fun _ => .pure _

/-- **A question does nothing but analyse a document,** and not even that if it makes no sense. -/
theorem call_question {m : Method} (hm : m ∈ Method.questions) (e : Envelope) :
    MerelyAnalyses read onExit (call (luaServer read onExit) m e.params) := by
  -- parameters that cannot be read are refused
  have hparams : ∀ {α : Type} {name : String} {read' : Members → Option α}
      {f : α → Act Unit LuaTree Json}, (∀ a, MerelyAnalyses read onExit (f a)) →
      MerelyAnalyses read onExit (withParams name read' e.params >>= f) := by
    intro α name read' f hf w
    rw [e.withParams_eq, bind_run]
    cases e.members?.bind read' with
    | none => exact .inl rfl
    | some a => exact hf a w
  simp only [Method.questions, List.mem_cons, List.not_mem_nil, or_false] at hm
  rcases hm with rfl | rfl | rfl | rfl | rfl | rfl
  · exact hparams fun place => .resolved read onExit place fun w r =>
      (Keeps.orCrash _).bind fun _ => .pure _
  · exact hparams fun p => rename_analyses read onExit p
  · exact hparams fun place => .resolved read onExit place fun w r =>
      (matching_still read onExit w r.1 r.2).bind fun _ => (Keeps.orCrash _).bind fun _ => .pure _
  · exact hparams fun place => definition_analyses read onExit place
  · exact hparams fun _ _ => .inl rfl
  · exact hparams fun _ _ => .inl rfl

end

/-! ## 4. Messages -/

section
variable (read : ReadFile) (onExit : ExitPolicy)

/-- A document is stored and analysed. -/
theorem store_current {uri t : Text} (huri : Clean uri) (ht : Clean t) (version : Option Int)
    (language : Json) :
    Keeps (UpToDate []) (do
      putDocument uri t version language
      let _ ← analyze (luaServer read onExit) uri
      return Json.null) := by
  intro w h
  cases hpath : fsPath? uri with
  | error e =>
    rw [bind_run, putDocument_run_error w hpath]
    exact h
  | ok path =>
    have hput := h.put huri
      (show Clean (Document.next (Table.get? uri w.session.documents) t version language).text from ht)
    have hanalysed := (hput.analyze read onExit uri).1
    rw [bind_run, putDocument_run w hpath, andThen_ok, bind_world fun _ => .pure _]
    simpa using hanalysed

theorem analyzed_current (uri : Text) :
    Keeps (UpToDate []) (do
      let _ ← analyze (luaServer read onExit) uri
      return Json.null) := by
  intro w h
  rw [bind_world fun _ => .pure _]
  exact (h.analyze read onExit uri).1

/-- A change of the settings that is carried through leaves no document stale. -/
theorem didChangeConfiguration_current {settings : Json} {w : LuaWorld} (h : UpToDate [] w)
    (hgood : ∀ c, (didChangeConfiguration (luaServer read onExit) settings w).1
      ≠ .error (.crashed c)) :
    UpToDate [] (didChangeConfiguration (luaServer read onExit) settings w).2 := by
  have hstale := (h.resettle (mergeLayer (pickSection settings) w.session.settings)).analyzeAll
    read onExit _ (List.Subset.refl _)
  rw [didChangeConfiguration, bind_run, addLayer, modifySession_run, andThen_ok, bind_run, session_run,
    andThen_ok, bind_run] at hgood ⊢
  rcases hrun : analyzeAll (luaServer read onExit) (Table.keys w.session.documents) _ with ⟨f | u, w'⟩
  all_goals rw [hrun] at hstale hgood
  · refine hstale fun c hc => ?_
    cases hc
    exact hgood c rfl
  · exact hstale (by simp)

theorem didClose_current {uri : Text} (huri : Clean uri) :
    Keeps (UpToDate []) (didClose uri : Act Unit LuaTree Json) := by
  intro w h
  have hnone : ∀ d ∈ ([] : List Diagnostic), Clean d.message ∧ Clean d.source := by simp
  obtain ⟨body, hencode⟩ := publish_encodes none huri hnone
  rw [didClose, bind_run, removeDocument, modifySession_run, andThen_ok, bind_run, send_run _ hencode]
  exact h.close uri

/-- A message does not change the settings, or the change is carried through: no analysis of an open
document brings it to a stop. -/
def Rechecked (srv : Server Unit LuaTree) (w : LuaWorld) (body : Bytes) : Prop :=
  ∀ e ∈ (decode body).toOption, Method.ofText? e.method = some .didChangeConfiguration →
    ∀ c, (call srv .didChangeConfiguration e.params w).1 ≠ .error (.crashed c)

/-- **Every method leaves the documents of a started session up to date.** -/
theorem call_current {e : Envelope} (h : e.Clean) {m : Method} {w : LuaWorld} (hw : UpToDate [] w)
    (hrechecked : m = .didChangeConfiguration →
      ∀ c, (call (luaServer read onExit) m e.params w).1 ≠ .error (.crashed c)) :
    UpToDate [] (call (luaServer read onExit) m e.params w).2 := by
  have hquestion : m ∈ Method.questions →
      UpToDate [] (call (luaServer read onExit) m e.params w).2 := by
    intro hm
    rcases call_question read onExit hm e w with hsame | ⟨uri, hanalysed⟩
    · rwa [hsame]
    · rw [hanalysed]
      exact (hw.analyze read onExit uri).1
  cases m with
  | start =>
    change UpToDate [] (startSession (luaServer read onExit) e.params w).2
    rw [startSession, bind_run, session_run, andThen_ok, if_pos hw.started]
    exact hw
  | initialized => exact hw
  | shutdown => exact hw.congr rfl rfl rfl rfl rfl fun _ => rfl
  | exit =>
    exact exit_keeps read onExit (fun w h => h.congr rfl rfl rfl rfl rfl fun _ => rfl)
      (fun w exits h => h.congr rfl rfl rfl rfl rfl fun _ => rfl) w hw
  | didOpen =>
    refine Keeps.withParams (I := UpToDate []) (fun p hp => ?_) w hw
    obtain ⟨ms, hclean, hread⟩ := h.read hp
    obtain ⟨huri, htext⟩ := openParams?_clean hclean hread
    exact store_current read onExit huri htext _ _
  | didChange =>
    refine Keeps.withParams (I := UpToDate []) (fun p hp => ?_) w hw
    obtain ⟨ms, hclean, hread⟩ := h.read hp
    obtain ⟨huri, htexts⟩ := changeParams?_clean hclean hread
    unfold didChange
    split
    · exact .refuse _ _ _
    · split
      · exact .pure _
      · next c hlast =>
        exact store_current read onExit huri (htexts c (List.mem_of_getLast? hlast)) _ _
  | didClose =>
    refine Keeps.withParams (I := UpToDate []) (fun uri hp => ?_) w hw
    obtain ⟨ms, hclean, hread⟩ := h.read hp
    exact didClose_current (closeParams?_clean hclean hread)
  | didSave =>
    refine Keeps.withParams (I := UpToDate []) (fun p hp => ?_) w hw
    obtain ⟨ms, hclean, hread⟩ := h.read hp
    obtain ⟨huri, htext⟩ := saveParams?_clean hclean hread
    unfold didSave
    split
    · next t ht => exact store_current read onExit huri (htext t ht) _ _
    · exact (Keeps.pure ()).bind fun _ => analyzed_current read onExit p.uri
  | didChangeConfiguration =>
    replace hrechecked := hrechecked rfl
    simp only [call, e.withParams_eq, bind_run] at hrechecked ⊢
    cases hsettings : e.members?.bind configurationParams? with
    | none => exact hw
    | some settings =>
      rw [hsettings] at hrechecked
      exact didChangeConfiguration_current read onExit hw hrechecked
  | hover => exact hquestion (by decide)
  | rename => exact hquestion (by decide)
  | references => exact hquestion (by decide)
  | definition => exact hquestion (by decide)
  | completion => exact hquestion (by decide)
  | signatureHelp => exact hquestion (by decide)

/-- A session that has not started answers to nothing but its start and an exit. -/
theorem call_steady {e : Envelope} (h : e.Clean) {m : Method} {w : LuaWorld} (hw : Steady w)
    (hallowed : w.session.initialized = false → m = .start ∨ m = .exit)
    (hrechecked : m = .didChangeConfiguration →
      ∀ c, (call (luaServer read onExit) m e.params w).1 ≠ .error (.crashed c)) :
    Steady (call (luaServer read onExit) m e.params w).2 := by
  rcases hw with ⟨hno, hvacant⟩ | hw
  · rcases hallowed hno with rfl | rfl
    · exact (startSession_vacant read onExit e.params w hvacant).steady
    · exact (exit_keeps read onExit (I := Vacant) (fun w h => h.congr rfl rfl rfl fun _ => rfl)
        (fun w exits h => h.congr rfl rfl rfl fun _ => rfl) w hvacant).steady
  · exact .inr (call_current read onExit h hw hrechecked)

/-- **One message leaves all documents up to date.** -/
theorem handle_steady {body : Bytes} (h : CleanBody body) {w : LuaWorld} (hw : Steady w)
    (hrechecked : Rechecked (luaServer read onExit) w body) :
    Steady (handle (luaServer read onExit) w body).2 := by
  refine handle_after Steady.logged (fun w m => Steady.replied w) hw fun e m hdecode hm hallowed => ?_
  refine call_steady read onExit (h.envelope hdecode) hw hallowed ?_
  rintro rfl
  exact hrechecked e (by rw [hdecode]; rfl) hm

/-! ## 5. Texts that can be sent -/

/-- Every change of the settings in a run is carried through. -/
def Rechecks (srv : Server Unit LuaTree) (w : LuaWorld) : List Bytes → Prop
  | [] => True
  | body :: bodies => Rechecked srv w body ∧
      ((handle srv w body).1 = none → Rechecks srv (handle srv w body).2 bodies)

/-- No analysis crashes if all texts can be sent. -/
theorem analyzeAll_ok : ∀ (uris : List Text) {stale : List Text} {w : LuaWorld}, Upkeep stale w →
    (analyzeAll (luaServer read onExit) uris w).1 = .ok ()
  | [], _, _, _ => rfl
  | uri :: uris, _, w, h => by
    obtain ⟨tree, w', hrun, h'⟩ := h.analyze read onExit uri
    rw [analyzeAll, bind_run, hrun]
    exact analyzeAll_ok uris h'

theorem rechecked_of_tidy {w : LuaWorld} (hw : Tidy w) (body : Bytes) :
    Rechecked (luaServer read onExit) w body := by
  intro e _ _ c
  simp only [call, e.withParams_eq, bind_run]
  cases e.members?.bind configurationParams? with
  | none => simp
  | some settings =>
    have hall : (analyzeAll (luaServer read onExit) (Table.keys w.session.documents)
        { w with session := { w.session with
            settings := mergeLayer (pickSection settings) w.session.settings } }).1 = .ok () := by
      rcases hw with ⟨-, hvacant⟩ | hw
      · rw [hvacant.documents]
        rfl
      · exact analyzeAll_ok read onExit _ (hw.resettle _)
    change (didChangeConfiguration (luaServer read onExit) settings w).1 ≠ _
    rw [didChangeConfiguration, bind_run, addLayer, modifySession_run, andThen_ok, bind_run, session_run,
      andThen_ok, bind_run]
    rcases hrun : analyzeAll (luaServer read onExit) (Table.keys w.session.documents) _ with ⟨r, w'⟩
    rw [hrun] at hall
    cases hall
    simp

/-- **Texts that can be sent never bring a change of the settings to a stop.** -/
theorem rechecks_of_proper : ∀ {bodies : List Bytes}, (∀ body ∈ bodies, ProperBody body) →
    ∀ {w : LuaWorld}, Tidy w → Rechecks (luaServer read onExit) w bodies
  | [], _, _, _ => trivial
  | body :: _, h, _, hw =>
    ⟨rechecked_of_tidy read onExit hw body, fun _ =>
      rechecks_of_proper (fun b hb => h b (List.mem_cons_of_mem body hb))
        (handle_tidy read onExit (h body List.mem_cons_self) hw)⟩

end

end LuaServer
