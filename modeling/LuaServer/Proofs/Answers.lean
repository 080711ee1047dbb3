/-
# What is answered about an identifier

Hover, references, definition and rename each analyse the document and look for the identifier at a
position, on their own.  They agree: all are refused for the same reason, or all are answered from the
same list of stretches, which are those of the occurrences of one symbol.  The lists of two identifiers
are the same or have no position in common, so they divide the identifiers of a document.

That rests on two things.  Identifiers stand apart, so a position is about one of them at most; and to
denote the same variable is an equivalence, so an identifier may stand for any other of its list.

A text whose places are too large to be sent is apart from all that (`Oversized`).

Main result: `answers_agree`.
-/
import LuaServer.Proofs.RenameReply
import LuaServer.Proofs.UpToDate

namespace LuaServer

/-! ## 1. Stretches -/

/-- A stretch holds a position: the position of one of its characters. -/
def Span.Holds (s : Span) (q : Position) : Prop :=
  q.line = s.start.line ∧ s.start.character ≤ q.character ∧ q.character < s.stop.character

/-- A stretch of one line with something in it. -/
def Span.IsSolid (s : Span) : Prop := s.start.line = s.stop.line ∧ s.start.character < s.stop.character

/-- A stretch ends before another one begins. -/
def Span.Before (s t : Span) : Prop :=
  s.stop.line < t.start.line ∨ s.stop.line = t.start.line ∧ s.stop.character ≤ t.start.character

/-- Two stretches have no position in common. -/
def Span.Disjoint (s t : Span) : Prop := ∀ q, ¬(s.Holds q ∧ t.Holds q)

/-- The stretch of an identifier, which is counted from 0. -/
def Occurrence.range (o : Occurrence) : Span :=
  ⟨⟨(o.line - 1).toNat, (o.column - 1).toNat⟩, ⟨(o.line - 1).toNat, (o.column - 1 + o.length).toNat⟩⟩

namespace Occurrence

section
variable {o a b : Occurrence}

/-- The stretch of an identifier that can be sent is sent. -/
theorem Fits.span (h : o.Fits) : o.span = .ok o.range := by
  obtain ⟨hline, hline', hcolumn, hlength, hstop⟩ := h
  rcases span_make_cases (o.line - 1) (o.column - 1) o.length with ⟨-, hspan⟩ | ⟨hout, -⟩
  · exact hspan
  · exact absurd ⟨by omega, by omega, by omega⟩ hout

theorem Fits.spansOf {os : List Occurrence} (h : ∀ o ∈ os, o.Fits) :
    spansOf os = .ok (os.map Occurrence.range) := by
  induction os with
  | nil => rfl
  | cons o os ih =>
    rw [LuaServer.spansOf, (h o List.mem_cons_self).span, ih fun x hx => h x (List.mem_cons_of_mem o hx)]
    rfl

/-- The stretch of an identifier holds the positions that the identifier covers. -/
theorem Fits.holds_iff (h : o.Fits) (q : Position) :
    o.range.Holds q ↔ o.covers (q.line + 1) (q.character + 1) = true := by
  obtain ⟨hline, hline', hcolumn, hlength, hstop⟩ := h
  simp only [Span.Holds, range, covers, Bool.and_eq_true, decide_eq_true_eq]
  omega

theorem Fits.isSolid (h : o.Fits) (hlength : 0 < o.length) : o.range.IsSolid := by
  obtain ⟨hline, hline', hcolumn, -, hstop⟩ := h
  refine ⟨rfl, ?_⟩
  dsimp only [range]
  omega

/-- The stretches of identifiers that stand apart come one after the other. -/
theorem Apart.before (h : a.Apart b) (ha : a.Fits) (hb : b.Fits) : a.range.Before b.range := by
  unfold Apart at h
  unfold Fits at ha hb
  dsimp only [Span.Before, range]
  omega

theorem sameSymbol_self (o : Occurrence) : o.sameSymbol o = true := by simp [sameSymbol]

/-- Identifiers that denote the same variable denote the same as any other. -/
theorem sameSymbol_congr (h : a.sameSymbol b = true) (x : Occurrence) :
    x.sameSymbol a = x.sameSymbol b := by
  simp only [sameSymbol, Bool.and_eq_true, decide_eq_true_eq] at h
  simp only [sameSymbol, h.1, h.2]

end

end Occurrence

/-! ## 2. Reasons -/

/-- Analysis of a document under a URI gives no tree: the document is not open, or its text has a syntax
error, or the checker finds an error in it. -/
inductive Erroneous (s : Session Unit LuaTree) (uri : Text) : Prop
  | closed (h : Table.get? uri s.documents = none)
  | unread {doc : Document} {e : Lua.SyntaxError} (hdoc : Table.get? uri s.documents = some doc)
      (h : Lua.parse doc.text uri = .error e)
  | message {doc : Document} {c : Lua.Chunk} {m : Lua.Message}
      (hdoc : Table.get? uri s.documents = some doc) (h : Lua.parse doc.text uri = .ok c)
      (hm : m ∈ (Lua.check s.analysis c).messages) (herror : severityOf (text m.issue.tag) = .error)

/-- An identifier of an open document covers a position. -/
def Covered (s : Session Unit LuaTree) (uri : Text) (p : Position) : Prop :=
  ∃ doc c n, Table.get? uri s.documents = some doc ∧ Lua.parse doc.text uri = .ok c ∧
    n ∈ c.names ∧ n.Covers p

instance (n : Lua.Name) (p : Position) : Decidable (n.Covers p) :=
  inferInstanceAs (Decidable (_ ∧ _ ∧ _))

/-- The stretch of an identifier of a text can be sent. -/
def Lua.Name.Fits (n : Lua.Name) : Prop :=
  n.pos.line ≤ maxCoordinate + 1 ∧ n.pos.column + n.name.length ≤ maxCoordinate + 1

/-- A place in an open document is too large to be sent: the analysis crashes over one, or an identifier
ends at one. -/
inductive Oversized (s : Session Unit LuaTree) (uri : Text) : Prop
  | finding {doc : Document} {c : Crash} (hdoc : Table.get? uri s.documents = some doc)
      (h : inspect s.analysis doc.text uri = .error c)
  | identifier {doc : Document} {c : Lua.Chunk} {n : Lua.Name}
      (hdoc : Table.get? uri s.documents = some doc) (h : Lua.parse doc.text uri = .ok c)
      (hn : n ∈ c.names) (hout : ¬n.Fits)

/-! ## 3. Reports -/

/-- The diagnostics of findings are as bad as their tags say. -/
theorem diagnosticsOf_severity {fs : List Finding} {ds : List Diagnostic} (h : diagnosticsOf fs = .ok ds) :
    ds.map (·.severity) = fs.map fun f => severityOf f.tag := by
  replace h := diagnosticsOf_ok h
  induction h with
  | nil => rfl
  | cons hfirst _ ih =>
    obtain ⟨span, -, rfl⟩ := ofFinding_ok hfirst
    rw [List.map_cons, List.map_cons, ih]

section
variable {s : Session Unit LuaTree} {uri : Text} {doc : Document} {r : Report}

/-- An open document has no tree if something is wrong with it, and only then. -/
theorem erroneous_iff (hdoc : Table.get? uri s.documents = some doc)
    (hreport : inspect s.analysis doc.text uri = .ok r) : Erroneous s uri ↔ r.tree = none := by
  cases inspected_of hreport with
  | refused hparse => exact iff_of_true (.unread hdoc hparse) rfl
  | @read c ds hparse hds =>
    have hseverity := diagnosticsOf_severity hds
    rw [List.map_map] at hseverity
    have herror : ds.any Diagnostic.isError = true ↔
        ∃ m ∈ (Lua.check s.analysis c).messages, severityOf (text m.issue.tag) = .error := by
      have hmem : (∃ d ∈ ds, d.severity = .error) ↔ .error ∈ ds.map (·.severity) := by simp
      simp only [List.any_eq_true, Diagnostic.isError, decide_eq_true_eq]
      rw [hmem, hseverity]
      simp [Finding.ofMessage]
    dsimp only
    constructor
    · intro h
      refine if_pos (herror.mpr ?_)
      cases h with
      | closed hnone => cases hdoc.symm.trans hnone
      | unread hdoc' hparse' =>
        cases hdoc.symm.trans hdoc'
        cases hparse.symm.trans hparse'
      | message hdoc' hparse' hm hsevere =>
        cases hdoc.symm.trans hdoc'
        cases hparse.symm.trans hparse'
        exact ⟨_, hm, hsevere⟩
    · intro h
      split at h
      · next hany =>
        obtain ⟨m, hm, hsevere⟩ := herror.mp hany
        exact .message hdoc hparse hm hsevere
      · cases h

/-- An analysis crashes over places only. -/
theorem inspect_misplaced {settings : Lua.CheckSettings} {source : Text} {c : Crash}
    (h : inspect settings source uri = .error c) : c.IsMisplaced := by
  cases inspected_of h with
  | refusedBeyond _ hrefusal => exact ofRefusal_misplaced hrefusal
  | readBeyond _ hds => exact diagnosticsOf_misplaced hds

end

/-! ## 4. Answers -/

section
variable {σ τ : Type} (srv : Server σ τ) (w : World σ τ) (uri : Text) (p : Position) (new : Text)

/-- What the four questions about a position are answered. -/
def answers : List (Except Failure Json) :=
  [(hover srv ⟨uri, p⟩ w).1, (references srv ⟨uri, p⟩ w).1, (definition srv ⟨uri, p⟩ w).1,
    (rename srv ⟨⟨uri, p⟩, new⟩ w).1]

/-- A question is refused with a code. -/
def IsRefusal (code : Int) (answer : Except Failure Json) : Prop :=
  ∃ err : RpcError, answer = .error (.refused err) ∧ err.code.number = code

/-- The questions are answered from a list of stretches. -/
structure Shared (spans : List Span) : Prop where
  hover : ∃ value, ∃ s ∈ spans, s.Holds p ∧ (hover srv ⟨uri, p⟩ w).1 = .ok (hoverJson value s)
  references : (references srv ⟨uri, p⟩ w).1 = .ok (.arr (spans.map (locationJson uri)))
  definition : ∃ first rest, spans = first :: rest ∧
    (definition srv ⟨uri, p⟩ w).1 = .ok (locationJson uri first)
  rename : (rename srv ⟨⟨uri, p⟩, new⟩ w).1 = .ok (editsJson uri spans new)
  ordered : spans.Pairwise Span.Before ∧ ∀ s ∈ spans, s.IsSolid

variable {srv w uri p new}

/-- If no identifier is found, that is the answer to all four. -/
theorem answers_unresolved {f : Failure} (hnew : acceptsName new = true)
    (h : (resolve srv ⟨uri, p⟩ w).1 = .error f) : ∀ a ∈ answers srv w uri p new, a = .error f := by
  have hrun : resolve srv ⟨uri, p⟩ w = (.error f, (resolve srv ⟨uri, p⟩ w).2) := Prod.ext h rfl
  simp only [answers, hover, references, definition, rename, hnew, if_true, bind_run, List.mem_cons,
    List.not_mem_nil, or_false, forall_eq_or_imp, forall_eq]
  rw [hrun]
  exact ⟨rfl, rfl, rfl, rfl⟩

end

section
variable (read : ReadFile) (onExit : ExitPolicy) {w : LuaWorld} {uri source : Text} {tree : LuaTree}

/-- The identifiers of a tree. -/
def LuaTree.occurrences (tree : LuaTree) : List Occurrence := (luaFrontEnd.visit () tree).1

/-- The stretches of the identifiers of a tree that denote the same variable as one, in order. -/
def LuaTree.rangesOf (tree : LuaTree) (o : Occurrence) : List Span :=
  (tree.occurrences.filter fun x => x.sameSymbol o).map Occurrence.range

/-- The identifiers of a text stand apart. -/
theorem occurrences_apart (h : Lua.parse source uri = .ok tree.chunk) :
    tree.occurrences.Pairwise Occurrence.Apart := by
  obtain ⟨tokens, ms, next, σ, hlex, -⟩ := Lua.parse_sound h
  have htokens := Lua.tokensFrom_iff.mpr hlex
  exact apart_of_stretches (visit_stretches h htokens tree.types) (identifierTokens_apart htokens)

/-- No identifier of a text is empty. -/
theorem occurrences_length_pos (h : Lua.parse source uri = .ok tree.chunk) :
    ∀ o ∈ tree.occurrences, 0 < o.length := by
  obtain ⟨tokens, ms, next, σ, hlex, -⟩ := Lua.parse_sound h
  have hstretches := visit_stretches h (Lua.tokensFrom_iff.mpr hlex) tree.types
  intro o ho
  obtain ⟨t, ht, hstretch⟩ := (stretch_of_mem hstretches).1 o ho
  obtain ⟨x, hx⟩ := Lua.Scan.name_of_mem_identifierTokens {} tokens t ht
  obtain ⟨htext, hne, -⟩ := hlex.name_text t ((Lua.Scan.identifierTokens_sublist {} tokens).subset ht) x hx
  have hlength : o.length = t.text.length := congrArg (·.2.2.2) hstretch
  have hpos := List.length_pos_iff.mpr hne
  rw [hlength, htext]
  omega

/-- An identifier that is reported covers what the identifier of the chunk covers. -/
theorem Occurrence.Reports.covers_iff {c : Lua.Chunk} {n : Lua.Name} {o : Occurrence} (h : o.Reports c n)
    (q : Position) : o.covers (q.line + 1) (q.character + 1) = true ↔ n.Covers q := by
  obtain ⟨-, hline, hcolumn, hlength, -⟩ := h
  simp only [Occurrence.covers, Lua.Name.Covers, Bool.and_eq_true, decide_eq_true_eq, hline, hcolumn,
    hlength]
  omega

/-- Every identifier that is reported is one of the chunk. -/
theorem exists_name (h : Lua.parse source uri = .ok tree.chunk) {o : Occurrence}
    (ho : o ∈ tree.occurrences) : ∃ n ∈ tree.chunk.names, o.Reports tree.chunk n := by
  have hgeneral : ∀ {ns : List Lua.Name} {os : List Occurrence},
      List.Forall₂ (Occurrence.Reports tree.chunk) ns os → o ∈ os →
      ∃ n ∈ ns, o.Reports tree.chunk n := by
    intro ns os hall
    induction hall with
    | nil => nofun
    | cons hx _ ih =>
      intro hmem
      rcases List.mem_cons.mp hmem with rfl | hmem
      · exact ⟨_, List.mem_cons_self, hx⟩
      · obtain ⟨n, hn, hreports⟩ := ih hmem
        exact ⟨n, List.mem_cons_of_mem _ hn, hreports⟩
  exact hgeneral (visit_reports h tree.types) ho

theorem matching_run (o : Occurrence) : matching (luaServer read onExit) tree o w
    = (.ok (tree.occurrences.filter fun x => x.sameSymbol o), w) := rfl

/-- All four questions about an identifier that is found are answered from its stretches. -/
theorem answers_resolved {p : Position} {new : Text} (hnew : acceptsName new = true) {o : Occurrence}
    {w' : LuaWorld} (h : resolve (luaServer read onExit) ⟨uri, p⟩ w = (.ok (tree, o), w'))
    (hfits : ∀ x ∈ tree.occurrences, x.Fits) (ho : o ∈ tree.occurrences) :
    (hover (luaServer read onExit) ⟨uri, p⟩ w).1 = .ok (hoverJson (hoverText o) o.range) ∧
    (references (luaServer read onExit) ⟨uri, p⟩ w).1
      = .ok (.arr ((tree.rangesOf o).map (locationJson uri))) ∧
    (∃ first rest, tree.rangesOf o = first :: rest ∧
      (definition (luaServer read onExit) ⟨uri, p⟩ w).1 = .ok (locationJson uri first)) ∧
    (rename (luaServer read onExit) ⟨⟨uri, p⟩, new⟩ w).1 = .ok (editsJson uri (tree.rangesOf o) new) := by
  have hsame : ∀ x ∈ tree.occurrences.filter fun x => x.sameSymbol o, x.Fits :=
    fun x hx => hfits x (List.mem_filter.mp hx).1
  have hspans := Occurrence.Fits.spansOf hsame
  refine ⟨?_, ?_, ?_, ?_⟩
  · simp only [hover, bind_run, h, andThen_ok, (hfits o ho).span, orCrash_ok_run, pure_run]
  · simp only [references, bind_run, h, andThen_ok, matching_run, hspans, orCrash_ok_run, pure_run]
    rfl
  · simp only [definition, bind_run, h, andThen_ok, matching_run, LuaTree.rangesOf]
    cases hfound : tree.occurrences.filter fun x => x.sameSymbol o with
    | nil =>
      have hmem : o ∈ tree.occurrences.filter fun x => x.sameSymbol o :=
        List.mem_filter.mpr ⟨ho, o.sameSymbol_self⟩
      rw [hfound] at hmem
      cases hmem
    | cons first rest =>
      have hfirst := hsame first (by rw [hfound]; exact List.mem_cons_self)
      refine ⟨_, _, rfl, ?_⟩
      simp only [bind_run, hfirst.span, orCrash_ok_run, andThen_ok, pure_run]
  · simp only [rename, hnew, if_true, bind_run, h, andThen_ok, matching_run, hspans, orCrash_ok_run,
      pure_run]
    rfl

/-! ## 5. Documents without errors -/

/-- In a document without errors every identifier can be asked about. -/
structure Askable (w : LuaWorld) (uri source : Text) (tree : LuaTree) : Prop where
  errorFree : ErrorFree w.session uri source tree
  fits : ∀ x ∈ tree.occurrences, x.Fits

namespace Askable

variable (h : Askable w uri source tree) {o : Occurrence} {q : Position}
include h

/-- A request about a position is about the identifier that covers it. -/
theorem resolve (ho : o ∈ tree.occurrences) (hcovers : o.covers (q.line + 1) (q.character + 1) = true) :
    ∃ w', LuaServer.resolve (luaServer read onExit) ⟨uri, q⟩ w = (.ok (tree, o), w') := by
  obtain ⟨w', hresolve⟩ := h.errorFree.resolve read onExit q
  have hbest := bestAt_eq_some (occurrences_apart h.errorFree.parse) ho hcovers
  rw [LuaTree.occurrences] at hbest
  rw [hbest] at hresolve
  exact ⟨w', hresolve⟩

/-- All four questions about a position that an identifier covers are answered from its stretches. -/
theorem answered {n : Lua.Name} (hn : n ∈ tree.chunk.names) (hcovers : n.Covers q) {new : Text}
    (hnew : acceptsName new = true) :
    ∃ o ∈ tree.occurrences, o.Reports tree.chunk n ∧
      (hover (luaServer read onExit) ⟨uri, q⟩ w).1 = .ok (hoverJson (hoverText o) o.range) ∧
      (references (luaServer read onExit) ⟨uri, q⟩ w).1
        = .ok (.arr ((tree.rangesOf o).map (locationJson uri))) ∧
      (∃ first rest, tree.rangesOf o = first :: rest ∧
        (definition (luaServer read onExit) ⟨uri, q⟩ w).1 = .ok (locationJson uri first)) ∧
      (rename (luaServer read onExit) ⟨⟨uri, q⟩, new⟩ w).1 = .ok (editsJson uri (tree.rangesOf o) new) := by
  obtain ⟨o, ho, hreports⟩ := exists_reports (visit_reports h.errorFree.parse tree.types) hn
  obtain ⟨w', hresolve⟩ := h.resolve read onExit ho ((hreports.covers_iff q).mpr hcovers)
  exact ⟨o, ho, hreports, answers_resolved read onExit hnew hresolve h.fits ho⟩

/-- A position is about one identifier at most. -/
theorem unique {a b : Occurrence} (ha : a ∈ tree.occurrences) (hb : b ∈ tree.occurrences)
    (hqa : a.range.Holds q) (hqb : b.range.Holds q) : a = b := by
  have happart := occurrences_apart h.errorFree.parse
  have hfirst := bestAt_eq_some happart ha (((h.fits a ha).holds_iff q).mp hqa)
  have hsecond := bestAt_eq_some happart hb (((h.fits b hb).holds_iff q).mp hqb)
  exact Option.some.inj (hfirst.symm.trans hsecond)

/-- The references at a position that an identifier covers are its stretches. -/
theorem references_run (ho : o ∈ tree.occurrences) (hq : o.range.Holds q) :
    (references (luaServer read onExit) ⟨uri, q⟩ w).1
      = .ok (.arr ((tree.rangesOf o).map (locationJson uri))) := by
  obtain ⟨w', hresolve⟩ := h.resolve read onExit ho (((h.fits o ho).holds_iff q).mp hq)
  exact (answers_resolved read onExit (by decide : acceptsName (text "x") = true) hresolve h.fits ho).2.1

/-- The stretches of an identifier are one after the other, and none of them is empty. -/
theorem ordered (o : Occurrence) :
    (tree.rangesOf o).Pairwise Span.Before ∧ ∀ s ∈ tree.rangesOf o, s.IsSolid := by
  have hparse := h.errorFree.parse
  constructor
  · rw [LuaTree.rangesOf, List.pairwise_map]
    refine ((occurrences_apart hparse).sublist List.filter_sublist).imp_of_mem ?_
    intro a b ha hb hapart
    exact hapart.before (h.fits a (List.mem_filter.mp ha).1) (h.fits b (List.mem_filter.mp hb).1)
  · intro s hs
    obtain ⟨x, hx, rfl⟩ := List.mem_map.mp hs
    have hx := (List.mem_filter.mp hx).1
    exact (h.fits x hx).isSolid (occurrences_length_pos hparse x hx)

/-- The same stretches are answered within them. -/
theorem within (hq : ∃ s ∈ tree.rangesOf o, s.Holds q) :
    (references (luaServer read onExit) ⟨uri, q⟩ w).1
      = .ok (.arr ((tree.rangesOf o).map (locationJson uri))) := by
  obtain ⟨s, hs, hholds⟩ := hq
  obtain ⟨x, hx, rfl⟩ := List.mem_map.mp hs
  obtain ⟨hx, hsame⟩ := List.mem_filter.mp hx
  rw [h.references_run read onExit hx hholds, LuaTree.rangesOf, LuaTree.rangesOf]
  simp only [Occurrence.sameSymbol_congr hsame]

/-- Other stretches are answered beyond them, which have no position in common with them. -/
theorem beyond (o : Occurrence) (hq : Covered w.session uri q)
    (hout : ¬∃ s ∈ tree.rangesOf o, s.Holds q) :
    ∃ others : List Span, (references (luaServer read onExit) ⟨uri, q⟩ w).1
        = .ok (.arr (others.map (locationJson uri))) ∧
      ∀ s ∈ tree.rangesOf o, ∀ t ∈ others, s.Disjoint t := by
  obtain ⟨x, hx, hholds⟩ : ∃ x ∈ tree.occurrences, x.range.Holds q := by
    obtain ⟨doc, c, n, hdoc, hparse, hn, hcovers⟩ := hq
    obtain ⟨doc', r, body, hdoc', hsource, -⟩ := h.errorFree.found
    cases hdoc.symm.trans hdoc'
    cases (hsource ▸ hparse).symm.trans h.errorFree.parse
    obtain ⟨x, hx, hreports⟩ := exists_reports (visit_reports h.errorFree.parse tree.types) hn
    exact ⟨x, hx, ((h.fits x hx).holds_iff q).mpr ((hreports.covers_iff q).mpr hcovers)⟩
  refine ⟨_, h.references_run read onExit hx hholds, ?_⟩
  intro s hs t ht q' hboth
  obtain ⟨a, ha, rfl⟩ := List.mem_map.mp hs
  obtain ⟨b, hb, rfl⟩ := List.mem_map.mp ht
  obtain ⟨ha, hao⟩ := List.mem_filter.mp ha
  obtain ⟨hb, hbx⟩ := List.mem_filter.mp hb
  -- a stretch of both lists would be of one identifier, so the identifier at the position would denote
  -- the variable of the first list too
  obtain rfl := h.unique ha hb hboth.1 hboth.2
  have hxo : x.sameSymbol o = true := by
    rw [← Occurrence.sameSymbol_congr hao, Occurrence.sameSymbol_congr hbx]
    exact x.sameSymbol_self
  exact hout ⟨x.range, List.mem_map_of_mem (List.mem_filter.mpr ⟨hx, hxo⟩), hholds⟩

end Askable

/-! ## 6. All documents -/

/-- The four questions about a position are all refused, and for the same reason, or are all answered from
one list of stretches.  That list is also the answer within the stretches, and beyond them the answers are
lists that have no position in common with it. -/
structure Agreement (srv : Server Unit LuaTree) (w : LuaWorld) (uri : Text) (p : Position) (new : Text) :
    Prop where
  erroneous : Erroneous w.session uri → ∀ a ∈ answers srv w uri p new, IsRefusal (-32000) a
  uncovered : ¬Erroneous w.session uri → ¬Covered w.session uri p →
    ∀ a ∈ answers srv w uri p new, IsRefusal (-32010) a
  covered : ¬Erroneous w.session uri → Covered w.session uri p → ∃ spans, Shared srv w uri p new spans ∧
    (∀ q, (∃ s ∈ spans, s.Holds q) →
      (references srv ⟨uri, q⟩ w).1 = .ok (.arr (spans.map (locationJson uri)))) ∧
    ∀ q, Covered w.session uri q → (¬∃ s ∈ spans, s.Holds q) → ∃ others : List Span,
      (references srv ⟨uri, q⟩ w).1 = .ok (.arr (others.map (locationJson uri))) ∧
        ∀ s ∈ spans, ∀ t ∈ others, s.Disjoint t

theorem resolve_erroneous {p : Position} {w' : LuaWorld}
    (h : analyze (luaServer read onExit) uri w = (.ok none, w')) :
    ∃ err : RpcError, (resolve (luaServer read onExit) ⟨uri, p⟩ w).1 = .error (.refused err) ∧
      err.code.number = -32000 := by
  rw [resolve, bind_run, h, andThen_ok]
  exact ⟨_, rfl, rfl⟩

/-- What is found of an open document: its analysis crashes, or gives no tree, or a tree with which the
document is free of errors. -/
theorem analyze_open_cases {doc : Document} (hdoc : Table.get? uri w.session.documents = some doc)
    (huri : Clean uri) (htext : Clean doc.text) :
    (∃ c w', inspect w.session.analysis doc.text uri = .error c ∧
      analyze (luaServer read onExit) uri w = (.error (.crashed c), w')) ∨
    (∃ w', Erroneous w.session uri ∧ analyze (luaServer read onExit) uri w = (.ok none, w')) ∨
    ∃ tree, ¬Erroneous w.session uri ∧ ErrorFree w.session uri doc.text tree := by
  rcases analyze_cases read onExit hdoc huri htext with ⟨r, log, hreport, hrun⟩ | ⟨c, hcrash, hrun⟩
  · cases htree : r.tree with
    | none =>
      rw [htree] at hrun
      exact .inr (.inl ⟨_, (erroneous_iff hdoc hreport).mpr htree, hrun⟩)
    | some tree =>
      obtain ⟨body, hencode⟩ := publish_encodes doc.version huri (inspect_clean htext hreport)
      refine .inr (.inr ⟨tree, fun h => ?_, doc, r, body, hdoc, rfl, hreport, htree, hencode⟩)
      rw [(erroneous_iff hdoc hreport).mp h] at htree
      cases htree
  · exact .inl ⟨c, _, hcrash, hrun⟩

/-- Identifiers are reported that can be sent if the names of the chunk can. -/
theorem occurrences_fit (hparse : Lua.parse source uri = .ok tree.chunk)
    (h : ∀ n ∈ tree.chunk.names, n.Fits) : ∀ o ∈ tree.occurrences, o.Fits := by
  obtain ⟨tokens, ms, next, σ, hlex, -⟩ := Lua.parse_sound hparse
  have hstretches := visit_stretches hparse (Lua.tokensFrom_iff.mpr hlex) tree.types
  intro o ho
  obtain ⟨n, hn, -, hline, hcolumn, hlength, -⟩ := exists_name hparse ho
  obtain ⟨t, ht, hstretch⟩ := (stretch_of_mem hstretches).1 o ho
  obtain ⟨k, hk⟩ := hlex.located t ((Lua.Scan.identifierTokens_sublist {} tokens).subset ht)
  obtain ⟨-, htline, htcolumn, -⟩ : _ ∧ _ ∧ _ ∧ _ := by
    simpa only [Occurrence.stretch, Lua.Token.stretch, Prod.mk.injEq, hk.pos] using hstretch
  have hone := one_le_placeAt source k
  obtain ⟨hfits, hstop⟩ := h n hn
  unfold Occurrence.Fits
  omega

section
variable {doc : Document} {p : Position} {new : Text}

/-- The questions about a document with a tree agree. -/
theorem Askable.agreement (h : Askable w uri source tree) (hno : ¬Erroneous w.session uri)
    (hnew : acceptsName new = true) : Agreement (luaServer read onExit) w uri p new := by
  refine ⟨fun herror => absurd herror hno, fun _ huncovered => ?_, fun _ hcovered => ?_⟩
  · -- no identifier covers the position, as one would be a name of the chunk
    obtain ⟨w', hresolve⟩ := h.errorFree.resolve read onExit p
    rw [bestAt_eq_none] at hresolve
    · have hrefused := congrArg Prod.fst hresolve
      intro a ha
      exact ⟨_, answers_unresolved hnew hrefused a ha, rfl⟩
    · intro o ho
      obtain ⟨n, hn, hreports⟩ := exists_name h.errorFree.parse ho
      rw [← Bool.not_eq_true, hreports.covers_iff]
      intro hcovers
      obtain ⟨doc, r, body, hdoc, hsource, -⟩ := h.errorFree.found
      exact huncovered ⟨doc, tree.chunk, n, hdoc, hsource ▸ h.errorFree.parse, hn, hcovers⟩
  · obtain ⟨doc, c, n, hdoc, hparse, hn, hcovers⟩ := hcovered
    obtain ⟨doc', r, body, hdoc', hsource, -⟩ := h.errorFree.found
    cases hdoc.symm.trans hdoc'
    cases (hsource ▸ hparse).symm.trans h.errorFree.parse
    obtain ⟨o, ho, hreports, hhover, hreferences, hdefinition, hrename⟩ :=
      h.answered read onExit hn hcovers hnew
    refine ⟨tree.rangesOf o, ⟨⟨_, o.range, ?_, ?_, hhover⟩, hreferences, hdefinition, hrename,
      h.ordered o⟩, fun q hq => h.within read onExit hq, fun q hq hout => h.beyond read onExit o hq hout⟩
    · exact List.mem_map_of_mem (List.mem_filter.mpr ⟨ho, o.sameSymbol_self⟩)
    · exact ((h.fits o ho).holds_iff p).mpr ((hreports.covers_iff p).mpr hcovers)

/-- How the search for an identifier ends. -/
theorem resolve_cases (huri : Clean uri)
    (htext : ∀ doc, Table.get? uri w.session.documents = some doc → Clean doc.text) :
    (∃ err, (resolve (luaServer read onExit) ⟨uri, p⟩ w).1 = .error (.refused err)) ∨
    (∃ c, c.IsMisplaced ∧ (resolve (luaServer read onExit) ⟨uri, p⟩ w).1 = .error (.crashed c)) ∨
    ∃ tree o w', resolve (luaServer read onExit) ⟨uri, p⟩ w = (.ok (tree, o), w') ∧
      o ∈ tree.occurrences := by
  cases hdoc : Table.get? uri w.session.documents with
  | none =>
    obtain ⟨err, hrefused, -⟩ :=
      resolve_erroneous read onExit (p := p) (analyze_absent read onExit hdoc)
    exact .inl ⟨err, hrefused⟩
  | some doc =>
    rcases analyze_open_cases read onExit hdoc huri (htext doc hdoc) with
      ⟨c, w', hcrash, hrun⟩ | ⟨w', -, hrun⟩ | ⟨tree, -, hfree⟩
    · refine .inr (.inl ⟨c, inspect_misplaced hcrash, ?_⟩)
      rw [resolve, bind_run, hrun, andThen_error]
    · obtain ⟨err, hrefused, -⟩ := resolve_erroneous read onExit (p := p) hrun
      exact .inl ⟨err, hrefused⟩
    · obtain ⟨w', hresolve⟩ := hfree.resolve read onExit p
      cases hbest : bestAt (p.line + 1) (p.character + 1) (luaFrontEnd.visit () tree).1 with
      | none =>
        rw [hbest] at hresolve
        exact .inl ⟨_, congrArg Prod.fst hresolve⟩
      | some o =>
        rw [hbest] at hresolve
        exact .inr (.inr ⟨tree, o, w', hresolve, bestAt_mem hbest⟩)

/-- **A definition is never missing:** the identifier that is found is among those that denote the same
variable. -/
theorem definition_ne_lost (huri : Clean uri)
    (htext : ∀ doc, Table.get? uri w.session.documents = some doc → Clean doc.text) :
    (definition (luaServer read onExit) ⟨uri, p⟩ w).1 ≠ .error (.crashed .lostSymbol) := by
  intro hlost
  rw [definition, bind_run] at hlost
  rcases resolve_cases read onExit (p := p) huri htext with
    ⟨err, hrun⟩ | ⟨c, hc, hrun⟩ | ⟨tree, o, w', hrun, ho⟩
  · rw [show resolve (luaServer read onExit) ⟨uri, p⟩ w = (_, _) from Prod.ext hrun rfl] at hlost
    cases hlost
  · rw [show resolve (luaServer read onExit) ⟨uri, p⟩ w = (_, _) from Prod.ext hrun rfl] at hlost
    cases hlost
    exact hc
  · simp only [hrun, andThen_ok, bind_run, matching_run] at hlost
    cases hfound : tree.occurrences.filter fun x => x.sameSymbol o with
    | nil =>
      have hmem : o ∈ tree.occurrences.filter fun x => x.sameSymbol o :=
        List.mem_filter.mpr ⟨ho, o.sameSymbol_self⟩
      rw [hfound] at hmem
      cases hmem
    | cons first rest =>
      simp only [hfound, bind_run] at hlost
      cases hspan : first.span with
      | ok span =>
        rw [hspan] at hlost
        cases hlost
      | error c =>
        rw [hspan] at hlost
        cases hlost
        exact span_make_misplaced hspan

end

/-- A document whose places can all be sent can be asked about, unless there is something wrong with it. -/
theorem askable_cases (hdoc : Table.get? uri w.session.documents = some doc) (huri : Clean uri)
    (htext : Clean doc.text) :
    Oversized w.session uri ∨
    (∃ w', Erroneous w.session uri ∧ analyze (luaServer read onExit) uri w = (.ok none, w')) ∨
    ∃ tree, ¬Erroneous w.session uri ∧ Askable w uri doc.text tree := by
  rcases analyze_open_cases read onExit hdoc huri htext with
    ⟨c, w', hcrash, -⟩ | ⟨w', herror, hrun⟩ | ⟨tree, hno, hfree⟩
  · exact .inl (.finding hdoc hcrash)
  · exact .inr (.inl ⟨w', herror, hrun⟩)
  · by_cases hfits : ∀ n ∈ tree.chunk.names, n.Fits
    · exact .inr (.inr ⟨tree, hno, hfree, occurrences_fit hfree.parse hfits⟩)
    · obtain ⟨n, hn, hout⟩ : ∃ n ∈ tree.chunk.names, ¬n.Fits := by simpa using hfits
      exact .inl (.identifier hdoc hfree.parse hn hout)

/-- The identifiers of a text whose places can all be sent can be sent. -/
theorem names_fit {c : Lua.Chunk} (hparse : Lua.parse source uri = .ok c) (hsend : Sendable source) :
    ∀ n ∈ c.names, n.Fits := by
  intro n hn
  obtain ⟨o, ho, -, hline, hcolumn, hlength, -⟩ := exists_reports (visit_reports hparse #[]) hn
  obtain ⟨-, hline', -, -, hstop⟩ := visit_fits hparse hsend #[] o ho
  unfold Lua.Name.Fits
  omega

/-- Only large texts have places that are too large to be sent. -/
theorem Oversized.not_sendable {s : Session Unit LuaTree} (h : Oversized s uri)
    (htext : ∀ doc, Table.get? uri s.documents = some doc → Clean doc.text) :
    ∃ doc, Table.get? uri s.documents = some doc ∧ ¬Sendable doc.text := by
  cases h with
  | @finding doc c hdoc hcrash =>
    refine ⟨doc, hdoc, fun hsend => ?_⟩
    rw [inspect_eq (htext doc hdoc) hsend] at hcrash
    cases hcrash
  | @identifier doc c n hdoc hparse hn hout =>
    exact ⟨doc, hdoc, fun hsend => hout (names_fit hparse hsend n hn)⟩

/-- A document that is not too large and has a tree can be asked about. -/
theorem askable_of_sendable (hdoc : Table.get? uri w.session.documents = some doc)
    (huri : Clean uri) (htext : Clean doc.text) (hsend : Sendable doc.text)
    (htree : ((inspect w.session.analysis doc.text uri).toOption.map fun r => r.tree.isSome) = some true) :
    ¬Erroneous w.session uri ∧ ∃ tree, Askable w uri doc.text tree := by
  obtain ⟨r, hreport, htree⟩ := Option.map_eq_some_iff.mp htree
  have hno : ¬Erroneous w.session uri := by
    rw [erroneous_iff hdoc (ok_of_toOption hreport), ← Option.isNone_iff_eq_none, ← Option.not_isSome, htree]
    exact Bool.false_ne_true
  rcases askable_cases (fun _ => none) .note hdoc huri htext with hover | ⟨-, herror, -⟩ | ⟨tree, -, hask⟩
  · obtain ⟨doc', hdoc', hlarge⟩ := hover.not_sendable fun doc' hdoc' => by
      cases hdoc.symm.trans hdoc'
      exact htext
    cases hdoc.symm.trans hdoc'
    exact absurd hsend hlarge
  · exact absurd herror hno
  · exact ⟨hno, tree, hask⟩

/-- **The answers about an identifier agree.**  Hover, references, definition and rename are refused
together if the document is not open or something is wrong with it, and refused together if no identifier
covers the position.  Otherwise all are answered from one list of stretches, of which the definition is the
first, and such lists divide the identifiers of the document.

Apart from that are texts of 2 ^ 31 - 1 code points or more in which a place is too large to be sent. -/
theorem answers_agree (huri : Clean uri)
    (htext : ∀ doc, Table.get? uri w.session.documents = some doc → Clean doc.text) (p : Position)
    {new : Text} (hnew : acceptsName new = true) :
    (Oversized w.session uri ∨ Agreement (luaServer read onExit) w uri p new) ∧
      (Oversized w.session uri →
        ∃ doc, Table.get? uri w.session.documents = some doc ∧ ¬Sendable doc.text) ∧
      (definition (luaServer read onExit) ⟨uri, p⟩ w).1 ≠ .error (.crashed .lostSymbol) := by
  refine ⟨?_, fun hover => hover.not_sendable htext, definition_ne_lost read onExit huri htext⟩
  -- what refuses one of the questions before an identifier is looked for refuses all
  have hrefuses : ∀ {w' : LuaWorld}, Erroneous w.session uri →
      analyze (luaServer read onExit) uri w = (.ok none, w') →
      Agreement (luaServer read onExit) w uri p new := by
    intro w' herror hrun
    refine ⟨fun _ a ha => ?_, fun hno => absurd herror hno, fun hno => absurd herror hno⟩
    obtain ⟨err, hrefused, hcode⟩ := resolve_erroneous read onExit (p := p) hrun
    exact ⟨err, answers_unresolved hnew hrefused a ha, hcode⟩
  cases hdoc : Table.get? uri w.session.documents with
  | none => exact .inr (hrefuses (.closed hdoc) (analyze_absent read onExit hdoc))
  | some doc =>
    rcases askable_cases read onExit hdoc huri (htext doc hdoc) with
      hover | ⟨w', herror, hrun⟩ | ⟨tree, hno, hask⟩
    · exact .inl hover
    · exact .inr (hrefuses herror hrun)
    · exact .inr (hask.agreement read onExit hno hnew)

end

/-- In `local a = b a = a` there is something to say about the name of the local, nothing about the keyword
before it, and of a document that is not open nothing at all. -/
theorem answers_agree_local :
    let source := text "local a = b a = a"
    let uri := text "a.lua"
    let new := text "total"
    let w : World Unit LuaTree :=
      { session := { documents := [(uri, ⟨source, some 1, .null⟩)], memory := () } }
    let srv := luaServer (fun _ => none) .note
    acceptsName new = true ∧ (∃ spans, Shared srv w uri ⟨0, 6⟩ new spans) ∧
      (∀ a ∈ answers srv w uri ⟨0, 0⟩ new, IsRefusal (-32010) a) ∧
      ∀ a ∈ answers srv w (text "b.lua") ⟨0, 6⟩ new, IsRefusal (-32000) a := by
  intro source uri new w srv
  have hnew : acceptsName new = true := by decide
  have hdoc : Table.get? uri w.session.documents = some ⟨source, some 1, .null⟩ := rfl
  have hclosed : Table.get? (text "b.lua") w.session.documents = none := by decide +kernel
  have hsource : Clean source ∧ Sendable source := by decide +kernel
  have hrun : ((inspect w.session.analysis source uri).toOption.map fun r => r.tree.isSome) = some true := by
    decide +kernel
  have hparse : ((Lua.parse source uri).toOption.map fun c =>
      (c.names.any fun n => decide (n.Covers ⟨0, 6⟩), c.names.any fun n => decide (n.Covers ⟨0, 0⟩)))
      = some (true, false) := by decide +kernel
  obtain ⟨c, hc, hcovers⟩ := Option.map_eq_some_iff.mp hparse
  obtain ⟨hin, hout⟩ := Prod.mk.inj hcovers
  obtain ⟨hno, -⟩ := askable_of_sendable hdoc (by decide) hsource.1 hsource.2 hrun
  have hcleanDoc : ∀ doc, Table.get? uri w.session.documents = some doc → Clean doc.text := by
    intro doc h
    obtain rfl := Option.some.inj (hdoc.symm.trans h)
    exact hsource.1
  have hsmall : ¬Oversized w.session uri := by
    intro hover
    obtain ⟨doc, h, hlarge⟩ := (answers_agree (fun _ => none) .note (w := w) (by decide) hcleanDoc ⟨0, 6⟩
      hnew).2.1 hover
    obtain rfl := Option.some.inj (hdoc.symm.trans h)
    exact hlarge hsource.2
  have hagree : ∀ p, Agreement srv w uri p new := fun p =>
    (answers_agree (fun _ => none) .note (by decide) hcleanDoc p hnew).1.resolve_left hsmall
  refine ⟨hnew, ?_, ?_, ?_⟩
  · obtain ⟨n, hn, hin⟩ := List.any_eq_true.mp hin
    obtain ⟨spans, hshared, -⟩ := (hagree ⟨0, 6⟩).covered hno
      ⟨_, c, n, hdoc, ok_of_toOption hc, hn, of_decide_eq_true hin⟩
    exact ⟨spans, hshared⟩
  · refine (hagree ⟨0, 0⟩).uncovered hno ?_
    rintro ⟨doc, c', n, h, hc', hn, hcovers⟩
    obtain rfl := Option.some.inj (hdoc.symm.trans h)
    obtain rfl := Except.ok.inj ((ok_of_toOption hc).symm.trans hc')
    have hany : (c.names.any fun n => decide (n.Covers ⟨0, 0⟩)) = true :=
      List.any_eq_true.mpr ⟨n, hn, decide_eq_true hcovers⟩
    rw [hout] at hany
    cases hany
  · have hcleanNone : ∀ doc, Table.get? (text "b.lua") w.session.documents = some doc → Clean doc.text := by
      intro doc h
      cases hclosed.symm.trans h
    obtain ⟨hanswers, hlarge, -⟩ := answers_agree (fun _ => none) .note (w := w)
      (by decide : Clean (text "b.lua")) hcleanNone ⟨0, 6⟩ hnew
    refine (hanswers.resolve_left fun hover => ?_).erroneous (.closed hclosed)
    obtain ⟨doc, h, -⟩ := hlarge hover
    cases hclosed.symm.trans h

end LuaServer
