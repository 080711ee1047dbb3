/-
# Where a definition leads

A definition is the first of the references, and those are the identifiers that are spelled alike and have
variables of one list of declarations: one `local`, one list of parameters, one `for`.  Declarations stand
before what they declare (`Proofs/Declarations.lean`), so the first of them is a name of the list itself.
It declares the very variable, and is its only name, unless the list uses the spelling twice.

Two kinds of variables are out of reach of that.  In `local a, a = 1, 2` both variables count as one
symbol, and what means the second is led to the first (`definition_misses`).  The implicit `self` of a
method is declared by no identifier, and what means it is led to its first mention.

Main result: `definition_declares`.
-/
import LuaServer.Proofs.Answers
import LuaServer.Proofs.Declarations

namespace LuaServer

/-! ## 1. Names and their stretches -/

/-- The stretch of an identifier of a text, which is counted from 0. -/
def Lua.Name.range (n : Lua.Name) : Span :=
  ⟨⟨n.pos.line - 1, n.pos.column - 1⟩, ⟨n.pos.line - 1, n.pos.column - 1 + n.name.length⟩⟩

/-- An identifier is reported with its stretch. -/
theorem Occurrence.Reports.range_eq {c : Lua.Chunk} {n : Lua.Name} {o : Occurrence} (h : o.Reports c n)
    (hfits : o.Fits) : o.range = n.range := by
  obtain ⟨-, hline, hcolumn, hlength, -⟩ := h
  obtain ⟨hline', -, hcolumn', -, -⟩ := hfits
  simp only [Occurrence.range, Lua.Name.range, Span.mk.injEq, Position.mk.injEq]
  omega

/-- A place in a document is told from others by its JSON form. -/
theorem locationJson_inj {uri : Text} {s t : Span} (h : locationJson uri s = locationJson uri t) :
    s = t := by
  obtain ⟨⟨l, c⟩, ⟨l', c'⟩⟩ := s
  obtain ⟨⟨k, b⟩, ⟨k', b'⟩⟩ := t
  simpa [locationJson, Span.toJson, Position.toJson, Json.object, Json.nat, and_assoc, Int.ofNat_inj] using h

/-- Where two lists go together, the first of one that is sought goes with the first of the other. -/
theorem find?_of_forall₂ {α β : Type} {R : α → β → Prop} {p : α → Bool} {q : β → Bool} {l : List α}
    {l' : List β} (h : List.Forall₂ R l l') (hpq : ∀ a ∈ l, ∀ b, R a b → p a = q b) {a : α}
    (ha : l.find? p = some a) : ∃ b, R a b ∧ l'.find? q = some b := by
  induction h with
  | nil => cases ha
  | @cons x y l l' hxy _ ih =>
    have hsame := hpq x List.mem_cons_self y hxy
    cases hp : p x with
    | true =>
      rw [List.find?_cons, hp] at ha
      obtain rfl := Option.some.inj ha
      exact ⟨y, hxy, by rw [List.find?_cons, ← hsame, hp]⟩
    | false =>
      rw [List.find?_cons, hp] at ha
      obtain ⟨b, hb, hfound⟩ := ih (fun a h => hpq a (List.mem_cons_of_mem x h)) ha
      exact ⟨b, hb, by rw [List.find?_cons, ← hsame, hp, hfound]⟩

section
variable {source uri : Text} {tree : LuaTree} {n : Lua.Name} {d : Lua.Decl} {o : Occurrence}

/-- The identifiers that are reported, beside what they mean. -/
theorem uses_reported (h : Lua.parse source uri = .ok tree.chunk) :
    List.Forall₂ (fun u x => x.Reports tree.chunk u.1) (Lua.scopeBlock [] tree.chunk.body).uses
      tree.occurrences := by
  have hreports := visit_reports h tree.types
  rw [← tree.chunk.scoping_names, List.forall₂_map_left_iff] at hreports
  exact hreports

/-- An identifier denotes the same symbol as one that means a local if it means a variable of the same
list and spelling. -/
theorem sameSymbol_eq_isKin (h : Lua.parse source uri = .ok tree.chunk)
    (hn : (n, .local d) ∈ (Lua.scopeBlock [] tree.chunk.body).uses) (ho : o.Reports tree.chunk n)
    {u : Lua.Name × Lua.Target} (hu : u ∈ (Lua.scopeBlock [] tree.chunk.body).uses) {x : Occurrence}
    (hx : x.Reports tree.chunk u.1) : u.2.isKin d = x.sameSymbol o := by
  obtain ⟨hname, -, -, -, b, hb, hscope⟩ := ho
  obtain ⟨hname', -, -, -, b', hb', hscope'⟩ := hx
  have hkin := Lua.parse_isKin_iff h hn hu hb hb' rfl
  rw [Bool.eq_iff_iff, ← hkin, Occurrence.sameSymbol, Bool.and_eq_true, decide_eq_true_eq,
    decide_eq_true_eq, hname, hname', hscope, hscope', Int.ofNat_inj]

end

/-! ## 2. The answers about a variable -/

/-- No other name of the list of a variable is spelled like the variable's. -/
def Lua.Scoping.Singular (pass : Lua.Scoping) (d : Lua.Decl) : Prop :=
  ∀ e ∈ pass.declared, e.site.isSome = true → (Lua.Target.local e).isKin d = true → e = d

instance (pass : Lua.Scoping) (d : Lua.Decl) : Decidable (pass.Singular d) :=
  inferInstanceAs (Decidable (∀ e ∈ pass.declared, _))

/-- The questions about an identifier that means `d` are answered from `spans`, and lead to the identifier
`m`: the first of those that mean a variable of the same list and spelling.  A variable with a place of its
own is led to a declaration of its list, which is its own if the list uses its spelling once; and its own is
among `spans` in any case. -/
structure LeadsTo (srv : Server Unit LuaTree) (w : LuaWorld) (uri : Text) (p : Position) (new : Text)
    (pass : Lua.Scoping) (d : Lua.Decl) (m : Lua.Name) (spans : List Span) : Prop where
  definition : (definition srv ⟨uri, p⟩ w).1 = .ok (locationJson uri m.range)
  references : (references srv ⟨uri, p⟩ w).1 = .ok (.arr (spans.map (locationJson uri)))
  rename : (rename srv ⟨⟨uri, p⟩, new⟩ w).1 = .ok (editsJson uri spans new)
  first : ∃ e, pass.uses.find? (·.2.isKin d) = some (m, .local e) ∧
    (d.site.isSome = true → pass.Declares m e)
  declared : d.site.isSome = true → ∃ k, pass.Declares k d ∧ k.range ∈ spans
  own : d.site.isSome = true → pass.Singular d → pass.Declares m d

/-- The definition is the first identifier that is found for the list and spelling. -/
theorem LeadsTo.definition_eq {srv : Server Unit LuaTree} {w : LuaWorld} {uri : Text} {p : Position}
    {new : Text} {pass : Lua.Scoping} {d : Lua.Decl} {m : Lua.Name} {spans : List Span}
    (h : LeadsTo srv w uri p new pass d m spans) {s : Span}
    (hs : (pass.uses.find? (·.2.isKin d)).map (·.1.range) = some s) :
    (LuaServer.definition srv ⟨uri, p⟩ w).1 = .ok (locationJson uri s) := by
  obtain ⟨e, hfind, -⟩ := h.first
  rw [hfind] at hs
  rw [h.definition, ← Option.some.inj hs]

section
variable (read : ReadFile) (onExit : ExitPolicy) {w : LuaWorld} {uri : Text}

/-- The questions about an identifier lead to the first name of its list and spelling. -/
theorem Askable.leadsTo {source : Text} {tree : LuaTree} (h : Askable w uri source tree) {n : Lua.Name}
    {d : Lua.Decl} (hn : (n, .local d) ∈ (Lua.scopeBlock [] tree.chunk.body).uses) {p : Position}
    (hcovers : n.Covers p) {new : Text} (hnew : acceptsName new = true) :
    ∃ m spans, LeadsTo (luaServer read onExit) w uri p new (Lua.scopeBlock [] tree.chunk.body) d m
      spans := by
  have hparse := h.errorFree.parse
  have hname : ∀ {k : Lua.Name} {t : Lua.Target}, (k, t) ∈ (Lua.scopeBlock [] tree.chunk.body).uses →
      k ∈ tree.chunk.names := fun hk => tree.chunk.scoping_names ▸ List.mem_map_of_mem hk
  obtain ⟨o, ho, hreports, -, hreferences, ⟨first, rest, hspans, hdefinition⟩, hrename⟩ :=
    h.answered read onExit (hname hn) hcovers hnew
  obtain ⟨m, e, hfind, hdeclares⟩ := Lua.parse_declares_first hparse hn
  have hm : (m, .local e) ∈ (Lua.scopeBlock [] tree.chunk.body).uses := List.mem_of_find?_eq_some hfind
  -- the first stretch is that of the first name
  obtain ⟨x, hx, hfound⟩ := find?_of_forall₂ (uses_reported hparse)
    (fun u hu y hy => sameSymbol_eq_isKin hparse hn hreports hu hy) hfind
  have hfirst : first = m.range := by
    have hhead : (tree.rangesOf o).head? = some x.range := by
      rw [LuaTree.rangesOf, List.head?_map, List.head?_filter, hfound, Option.map_some]
    rw [hspans] at hhead
    exact (Option.some.inj hhead).trans (hx.range_eq (h.fits x (List.mem_of_find?_eq_some hfound)))
  refine ⟨m, tree.rangesOf o, hfirst ▸ hdefinition, hreferences, hrename, ⟨e, hfind, fun hsite =>
    (hdeclares hsite).1⟩, fun hsite => ?_, fun hsite hsingular => ?_⟩
  · obtain ⟨-, k, hk⟩ := hdeclares hsite
    obtain ⟨y, hy, hreportsk⟩ := exists_reports (visit_reports hparse tree.types) (hname hk.1)
    have hsame := sameSymbol_eq_isKin hparse hn hreports hk.1 hreportsk
    refine ⟨k, hk, List.mem_map.mpr ⟨y, List.mem_filter.mpr ⟨hy, ?_⟩, hreportsk.range_eq (h.fits y hy)⟩⟩
    rw [← hsame]
    simp [Lua.Target.isKin]
  · have hdecl := (hdeclares hsite).1
    have hforeseen := Lua.scopeBlock_foreseen [] tree.chunk.body
    have hin := (hforeseen.meant hm rfl).resolve_left List.not_mem_nil
    have hkin := List.find?_some hfind
    obtain rfl := hsingular e hin (by rw [hdecl.2]; rfl) hkin
    exact hdecl

/-- **A definition leads to the declaration.**  In a document without errors, a question about an
identifier that means a local leads to the first identifier that means a variable of the same list of
declarations and is spelled alike.  Unless the local is an implicit `self`, that is a name of the list, and
the declaration of the very local if the list uses the spelling once; and the declaration of the very local
is among the references and the edits of a renaming.

Apart from that are texts of 2 ^ 31 - 1 code points or more in which an identifier ends at a place that is
too large to be sent. -/
theorem definition_declares {source : Text} {tree : LuaTree} (h : ErrorFree w.session uri source tree)
    {n : Lua.Name} {d : Lua.Decl} (hn : (n, .local d) ∈ (Lua.scopeBlock [] tree.chunk.body).uses)
    {p : Position} (hcovers : n.Covers p) {new : Text} (hnew : acceptsName new = true) :
    ((∃ m spans, LeadsTo (luaServer read onExit) w uri p new (Lua.scopeBlock [] tree.chunk.body) d m spans) ∨
      ∃ k ∈ tree.chunk.names, ¬k.Fits) ∧
    ((∃ k ∈ tree.chunk.names, ¬k.Fits) → ¬Sendable source) := by
  constructor
  · by_cases hfits : ∀ k ∈ tree.chunk.names, k.Fits
    · have hask : Askable w uri source tree := ⟨h, occurrences_fit h.parse hfits⟩
      exact .inl (hask.leadsTo read onExit hn hcovers hnew)
    · exact .inr (by simpa using hfits)
  · rintro ⟨k, hk, hout⟩ hsend
    exact hout (names_fit h.parse hsend k hk)

end

/-! ## 3. Examples -/

/-- The document of a session that has one, if its text is short and has a tree. -/
theorem sessionWith_askable {uri source : Text} (huri : Clean uri) (hsource : Clean source ∧ Sendable source)
    (htree : ((inspect {} source uri).toOption.map fun r => r.tree.isSome) = some true) :
    ¬Erroneous (sessionWith uri source).session uri ∧
      ∃ tree, Askable (sessionWith uri source) uri source tree := by
  have hdoc : Table.get? uri (sessionWith uri source).session.documents
      = some ⟨source, some 1, .null⟩ := by
    simp [sessionWith, Table.get?]
  exact askable_of_sendable hdoc huri hsource.1 hsource.2 htree

/-- In `local function f(x) return f, x end return f` the function in its own body is led to its name. -/
theorem definition_declares_recursive :
    let source := text "local function f(x) return f, x end return f"
    let uri := text "a.lua"
    let w := sessionWith uri source
    ∃ tree n d m spans, ErrorFree w.session uri source tree ∧ n.Covers ⟨0, 27⟩ ∧
      (n, .local d) ∈ (Lua.scopeBlock [] tree.chunk.body).uses ∧
      LeadsTo (luaServer (fun _ => none) .note) w uri ⟨0, 27⟩ (text "g") (Lua.scopeBlock [] tree.chunk.body)
        d m spans ∧
      (Lua.scopeBlock [] tree.chunk.body).Declares m d ∧ m.pos = ⟨1, 16⟩ := by
  intro source uri w
  have hsource : Clean source ∧ Sendable source := by decide +kernel
  obtain ⟨-, tree, hask⟩ := sessionWith_askable (by decide : Clean uri) hsource (by decide +kernel)
  have hrun : ((Lua.parse source uri).toOption.map fun c : Lua.Chunk =>
      decide (∃ u ∈ (Lua.scopeBlock [] c.body).uses, ∃ d ∈ (Lua.scopeBlock [] c.body).declared,
        u.2 = .local d ∧ u.1.Covers ⟨0, 27⟩ ∧ d.site = some ⟨1, 16⟩ ∧
          (Lua.scopeBlock [] c.body).Singular d)) = some true := by
    decide +kernel
  rw [hask.errorFree.parse] at hrun
  obtain ⟨⟨n, t⟩, hn, d, -, rfl, hcovers, hsite, hsingular⟩ := of_decide_eq_true (Option.some.inj hrun)
  obtain ⟨hleads, hlarge⟩ := definition_declares (fun _ => none) .note hask.errorFree hn hcovers
    (by decide : acceptsName (text "g") = true)
  obtain ⟨m, spans, hleads⟩ := hleads.resolve_right fun hout => hlarge hout hsource.2
  have hown := hleads.own (by rw [hsite]; rfl) hsingular
  exact ⟨tree, n, d, m, spans, hask.errorFree, hcovers, hn, hleads, hown,
    Option.some.inj (hown.2.symm.trans hsite)⟩

/-- In `local a, a = 1, 2 return a` the second variable is returned, and the definition is the first.  What
`self` means in a method is declared by no identifier, and the definition is its first mention. -/
theorem definition_misses :
    let uri := text "a.lua"
    let srv := luaServer (fun _ => none) .note
    let twice := text "local a, a = 1, 2 return a"
    let method := text "t = {} function t:m() return self end"
    (∃ c n d k, ¬Erroneous (sessionWith uri twice).session uri ∧ Lua.parse twice uri = .ok c ∧
        (n, .local d) ∈ (Lua.scopeBlock [] c.body).uses ∧ n.Covers ⟨0, 25⟩ ∧
        (Lua.scopeBlock [] c.body).Declares k d ∧
        (definition srv ⟨uri, ⟨0, 25⟩⟩ (sessionWith uri twice)).1 ≠ .ok (locationJson uri k.range)) ∧
    ∃ c n d, ¬Erroneous (sessionWith uri method).session uri ∧ Lua.parse method uri = .ok c ∧
        (n, .local d) ∈ (Lua.scopeBlock [] c.body).uses ∧ n.Covers ⟨0, 29⟩ ∧ d.kind = .param ∧
        (∀ k, ¬(Lua.scopeBlock [] c.body).Declares k d) ∧
        (definition srv ⟨uri, ⟨0, 29⟩⟩ (sessionWith uri method)).1 = .ok (locationJson uri n.range) := by
  intro uri srv twice method
  have huri : Clean uri := by decide
  constructor
  · obtain ⟨hno, tree, hask⟩ := sessionWith_askable huri
      (by decide +kernel : Clean twice ∧ Sendable twice) (by decide +kernel)
    have hrun : ((Lua.parse twice uri).toOption.map fun c : Lua.Chunk =>
        decide (∃ u ∈ (Lua.scopeBlock [] c.body).uses, ∃ d ∈ (Lua.scopeBlock [] c.body).declared,
          u.2 = .local d ∧ u.1.Covers ⟨0, 25⟩ ∧
          ((Lua.scopeBlock [] c.body).uses.find? (·.2.isKin d)).map (·.1.range)
            = some ⟨⟨0, 6⟩, ⟨0, 7⟩⟩ ∧
          ∃ k ∈ (Lua.scopeBlock [] c.body).uses, k.2 = .local d ∧ d.site = some k.1.pos ∧
            k.1.range = ⟨⟨0, 9⟩, ⟨0, 10⟩⟩)) = some true := by
      decide +kernel
    have hparse := hask.errorFree.parse
    rw [hparse] at hrun
    obtain ⟨⟨n, t⟩, hn, d, -, rfl, hcovers, hfind, ⟨k, t'⟩, hk, rfl, hsite, hrange⟩ :=
      of_decide_eq_true (Option.some.inj hrun)
    obtain ⟨m, spans, hleads⟩ := hask.leadsTo (fun _ => none) .note hn hcovers
      (by decide : acceptsName (text "g") = true)
    refine ⟨tree.chunk, n, d, k, hno, hparse, hn, hcovers, ⟨hk, hsite⟩, fun hsame => ?_⟩
    rw [hleads.definition_eq hfind] at hsame
    have heq := locationJson_inj (Except.ok.inj hsame)
    rw [hrange] at heq
    cases heq
  · obtain ⟨hno, tree, hask⟩ := sessionWith_askable huri
      (by decide +kernel : Clean method ∧ Sendable method) (by decide +kernel)
    have hrun : ((Lua.parse method uri).toOption.map fun c : Lua.Chunk =>
        decide (∃ u ∈ (Lua.scopeBlock [] c.body).uses, ∃ d ∈ (Lua.scopeBlock [] c.body).declared,
          u.2 = .local d ∧ u.1.Covers ⟨0, 29⟩ ∧
          ((Lua.scopeBlock [] c.body).uses.find? (·.2.isKin d)).map (·.1.range)
            = some u.1.range ∧ d.kind = .param ∧ d.site = none)) = some true := by
      decide +kernel
    have hparse := hask.errorFree.parse
    rw [hparse] at hrun
    obtain ⟨⟨n, t⟩, hn, d, -, rfl, hcovers, hfind, hkind, hsite⟩ :=
      of_decide_eq_true (Option.some.inj hrun)
    obtain ⟨m, spans, hleads⟩ := hask.leadsTo (fun _ => none) .note hn hcovers
      (by decide : acceptsName (text "g") = true)
    refine ⟨tree.chunk, n, d, hno, hparse, hn, hcovers, hkind, ?_, hleads.definition_eq hfind⟩
    intro k hk
    cases hsite.symm.trans hk.2

end LuaServer
