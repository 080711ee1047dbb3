/-
# Identifiers and their occurrences

The identifiers that a front end reports for a text are the names whose role is to be one
(`Proofs/Roles.lean`), each where its token stands and as long as its token.  Tokens stand apart, so at
most one identifier covers a position, and that is the one which a request about the position is about.

Main result: `parse_occurrences`.
-/
import LuaServer.Proofs.Encoding
import LuaServer.Proofs.Inspection
import LuaServer.Proofs.Renaming
import LuaServer.Proofs.Roles

namespace LuaServer

/-! ## 1. Stretches of a line -/

/-- What an identifier is called, where it stands, and its length. -/
def Occurrence.stretch (o : Occurrence) : Text × Int × Int × Int := (o.name, o.line, o.column, o.length)

/-- The text of a token, where it stands, and its length. -/
def Lua.Token.stretch (t : Lua.Token) : Text × Int × Int × Int :=
  (t.text, t.pos.line, t.pos.column, t.text.length)

/-- The token covers a position, which is counted from 0. -/
def Lua.Token.covers (t : Lua.Token) (p : Position) : Prop :=
  t.pos.line = p.line + 1 ∧ t.pos.column ≤ p.character + 1 ∧
    p.character + 1 < t.pos.column + t.text.length

instance (t : Lua.Token) (p : Position) : Decidable (t.covers p) :=
  inferInstanceAs (Decidable (_ ∧ _ ∧ _))

/-- An identifier ends before another one begins. -/
def Occurrence.Apart (a b : Occurrence) : Prop :=
  a.line < b.line ∨ a.line = b.line ∧ a.column + a.length ≤ b.column

/-- Only one of identifiers that stand apart covers a place. -/
theorem bestAt_eq_some {line column : Int} {os : List Occurrence} (h : os.Pairwise Occurrence.Apart)
    {o : Occurrence} (ho : o ∈ os) (hcovers : o.covers line column = true) :
    bestAt line column os = some o := by
  have hall : ∀ x ∈ os.filter fun x => x.covers line column, x.covers line column = true :=
    fun x hx => (List.mem_filter.mp hx).2
  have hpair := h.filter fun x => x.covers line column
  have hmem : o ∈ os.filter fun x => x.covers line column := List.mem_filter.mpr ⟨ho, hcovers⟩
  rw [bestAt]
  generalize (os.filter fun x => x.covers line column) = found at hall hpair hmem
  match found, hall, hpair, hmem with
  | [x], _, _, hmem =>
    obtain rfl := List.mem_singleton.mp hmem
    rfl
  | x :: y :: _, hall, hpair, _ =>
    -- two of them would overlap
    have hx := hall x (by simp)
    have hy := hall y (by simp)
    have hapart := List.rel_of_pairwise_cons hpair List.mem_cons_self
    simp only [Occurrence.covers, Bool.and_eq_true, decide_eq_true_eq] at hx hy
    unfold Occurrence.Apart at hapart
    omega

theorem bestAt_eq_none {line column : Int} {os : List Occurrence}
    (h : ∀ o ∈ os, o.covers line column = false) : bestAt line column os = none := by
  rw [bestAt, List.filter_eq_nil_iff.mpr (by simpa using h)]
  rfl

namespace Lua

/-! ## 2. Tokens stand apart -/

/-- Every token ends before those after it begin. -/
theorem Lexes.separate {pos : Pos} {cs : Text} {ts : List Token} (h : Lexes pos cs ts) :
    ts.Pairwise fun t u => t.pos.advance t.text = u.pos ∨ (t.pos.advance t.text).Before u.pos := by
  induction h with
  | finish => simp
  | token _ _ _ hrest ih => exact .cons hrest.ordered.1 ih

/-- A name ends on its line. -/
theorem Lexes.name_apart {pos : Pos} {cs : Text} {ts : List Token} (h : Lexes pos cs ts) :
    ts.Pairwise fun t u => ∀ x, t.kind = .name x →
      t.pos.line < u.pos.line ∨ t.pos.line = u.pos.line ∧ t.pos.column + t.text.length ≤ u.pos.column := by
  refine h.separate.imp_of_mem ?_
  intro t u ht _ hafter x hx
  obtain ⟨htext, -, hword⟩ := h.name_text t ht x hx
  rw [← htext] at hword
  rw [advance_word hword] at hafter
  rcases hafter with heq | hbefore
  · rw [← heq]
    exact .inr ⟨rfl, Nat.le_refl _⟩
  · unfold Pos.Before at hbefore
    dsimp only at hbefore
    omega

/-! ## 3. The identifiers of a chunk -/

/-- Nothing but the end of the text follows a derivation of all of it. -/
theorem Lexes.next_eq {cs : Text} {ts next : List Token} {ms : List Mark} (h : Lexes .start cs ts)
    (hts : ts = tokensOf ms ++ next) (hnext : next ≠ []) (heof : kindOf next = .eof) :
    ∃ e, next = [e] ∧ e.kind = .eof := by
  obtain ⟨init, last, hlast, -, hinit⟩ := h.ended
  rw [hts] at hlast
  match next, hnext, heof with
  | [e], _, heof => exact ⟨e, rfl, heof⟩
  | e :: f :: rest, _, heof =>
    exfalso
    obtain ⟨front, z, hfront⟩ : ∃ front z, f :: rest = front ++ [z] :=
      ⟨_, _, (List.dropLast_append_getLast (List.cons_ne_nil f rest)).symm⟩
    rw [hfront, ← List.cons_append, ← List.append_assoc] at hlast
    have hinit' := (List.append_inj' hlast rfl).1
    exact hinit e (by simp [← hinit']) heof

/-- The tokens that became identifiers write them, in order. -/
theorem Written.stretches {ms : List Mark} (h : Written ms)
    (htext : ∀ t ∈ tokensOf ms, ∀ x, t.kind = .name x → t.text = x) :
    (tokensOf (ms.filter fun m => m.ident.isSome)).map (fun t => (t.text, t.pos))
      = (idents ms).map fun n => (n.name, n.pos) := by
  induction ms with
  | nil => rfl
  | cons m ms ih =>
    have hms : Written ms := fun m' hm' => h m' (List.mem_cons_of_mem _ hm')
    have ih := ih hms fun t ht => htext t (List.mem_cons_of_mem _ ht)
    cases hident : m.ident with
    | none => simpa [idents, tokensOf, hident] using ih
    | some n =>
      obtain ⟨hkind, hpos⟩ := h m List.mem_cons_self n hident
      have hname := htext m.tok List.mem_cons_self _ hkind
      simpa [idents, tokensOf, hident, hname, hpos] using ih

/-- Every identifier of a chunk has a binding. -/
theorem parse_bound {source uri : Text} {c : Chunk} (h : parse source uri = .ok c) :
    ∀ n ∈ c.names, ∃ b, c.bindings[n.binding]? = some b := by
  obtain ⟨tokens, ms, next, σ, -, -, -, -, hbind, hbindings⟩ := parse_sound h
  have hnamed := (bindBlock_finds c.body {} σ hbind).named Tidy.initial
  intro n hn
  obtain ⟨b, hb, -⟩ := hnamed n hn
  simp only [Scopes.table, List.getElem?_map, Array.getElem?_toList, Option.map_eq_some_iff] at hb
  obtain ⟨b, hb, -⟩ := hb
  exact ⟨b, hbindings ▸ hb⟩

/-- All identifiers of a chunk are reported. -/
theorem Chunk.stretches {source uri : Text} {c : Chunk} (h : parse source uri = .ok c)
    (types : Types) :
    (c.identifiers types).map (fun i => (i.name, i.pos)) = c.names.map fun n => (n.name, n.pos) := by
  rw [Chunk.identifiers, List.map_filterMap, ← List.filterMap_eq_map]
  refine List.filterMap_congr ?_
  intro n hn
  obtain ⟨b, hb⟩ := parse_bound h n hn
  rw [hb]
  rfl

end Lua

/-- The identifiers that the front end reports are those of the tokens. -/
theorem visit_stretches {source uri : Text} {c : Lua.Chunk} (h : Lua.parse source uri = .ok c)
    {tokens : List Lua.Token} (htokens : Lua.tokenize source = .ok tokens) (types : Lua.Types) :
    (luaFrontEnd.visit () ⟨c, types⟩).1.map Occurrence.stretch
      = (Lua.identifierTokens tokens).map Lua.Token.stretch := by
  obtain ⟨tokens', ms, next, σ, hlex, hreads, hnext, heof, -, -⟩ := Lua.parse_sound h
  obtain rfl : tokens' = tokens := Except.ok.inj ((Lua.tokensFrom_iff.mpr hlex).symm.trans htokens)
  obtain ⟨e, rfl, he⟩ := hlex.next_eq hreads.tokens hnext heof
  have htext : ∀ t ∈ Lua.tokensOf ms, ∀ x, t.kind = .name x → t.text = x := by
    intro t ht x hx
    refine (hlex.name_text t ?_ x hx).1
    rw [hreads.tokens]
    exact List.mem_append_left _ ht
  let view : Text × Pos → Text × Int × Int × Int := fun p => (p.1, p.2.line, p.2.column, p.1.length)
  have htoken : (Lua.identifierTokens tokens').map Lua.Token.stretch
      = ((Lua.identifierTokens tokens').map fun t => (t.text, t.pos)).map view := by
    rw [List.map_map]
    rfl
  have hoccurrence : (luaFrontEnd.visit () ⟨c, types⟩).1.map Occurrence.stretch
      = ((c.identifiers types).map fun i => (i.name, i.pos)).map view := by
    rw [List.map_map]
    exact List.map_map
  rw [htoken, hoccurrence, Lua.Chunk.stretches h types, hreads.identifierTokens_eq he,
    hreads.written.stretches htext, hreads.names]

/-- The identifiers among tokens are some of them, in order. -/
theorem Lua.Scan.identifierTokens_sublist (s : Scan) (ts : List Token) :
    (s.identifierTokens ts).Sublist ts := by
  induction ts generalizing s with
  | nil => exact .slnil
  | cons t ts ih =>
    rw [Scan.identifierTokens]
    split
    · exact (ih _).cons_cons t
    · exact (ih _).cons t

/-- Every identifier is a name. -/
theorem Lua.Scan.name_of_mem_identifierTokens (s : Scan) (ts : List Token) :
    ∀ t ∈ s.identifierTokens ts, ∃ x, t.kind = .name x := by
  induction ts generalizing s with
  | nil => simp [Scan.identifierTokens]
  | cons u ts ih =>
    intro t ht
    rw [Scan.identifierTokens] at ht
    split at ht
    · next hidentifies =>
      rcases List.mem_cons.mp ht with rfl | ht
      · unfold Scan.identifies at hidentifies
        split at hidentifies
        · next x hx => exact ⟨x, hx⟩
        · cases hidentifies
      · exact ih _ t ht
    · exact ih _ t ht

/-- The identifiers of a text stand apart. -/
theorem identifierTokens_apart {source : Text} {tokens : List Lua.Token}
    (h : Lua.tokenize source = .ok tokens) :
    (Lua.identifierTokens tokens).Pairwise fun t u =>
      t.pos.line < u.pos.line ∨ t.pos.line = u.pos.line ∧ t.pos.column + t.text.length ≤ u.pos.column := by
  have happart := (Lua.tokensFrom_iff.mp h).name_apart.sublist
    (Lua.Scan.identifierTokens_sublist {} tokens)
  refine happart.imp_of_mem ?_
  intro t u ht _ hafter
  obtain ⟨x, hx⟩ := Lua.Scan.name_of_mem_identifierTokens {} tokens t ht
  exact hafter x hx

/-- Identifiers with the stretches of tokens stand apart as these do. -/
theorem apart_of_stretches {os : List Occurrence} {ts : List Lua.Token}
    (h : os.map Occurrence.stretch = ts.map Lua.Token.stretch)
    (hts : ts.Pairwise fun t u =>
      t.pos.line < u.pos.line ∨ t.pos.line = u.pos.line ∧ t.pos.column + t.text.length ≤ u.pos.column) :
    os.Pairwise Occurrence.Apart := by
  have happart : (ts.map Lua.Token.stretch).Pairwise fun a b =>
      a.2.1 < b.2.1 ∨ a.2.1 = b.2.1 ∧ a.2.2.1 + a.2.2.2 ≤ b.2.2.1 := by
    rw [List.pairwise_map]
    refine hts.imp ?_
    intro t u hafter
    dsimp only [Lua.Token.stretch]
    omega
  rw [← h, List.pairwise_map] at happart
  exact happart

/-- Lists with the same stretches have the same of them. -/
theorem stretch_of_mem {os : List Occurrence} {ts : List Lua.Token}
    (h : os.map Occurrence.stretch = ts.map Lua.Token.stretch) :
    (∀ o ∈ os, ∃ t ∈ ts, o.stretch = t.stretch) ∧ ∀ t ∈ ts, ∃ o ∈ os, o.stretch = t.stretch := by
  constructor
  · intro o ho
    have hmem := List.mem_map_of_mem (f := Occurrence.stretch) ho
    rw [h] at hmem
    obtain ⟨t, ht, hstretch⟩ := List.mem_map.mp hmem
    exact ⟨t, ht, hstretch.symm⟩
  · intro t ht
    have hmem := List.mem_map_of_mem (f := Lua.Token.stretch) ht
    rw [← h] at hmem
    exact List.mem_map.mp hmem

/-! ## 4. Requests about a position -/

/-- A document with this text is open under the URI, none of its diagnostics is an error, and they can
be published. -/
structure ErrorFree (s : Session Unit LuaTree) (uri source : Text) (tree : LuaTree) : Prop where
  found : ∃ doc r body, Table.get? uri s.documents = some doc ∧ doc.text = source ∧
    inspect s.analysis source uri = .ok r ∧ r.tree = some tree ∧ encode (r.notice uri doc) = .ok body

section
variable (read : ReadFile) (onExit : ExitPolicy) {w : World Unit LuaTree} {uri source : Text}
  {tree : LuaTree}

theorem ErrorFree.parse (h : ErrorFree w.session uri source tree) :
    Lua.parse source uri = .ok tree.chunk := by
  obtain ⟨doc, r, body, -, -, hreport, htree, -⟩ := h.found
  exact (inspect_eq_tree hreport htree).1

/-- A document without diagnostics is free of errors. -/
theorem errorFree_of_silent {s : Session Unit LuaTree} {doc : Document}
    (hdoc : Table.get? uri s.documents = some doc) (huri : Clean uri)
    (hsilent : (inspect s.analysis doc.text uri).toOption.map (fun r => (r.diagnostics, r.tree.isSome))
      = some ([], true)) : ∃ tree, ErrorFree s uri doc.text tree := by
  obtain ⟨r, hreport, hr⟩ := Option.map_eq_some_iff.mp hsilent
  obtain ⟨hdiagnostics, hsome⟩ := Prod.mk.inj hr
  obtain ⟨tree, htree⟩ := Option.isSome_iff_exists.mp hsome
  have hclean : (r.notice uri doc).Clean := by
    rw [Report.notice, hdiagnostics]
    cases hversion : doc.version <;> simp [publishJson, notification, huri]
  obtain ⟨body, hencode⟩ := encode_of_clean hclean
  exact ⟨tree, doc, r, body, hdoc, rfl, ok_of_toOption hreport, htree, hencode⟩

/-- The analysis of a document without errors gives its tree. -/
theorem ErrorFree.analyze (h : ErrorFree w.session uri source tree) :
    ∃ w', LuaServer.analyze (luaServer read onExit) uri w = (.ok (some tree), w') := by
  obtain ⟨doc, r, body, hdoc, rfl, hreport, htree, hencode⟩ := h.found
  obtain ⟨log, hrun⟩ := analyze_open read onExit hdoc hreport hencode
  rw [htree] at hrun
  exact ⟨_, hrun⟩

/-- What is refused where no identifier stands. -/
def notFound (uri : Text) (p : Position) : RpcError where
  code := .identifierNotFound
  message := text "identifier not found"
  data := Json.object [("uri", .str uri), ("line", .nat p.line), ("character", .nat p.character)]

/-- A request about a position of a document without errors is about the best identifier there. -/
theorem ErrorFree.resolve (h : ErrorFree w.session uri source tree) (p : Position) :
    ∃ w', LuaServer.resolve (luaServer read onExit) ⟨uri, p⟩ w
      = (match bestAt (p.line + 1) (p.character + 1) (luaFrontEnd.visit () tree).1 with
        | some o => .ok (tree, o)
        | none => .error (.refused (notFound uri p)), w') := by
  obtain ⟨w', hrun⟩ := h.analyze read onExit
  refine ⟨w', ?_⟩
  simp only [LuaServer.resolve, bind_run, hrun, andThen_ok, visit_run]
  cases bestAt (p.line + 1) (p.character + 1) (luaFrontEnd.visit () tree).1 <;> rfl

end

/-- **Occurrences are exactly the identifiers.**  The occurrences of a text that is read are the names
whose role is to be an identifier, in order, each where its token stands and as long as its text, and
every one ends before the next begins.  In a document without errors a request about a position is about
the identifier which covers it, and is refused exactly if there is none. -/
theorem parse_occurrences {source uri : Text} {c : Lua.Chunk} (h : Lua.parse source uri = .ok c) :
    ∃ tokens, Lua.tokenize source = .ok tokens ∧
      (∀ types : Lua.Types,
        (luaFrontEnd.visit () ⟨c, types⟩).1.map Occurrence.stretch
          = (Lua.identifierTokens tokens).map Lua.Token.stretch ∧
        (luaFrontEnd.visit () ⟨c, types⟩).1.Pairwise Occurrence.Apart ∧
        ∀ o ∈ (luaFrontEnd.visit () ⟨c, types⟩).1, 0 < o.length) ∧
      ∀ (read : ReadFile) (onExit : ExitPolicy) (w : World Unit LuaTree) (tree : LuaTree)
        (p : Position), ErrorFree w.session uri source tree →
        (∀ t ∈ Lua.identifierTokens tokens, t.covers p →
          ∃ o ∈ (luaFrontEnd.visit () tree).1, o.stretch = t.stretch ∧
            ∃ w', resolve (luaServer read onExit) ⟨uri, p⟩ w = (.ok (tree, o), w')) ∧
        ((∀ t ∈ Lua.identifierTokens tokens, ¬t.covers p) ↔
          ∃ w', resolve (luaServer read onExit) ⟨uri, p⟩ w
            = (.error (.refused (notFound uri p)), w')) := by
  obtain ⟨tokens, ms, next, σ, hlex, -⟩ := Lua.parse_sound h
  have htokens := Lua.tokensFrom_iff.mpr hlex
  refine ⟨tokens, htokens, ?_, ?_⟩
  · intro types
    have hstretches := visit_stretches h htokens types
    refine ⟨hstretches, apart_of_stretches hstretches (identifierTokens_apart htokens), ?_⟩
    intro o ho
    obtain ⟨t, ht, hstretch⟩ := (stretch_of_mem hstretches).1 o ho
    obtain ⟨x, hx⟩ := Lua.Scan.name_of_mem_identifierTokens {} tokens t ht
    have hmem := (Lua.Scan.identifierTokens_sublist {} tokens).subset ht
    obtain ⟨htext, hne, -⟩ := hlex.name_text t hmem x hx
    have hlength : o.length = t.text.length := congrArg (·.2.2.2) hstretch
    have hpos := List.length_pos_iff.mpr hne
    rw [hlength, htext]
    omega
  · intro read onExit w tree p hfree
    obtain ⟨w', hresolve⟩ := hfree.resolve read onExit p
    have hstretches := visit_stretches hfree.parse htokens tree.types
    have happart := apart_of_stretches hstretches (identifierTokens_apart htokens)
    have hcovers : ∀ {o : Occurrence} {t : Lua.Token}, o.stretch = t.stretch →
        (o.covers (p.line + 1) (p.character + 1) = true ↔ t.covers p) := by
      intro o t hstretch
      obtain ⟨-, hline, hcolumn, hlength⟩ : _ ∧ _ ∧ _ ∧ _ := by
        simpa only [Occurrence.stretch, Lua.Token.stretch, Prod.mk.injEq] using hstretch
      simp only [Occurrence.covers, Lua.Token.covers, Bool.and_eq_true, decide_eq_true_eq, hline,
        hcolumn, hlength]
      omega
    refine ⟨?_, ?_, ?_⟩
    · intro t ht htcovers
      obtain ⟨o, ho, hstretch⟩ := (stretch_of_mem hstretches).2 t ht
      rw [bestAt_eq_some happart ho ((hcovers hstretch).mpr htcovers)] at hresolve
      exact ⟨o, ho, hstretch, w', hresolve⟩
    · intro hnone
      rw [bestAt_eq_none] at hresolve
      · exact ⟨w', hresolve⟩
      · intro o ho
        obtain ⟨t, ht, hstretch⟩ := (stretch_of_mem hstretches).1 o ho
        rw [← Bool.not_eq_true, hcovers hstretch]
        exact hnone t ht
    · rintro ⟨w'', hrefused⟩ t ht htcovers
      obtain ⟨o, ho, hstretch⟩ := (stretch_of_mem hstretches).2 t ht
      rw [bestAt_eq_some happart ho ((hcovers hstretch).mpr htcovers), hrefused] at hresolve
      cases hresolve

/-- In `local _ <const> = {_ = _._}` the name of the local and the table before the dot are
identifiers; the attribute, the key and the field are none. -/
theorem parse_occurrences_keyed :
    let source := text "local _ <const> = {_ = _._}"
    let uri := text "a.lua"
    let w : World Unit LuaTree :=
      { session := { documents := [(uri, ⟨source, some 1, .null⟩)], memory := () } }
    ∃ (c : Lua.Chunk) (tokens : List Lua.Token) (tree : LuaTree),
      Lua.parse source uri = .ok c ∧ Lua.tokenize source = .ok tokens ∧
      (luaFrontEnd.visit () ⟨c, #[]⟩).1.map Occurrence.stretch
        = [(text "_", 1, 7, 1), (text "_", 1, 24, 1)] ∧
      ErrorFree w.session uri source tree ∧
      (∃ o w', o.stretch = (text "_", 1, 24, 1) ∧
        resolve (luaServer (fun _ => none) .note) ⟨uri, ⟨0, 23⟩⟩ w = (.ok (tree, o), w')) ∧
      ∃ w', resolve (luaServer (fun _ => none) .note) ⟨uri, ⟨0, 19⟩⟩ w
        = (.error (.refused (notFound uri ⟨0, 19⟩)), w') := by
  intro source uri w
  have hdoc : Table.get? uri w.session.documents = some ⟨source, some 1, .null⟩ := rfl
  obtain ⟨tree, hfree⟩ := errorFree_of_silent hdoc (by decide) (by decide +kernel)
  have hlex : ((Lua.tokenize source).toOption.map fun ts =>
      (Lua.identifierTokens ts).map fun t => (t.text, t.pos)) = some
      [(text "_", ⟨1, 7⟩), (text "_", ⟨1, 24⟩)] := by decide +kernel
  obtain ⟨tokens, htokens, hvisit, hresolve⟩ := parse_occurrences hfree.parse
  rw [htokens] at hlex
  replace hlex : (Lua.identifierTokens tokens).map (fun t => (t.text, t.pos)) = _ :=
    Option.some.inj hlex
  have hstretches : (Lua.identifierTokens tokens).map Lua.Token.stretch
      = [(text "_", 1, 7, 1), (text "_", 1, 24, 1)] := by
    have hview := congrArg (List.map fun p : Text × Pos =>
      ((p.1, p.2.line, p.2.column, p.1.length) : Text × Int × Int × Int)) hlex
    rwa [List.map_map] at hview
  refine ⟨tree.chunk, tokens, tree, hfree.parse, htokens, (hvisit #[]).1.trans hstretches, hfree, ?_, ?_⟩
  · obtain ⟨hcovered, -⟩ := hresolve (fun _ => none) .note w tree ⟨0, 23⟩ hfree
    have hmem : (text "_", (⟨1, 24⟩ : Pos)) ∈ (Lua.identifierTokens tokens).map fun t => (t.text, t.pos) := by
      simp [hlex]
    obtain ⟨t, ht, heq⟩ := List.mem_map.mp hmem
    obtain ⟨htext, hpos⟩ := Prod.mk.inj heq
    have hcovers : t.covers ⟨0, 23⟩ := by
      rw [Lua.Token.covers, htext, hpos]
      decide
    obtain ⟨o, -, hstretch, w', hrun⟩ := hcovered t ht hcovers
    refine ⟨o, w', ?_, hrun⟩
    rw [hstretch, Lua.Token.stretch, htext, hpos]
    rfl
  · refine (hresolve (fun _ => none) .note w tree ⟨0, 19⟩ hfree).2.mp ?_
    intro t ht hcovers
    have hmem : (t.text, t.pos) ∈ (Lua.identifierTokens tokens).map fun t => (t.text, t.pos) :=
      List.mem_map_of_mem ht
    rw [hlex] at hmem
    rw [Lua.Token.covers] at hcovers
    simp only [List.mem_cons, Prod.mk.injEq, List.not_mem_nil, or_false] at hmem
    rcases hmem with ⟨htext, hpos⟩ | ⟨htext, hpos⟩ <;> rw [htext, hpos] at hcovers <;>
      exact absurd hcovers (by decide)

end LuaServer
