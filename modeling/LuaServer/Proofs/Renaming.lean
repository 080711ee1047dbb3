/-
# A symbol under a new name

The identifiers of a symbol, which are those of one name and one scope, are given a name that the text
does not hold.  The text that the edits lead to has the tokens of the text before with the new name
(`Proofs/Edits.lean`), so it derives the tree with the new name (`Proofs/Respelling.lean`), and going
through that tree finds the same bindings (`Proofs/RenamedScopes.lean`).

Main result: `parse_renamed`.
-/
import LuaServer.Proofs.Edits
import LuaServer.Proofs.ReaderComplete
import LuaServer.Proofs.RenamedScopes
import LuaServer.Proofs.Resolution

namespace LuaServer.Lua

/-! ## 1. Symbols -/

/-- What tells the variable of an identifier from others: the name, and the scope of the binding. -/
def Chunk.symbol? (c : Chunk) (n : Name) : Option (Text × Nat) :=
  (c.bindings[n.binding]?).map fun b => (n.name, b.scope)

/-- The binding is one of a symbol. -/
def Chunk.binds (c : Chunk) (symbol : Text × Nat) (id : BindingId) : Bool :=
  (c.bindings[id]?).any fun b => (b.name, b.scope) = symbol

/-- The edit that calls an identifier `new`. -/
def Name.edit (new : Text) (n : Name) : Edit :=
  ⟨n.pos, ⟨n.pos.line, n.pos.column + n.name.length⟩, new⟩

/-- The edits that call a symbol `new`. -/
def Chunk.edits (c : Chunk) (symbol : Text × Nat) (new : Text) : List Edit :=
  (c.names.filter fun n => c.symbol? n = some symbol).map (Name.edit new)

/-- Other places, and a new name for the identifiers of a symbol. -/
def Chunk.recalling (c : Chunk) (symbol : Text × Nat) (new : Text) (move : Pos → Pos) : Respelling :=
  { move, name := fun n => if c.symbol? n = some symbol then new else n.name }

/-- **The same program, with a symbol under a new name.**  The tree is the same up to places and up to
the identifiers of the symbol, which are called `new`.  Each identifier has a binding of the scope and
the kind that it had, and two of them denote one symbol exactly when they did. -/
def Chunk.Recalled (c : Chunk) (symbol : Text × Nat) (new : Text) (c' : Chunk) : Prop :=
  ∃ move : Pos → Pos,
    let r := c.recalling symbol new move
    c'.body = respellBlock r c.body ∧
    c'.names = c.names.map r.ident ∧
    (∀ n ∈ c.names, ∃ b b', c.bindings[n.binding]? = some b ∧
      c'.bindings[(r.ident n).binding]? = some b' ∧ b'.scope = b.scope ∧ b'.kind = b.kind) ∧
    ∀ m ∈ c.names, ∀ n ∈ c.names,
      c'.symbol? (r.ident m) = c'.symbol? (r.ident n) ↔ c.symbol? m = c.symbol? n

/-! ## 2. The tokens of a symbol -/

/-- An identifier of the symbol stands at a place. -/
def Chunk.stands (c : Chunk) (symbol : Text × Nat) (p : Pos) : Bool :=
  c.names.any fun n => n.pos = p && c.symbol? n = some symbol

section
variable {c : Chunk} {symbol : Text × Nat} {new : Text} {ms : List Mark} {ts next : List Token}

/-- The identifiers of a chunk are those of its tokens, in their order. -/
theorem Reads.names (h : Reads (.block c.body) ts ms next) : c.names = Lua.idents ms := h.idents

/-- No two marks stand at one place. -/
theorem mark_unique (hpos : ((tokensOf ms).map (·.pos)).Nodup) {m m' : Mark} (hm : m ∈ ms)
    (hm' : m' ∈ ms) (h : m.tok.pos = m'.tok.pos) : m = m' := by
  rw [tokensOf, List.map_map] at hpos
  exact List.inj_on_of_nodup_map hpos hm hm' h

/-- A token stands where an identifier of the symbol does if it became one. -/
theorem stands_iff (h : Reads (.block c.body) ts ms next) (hpos : (ts.map (·.pos)).Nodup) {m : Mark}
    (hm : m ∈ ms) : c.stands symbol m.tok.pos = true ↔ ∃ n ∈ m.ident, c.symbol? n = some symbol := by
  have hms : ((tokensOf ms).map (·.pos)).Nodup := by
    rw [h.tokens, List.map_append] at hpos
    exact hpos.of_append_left
  simp only [Chunk.stands, List.any_eq_true, Bool.and_eq_true, decide_eq_true_eq, h.names]
  constructor
  · rintro ⟨n, hn, hnpos, hsymbol⟩
    obtain ⟨m', hm', hident⟩ := List.mem_filterMap.mp hn
    obtain ⟨-, hwrites⟩ := h.written m' hm' n hident
    obtain rfl := mark_unique hms hm' hm (hwrites.trans hnpos)
    exact ⟨n, hident, hsymbol⟩
  · rintro ⟨n, hn, hsymbol⟩
    obtain ⟨-, hwrites⟩ := h.written m hm n hn
    exact ⟨n, List.mem_filterMap.mpr ⟨m, hm, hn⟩, hwrites.symm, hsymbol⟩

/-- Tokens are called as the identifiers that they became. -/
theorem called_recalling (h : Reads (.block c.body) ts ms next) (hpos : (ts.map (·.pos)).Nodup)
    (move : Pos → Pos) :
    Called (c.recalling symbol new move) (callAs (c.stands symbol) new)
      (spellAs (callAs (c.stands symbol) new)) ms := by
  intro m hm
  have hstands : c.stands symbol m.tok.pos = true ↔ _ := stands_iff h hpos hm
  refine ⟨fun n hident => ?_, fun hident x _ => ?_, fun a ha => ?_⟩
  · have hstands : c.stands symbol m.tok.pos = true ↔ c.symbol? n = some symbol := by
      simp [hstands, hident]
    simp only [callAs, Chunk.recalling, hstands]
  · have hstands : ¬c.stands symbol m.tok.pos = true := by simp [hstands, hident]
    rw [callAs, if_neg hstands]
    exact ⟨rfl, rfl⟩
  · rw [spellAs, ha]

/-- The edits of tokens are those of the identifiers of the symbol. -/
theorem edits_eq (h : Reads (.block c.body) ts ms next) (hpos : (ts.map (·.pos)).Nodup) :
    ts.filterMap (Token.edit? (c.stands symbol) new) = c.edits symbol new := by
  have hrest : next.filterMap (Token.edit? (c.stands symbol) new) = [] := by
    rw [List.filterMap_eq_nil_iff]
    intro t ht
    by_contra hedit
    obtain ⟨e, he⟩ := Option.ne_none_iff_exists'.mp hedit
    obtain ⟨-, -, hstands, -⟩ := Token.edit?_eq_some he
    simp only [Chunk.stands, List.any_eq_true, Bool.and_eq_true, decide_eq_true_eq, h.names] at hstands
    obtain ⟨n, hn, hnpos, -⟩ := hstands
    obtain ⟨m, hm, hident⟩ := List.mem_filterMap.mp hn
    obtain ⟨-, hwrites⟩ := h.written m hm n hident
    rw [h.tokens, List.map_append] at hpos
    refine (List.disjoint_of_nodup_append hpos) (a := t.pos) ?_ (List.mem_map_of_mem ht)
    rw [← hnpos, ← hwrites, tokensOf, List.map_map]
    exact List.mem_map_of_mem hm
  have hmark : ∀ m ∈ ms, m.tok.edit? (c.stands symbol) new
      = (m.ident.filter fun n => c.symbol? n = some symbol).map (Name.edit new) := by
    intro m hm
    have hstands : c.stands symbol m.tok.pos = true ↔ _ := stands_iff h hpos hm
    cases hident : m.ident with
    | none =>
      have hstands : c.stands symbol m.tok.pos = false := by
        rw [← Bool.not_eq_true, hstands]
        simp [hident]
      rw [Token.edit?]
      split
      · rw [if_neg (by simp [hstands])]
        rfl
      · rfl
    | some n =>
      obtain ⟨hkind, hwrites⟩ := h.written m hm n hident
      have hstands : c.stands symbol m.tok.pos = true ↔ c.symbol? n = some symbol := by
        simp [hstands, hident]
      simp only [Token.edit?, hkind, Option.filter, decide_eq_true_eq, hwrites]
      rw [hwrites] at hstands
      split
      · next hsymbol => rw [if_pos (hstands.mp hsymbol)]; rfl
      · next hsymbol => rw [if_neg (mt hstands.mpr hsymbol)]; rfl
  rw [h.tokens, List.filterMap_append, hrest, List.append_nil, tokensOf, List.filterMap_map,
    Chunk.edits, h.names, idents, List.filter_filterMap, List.map_filterMap]
  exact List.filterMap_congr hmark

/-- Every identifier that is read is a name of the text. -/
theorem token_of_name (h : Reads (.block c.body) ts ms next) {n : Name} (hn : n ∈ c.names) :
    ∃ t ∈ ts, t.writes n := by
  rw [h.names] at hn
  obtain ⟨m, hm, hident⟩ := List.mem_filterMap.mp hn
  refine ⟨m.tok, ?_, h.written m hm n hident⟩
  rw [h.tokens]
  exact List.mem_append_left next (List.mem_map_of_mem hm)

end

/-! ## 3. The bindings of a symbol -/

section
variable {c : Chunk} {symbol : Text × Nat} {new : Text} {σ : Scopes}

theorem binds_eq_true {id : BindingId} :
    c.binds symbol id = true ↔ ∃ b, c.bindings[id]? = some b ∧ (b.name, b.scope) = symbol := by
  simp [Chunk.binds, Option.any_eq_true]

/-- An identifier denotes a symbol if its binding is one of the symbol. -/
theorem binds_iff (hbindings : c.bindings = σ.bindings) {n : Name} (hn : Named σ.table n.entry) :
    c.binds symbol n.binding = true ↔ c.symbol? n = some symbol := by
  obtain ⟨b, hb, hname⟩ := hn
  simp only [Scopes.table, List.getElem?_map, Array.getElem?_toList, Option.map_eq_some_iff] at hb
  obtain ⟨b, hb, rfl⟩ := hb
  have hname : b.name = n.name := hname
  have hb : c.bindings[n.binding]? = some b := hbindings ▸ hb
  simp [binds_eq_true, Chunk.symbol?, hb, hname]

/-- The bindings of a symbol can be called by a name that no binding has. -/
theorem choice_binds (hbindings : c.bindings = σ.bindings)
    (hwritten : ∀ b ∈ c.bindings, (b.name, b.scope) = symbol → b.declaration ≠ none)
    (hfresh : ∀ b ∈ σ.table, b.name ≠ new) : Choice σ.table (c.binds symbol) symbol.1 new := by
  have hcore : ∀ {id : Nat} {b : Binding}, σ.table[id]? = some b → c.binds symbol id = true →
      ∃ d ∈ c.bindings, d.core = b ∧ (d.name, d.scope) = symbol := by
    intro id b hb hbinds
    obtain ⟨d, hd, hsymbol⟩ := binds_eq_true.mp hbinds
    refine ⟨d, Array.mem_of_getElem? hd, ?_, hsymbol⟩
    rw [hbindings] at hd
    simpa [Scopes.table, hd] using hb
  refine ⟨?_, ?_, ?_⟩
  · intro id b hb hbinds
    obtain ⟨d, -, rfl, hsymbol⟩ := hcore hb hbinds
    exact congrArg Prod.fst hsymbol
  · intro id b hb hbinds
    obtain ⟨d, hd, rfl, hsymbol⟩ := hcore hb hbinds
    exact hwritten d hd hsymbol
  · intro id b hb
    exact hfresh b (List.mem_of_getElem? hb)

/-- An identifier under its new name denotes its binding in the new table. -/
theorem symbol?_ident {σ' : Scopes} {c' : Chunk} (hbindings : c.bindings = σ.bindings)
    (hbindings' : c'.bindings = σ'.bindings) (hrenamed : Renamed σ.table (c.binds symbol) new σ σ')
    {n : Name} (hn : Named σ.table n.entry) (move : Pos → Pos) :
    ∃ b b', c.bindings[n.binding]? = some b ∧ c'.bindings[n.binding]? = some b' ∧
      b'.scope = b.scope ∧ b'.kind = b.kind ∧ c.symbol? n = some (n.name, b.scope) ∧
      c'.symbol? ((c.recalling symbol new move).ident n)
        = some (title (c.binds symbol) new n.binding n.name, b.scope) := by
  have hcalled : ((c.recalling symbol new move).ident n).name
      = title (c.binds symbol) new n.binding n.name := by
    simp only [Respelling.ident, Chunk.recalling, title, binds_iff hbindings hn]
  obtain ⟨b, hb, -⟩ := hn
  simp only [Scopes.table, List.getElem?_map, Array.getElem?_toList, Option.map_eq_some_iff] at hb
  obtain ⟨b, hb, -⟩ := hb
  obtain ⟨b', hb', hres⟩ := hrenamed.binding hb
  rw [← hbindings] at hb
  rw [← hbindings'] at hb'
  refine ⟨b, b', hb, hb', hres.scope, hres.kind, ?_, ?_⟩
  · exact Option.map_eq_some_iff.mpr ⟨b, hb, rfl⟩
  · rw [← hcalled, ← hres.scope]
    exact Option.map_eq_some_iff.mpr ⟨b', hb', rfl⟩

/-- Which identifiers denote one symbol is the same under the new name. -/
theorem symbol?_recalled {σ' : Scopes} {c' : Chunk}
    (hchoice : Choice σ.table (c.binds symbol) symbol.1 new) (hbindings : c.bindings = σ.bindings)
    (hbindings' : c'.bindings = σ'.bindings) (hrenamed : Renamed σ.table (c.binds symbol) new σ σ')
    {m n : Name} (hm : Named σ.table m.entry) (hn : Named σ.table n.entry) (move : Pos → Pos) :
    c'.symbol? ((c.recalling symbol new move).ident m)
        = c'.symbol? ((c.recalling symbol new move).ident n) ↔ c.symbol? m = c.symbol? n := by
  obtain ⟨b, -, -, -, -, -, hsymbol, hsymbol'⟩ := symbol?_ident hbindings hbindings' hrenamed hm move
  obtain ⟨d, -, -, -, -, -, hsymbol₂, hsymbol₂'⟩ := symbol?_ident hbindings hbindings' hrenamed hn move
  rw [hsymbol', hsymbol₂']
  constructor
  · intro h
    obtain ⟨hname, hscope⟩ := Prod.mk.inj (Option.some.inj h)
    have hname : m.name = n.name := hchoice.title_inj hm hn hname
    rw [hsymbol, hsymbol₂, hname, hscope]
  · intro h
    have hbinds : c.binds symbol m.binding = c.binds symbol n.binding := by
      rw [Bool.eq_iff_iff, binds_iff hbindings hm, binds_iff hbindings hn, h]
    rw [hsymbol, hsymbol₂] at h
    obtain ⟨hname, hscope⟩ := Prod.mk.inj (Option.some.inj h)
    rw [title, title, hbinds, hname, hscope]

/-- Tokens that derive a tree with its bindings are read. -/
theorem parse_complete {t uri : Text} {tokens next : List Token} {ms : List Mark} {b : Block}
    (hlex : tokenize t = .ok tokens) (hreads : Reads (.block b) tokens ms next) (hnext : next ≠ [])
    (heof : kindOf next = .eof) (hbind : bindBlock b {} = some σ) :
    ∃ c, parse t uri = .ok c ∧ c.body = b ∧ c.bindings = σ.bindings := by
  cases tokens with
  | nil =>
    have htokens := congrArg List.length hreads.tokens
    have hpos := List.length_pos_iff.mpr hnext
    simp at htokens
    omega
  | cons u us =>
    refine ⟨⟨u.pos, b, uri, σ.bindings⟩, ?_, rfl, rfl⟩
    rw [parse, hlex]
    exact parseTokens_complete uri hreads hnext heof hbind

/-- **A fresh name preserves the program.**  If no binding of a symbol is the further parameter of a
method, and the new name is no name of the text, then the text with the symbol under the new name is
read as the same program with the symbol under the new name. -/
theorem parse_renamed {t uri : Text} (h : parse t uri = .ok c)
    (hwritten : ∀ b ∈ c.bindings, (b.name, b.scope) = symbol → b.declaration ≠ none)
    (hnew : IsName new) (hself : new ≠ Scopes.selfName)
    (hfresh : ∀ ts, tokenize t = .ok ts → ∀ k ∈ ts, k.kind ≠ .name new) :
    ∃ c', parse (applyEdits (c.edits symbol new) t) uri = .ok c' ∧ c.Recalled symbol new c' := by
  obtain ⟨tokens, ms, next, σ, hlex, hreads, hnext, heof, hbind, hbindings⟩ := parse_sound h
  have hpos := hlex.nodup_pos
  have hfound := bindBlock_finds c.body {} σ hbind
  have hnamed : ∀ n ∈ c.names, Named σ.table n.entry := hfound.named Tidy.initial
  have hfresh : ∀ b ∈ σ.table, b.name ≠ new := by
    rintro b hb rfl
    rcases hfound.introduced b hb with hb | hb | hb
    · simp [Scopes.table] at hb
    · obtain ⟨n, hn, hname⟩ := List.mem_map.mp hb
      obtain ⟨k, hk, hkind, -⟩ := token_of_name hreads hn
      exact hfresh tokens (tokensFrom_iff.mpr hlex) k hk (by rw [hkind, hname])
    · exact hself hb.1
  have hchoice := choice_binds hbindings hwritten hfresh
  -- the tokens after the edits, the bindings of the new tree, and its derivation from the tokens
  obtain ⟨move, hlex'⟩ := hlex.applied (c.stands symbol) hnew
  rw [edits_eq hreads hpos] at hlex'
  obtain ⟨σ', hbind', hrenamed⟩ :=
    bindBlock_carries hchoice move c.body {} σ {} Renamed.initial hbind List.prefix_rfl
  have hbody : respellBlock (retitling (c.binds symbol) new move) c.body
      = respellBlock (c.recalling symbol new move) c.body := by
    refine respellBlock_congr c.body ?_
    intro n hn
    simp only [title, binds_iff hbindings (hnamed n hn)]
  rw [hbody] at hbind'
  have hcalled : Called (c.recalling symbol new move) (callAs (c.stands symbol) new)
      (spellAs (callAs (c.stands symbol) new)) ms := called_recalling hreads hpos move
  have hreads' := hreads.respell hcalled
  obtain ⟨c', hparse, hbody', hbindings'⟩ : ∃ c', parse _ uri = .ok c' ∧ _ :=
    parse_complete hlex' hreads' (by simpa using hnext) (kindOf_respell_eof heof) hbind'
  refine ⟨c', hparse, move, hbody', ?_, ?_, ?_⟩
  · have hidents : namesIn (walkBlock (respellBlock (c.recalling symbol new move) c.body)) = _ :=
      hreads'.idents
    rw [← hbody', idents_respell, ← hreads.names] at hidents
    exact hidents
  · intro n hn
    obtain ⟨b, b', hb, hb', hscope, hkind, -⟩ :=
      symbol?_ident hbindings hbindings' hrenamed (hnamed n hn) move
    exact ⟨b, b', hb, hb', hscope, hkind⟩
  · intro m hm n hn
    exact symbol?_recalled hchoice hbindings hbindings' hrenamed (hnamed m hm) (hnamed n hn) move

end

end LuaServer.Lua
