/-
# Which names are identifiers

Not every name of a text denotes a variable: it may be a field, a method, the key of a field of a table,
a label, the target of a `goto` or the attribute of a local.  `Scan.role` tells them apart by what stands
around a name: the token before it, the token after it, what is open at its place, and whether it stands
in the list of names of a `local` statement.  Nothing of this knows the forms of the language.

Every derivation agrees with it (`Reads.scans`).  The induction carries what is open, which a derivation
leaves as it was (only a function body closes what its `function` opened), and that nothing before the
derivation waits for a name (`Scan.Calm`).

Main result: `Reads.identifierTokens_eq`.
-/
import LuaServer.Proofs.Occurrences

namespace LuaServer.Lua

/-! ## 1. Roles -/

/-- What a name is. -/
inductive Role where
  | identifier
  /-- It stands after a dot. -/
  | field
  /-- It stands after a colon. -/
  | method
  /-- It is the key of a field `name = value`. -/
  | key
  /-- It stands after `goto`. -/
  | target
  /-- It stands between `::` and `::`. -/
  | label
  /-- It is `const` or `close` of a local. -/
  | attribute
deriving DecidableEq, Repr

/-- What is open at a place: a table, a label, or another bracket or block. -/
inductive Opening where
  | table | label | other
deriving DecidableEq, Repr

/-- What is open after a token. -/
def openAfter (opens : List Opening) : Kind → List Opening
  | .symbol .braceOpen => .table :: opens
  | .symbol .parenOpen | .symbol .bracketOpen | .keyword .function | .keyword .if | .keyword .do
  | .keyword .repeat => .other :: opens
  | .symbol .braceClose | .symbol .parenClose | .symbol .bracketClose | .keyword .end
  | .keyword .until => opens.tail
  | .symbol .colons => if opens.head? = some .label then opens.tail else .label :: opens
  | _ => opens

/-- How far the list of names of a `local` statement goes. -/
inductive Header where
  /-- No such list. -/
  | none
  /-- A name is to come. -/
  | names
  /-- After a name. -/
  | named
  /-- After the sign before an attribute. -/
  | attribute
  /-- After an attribute. -/
  | attributed
  /-- After the sign behind an attribute. -/
  | closed
deriving DecidableEq, Repr

/-- The list of names after a token. -/
def Header.after : Header → Kind → Header
  | _, .keyword .local => .names
  | .names, .name _ => .named
  | .named, .symbol .lt => .attribute
  | .attribute, .name _ => .attributed
  | .attributed, .symbol .gt => .closed
  | .named, .symbol .comma | .closed, .symbol .comma => .names
  | _, _ => .none

/-- What is known of the tokens before a place. -/
structure Scan where
  prev : Kind := .eof
  opens : List Opening := []
  header : Header := .none
deriving DecidableEq, Repr

/-- The field of a table may begin after a token of this kind. -/
def Kind.separates : Kind → Bool
  | .symbol .braceOpen | .symbol .comma | .symbol .semicolon => true
  | _ => false

namespace Scan

/-- After one more token. -/
def step (s : Scan) (k : Kind) : Scan := ⟨k, openAfter s.opens k, s.header.after k⟩

/-- A field of a table begins here. -/
def atField (s : Scan) : Bool := s.opens.head? = some .table && s.prev.separates

/-- The role of a name that stands here before a token of the kind `next`. -/
def role (s : Scan) (next : Kind) : Role :=
  if s.prev = .symbol .dot then .field
  else if s.prev = .symbol .colon then .method
  else if s.prev = .keyword .goto then .target
  else if s.opens.head? = some .label then .label
  else if s.header = .attribute then .attribute
  else if s.atField ∧ next = .symbol .assign then .key
  else .identifier

/-- A token that stands here before another one is an identifier. -/
def identifies (s : Scan) (k next : Kind) : Bool :=
  match k with
  | .name _ => s.role next = .identifier
  | _ => false

/-- The identifiers among tokens that stand here. -/
def identifierTokens (s : Scan) : List Token → List Token
  | [] => []
  | t :: ts =>
    if s.identifies t.kind (kindOf ts) then t :: (s.step t.kind).identifierTokens ts
    else (s.step t.kind).identifierTokens ts

end Scan

/-- The identifiers of a text. -/
def identifierTokens (ts : List Token) : List Token := Scan.identifierTokens {} ts

/-! ## 2. Marks that agree with the roles -/

/-- After what was read. -/
def Scan.after (s : Scan) (ms : List Mark) : Scan := ms.foldl (fun s m => s.step m.tok.kind) s

/-- The tokens that became identifiers are those whose role it is. -/
def Scan.Agrees (s : Scan) : List Mark → List Token → Prop
  | [], _ => True
  | m :: ms, next =>
    m.ident.isSome = s.identifies m.tok.kind (kindOf (tokensOf ms ++ next)) ∧
      (s.step m.tok.kind).Agrees ms next

/-- A name after a token of this kind is no identifier. -/
def Kind.selects : Kind → Bool
  | .symbol .dot | .symbol .colon | .keyword .goto => true
  | _ => false

/-- The kinds after which no identifier stands are three. -/
theorem Kind.ne_of_selects {k : Kind} (h : k.selects = false) :
    k ≠ .symbol .dot ∧ k ≠ .symbol .colon ∧ k ≠ .keyword .goto := by
  refine ⟨?_, ?_, ?_⟩ <;> rintro rfl <;> cases h

/-- The list of names of a `local` statement does not go on with a token. -/
def Header.Quiet (h : Header) (k : Kind) : Prop :=
  match h with
  | .none => True
  | .names | .attribute | .attributed => False
  | .named => k ≠ .symbol .lt ∧ k ≠ .symbol .comma
  | .closed => k ≠ .symbol .comma

/-- Nothing before a token of the kind `k` makes it something other than an identifier, unless it is
the key of a field. -/
structure Scan.Calm (s : Scan) (k : Kind) : Prop where
  prev : s.prev.selects = false
  header : s.header.Quiet k
  label : s.opens.head? ≠ some .label

/-- Reading agrees with the roles, and leaves a calm place where `opens` is open. -/
structure Scans (s : Scan) (ms : List Mark) (next : List Token) (opens : List Opening) : Prop where
  agrees : s.Agrees ms next
  calm : (s.after ms).Calm (kindOf next)
  opens : (s.after ms).opens = opens

/-- One part after another agrees with the roles if both do, where they stand. -/
theorem Scan.agrees_append (s : Scan) (ms ns : List Mark) (next : List Token) :
    s.Agrees (ms ++ ns) next ↔ s.Agrees ms (tokensOf ns ++ next) ∧ (s.after ms).Agrees ns next := by
  induction ms generalizing s with
  | nil => simp [Agrees, after]
  | cons m ms ih =>
    simp only [List.cons_append, Agrees, ih, tokensOf_append, List.append_assoc, and_assoc]
    rfl

@[simp] theorem Scan.after_plain (s : Scan) (t : Token) (ms : List Mark) :
    s.after (.plain t :: ms) = (s.step t.kind).after ms := rfl

@[simp] theorem Scan.after_named (s : Scan) (t : Token) (n : Name) (ms : List Mark) :
    s.after (.named t n :: ms) = (s.step t.kind).after ms := rfl

/-- What is known after two parts is known by going through both. -/
theorem Scan.after_append (s : Scan) (ms ns : List Mark) :
    s.after (ms ++ ns) = (s.after ms).after ns := List.foldl_append

/-- Tokens that agree with the roles are classified by them. -/
theorem Scan.Agrees.identifierTokens {s : Scan} {ms : List Mark} {next : List Token}
    (h : s.Agrees ms next) :
    s.identifierTokens (tokensOf ms ++ next)
      = tokensOf (ms.filter fun m => m.ident.isSome) ++ (s.after ms).identifierTokens next := by
  induction ms generalizing s with
  | nil => rfl
  | cons m ms ih =>
    obtain ⟨hm, hms⟩ := h
    have hstep : s.after (m :: ms) = (s.step m.tok.kind).after ms := rfl
    rw [tokensOf, List.map_cons, List.cons_append, ← tokensOf, Scan.identifierTokens, ← hm, ih hms,
      hstep, List.filter_cons]
    cases hident : m.ident <;> simp [tokensOf]

/-! ## 3. One token after the other -/

/-- A token that is no name and begins no list of names. -/
def Kind.isSign : Kind → Bool
  | .name _ | .keyword .local => false
  | _ => true

section
variable {s : Scan} {k k' : Kind} {ms m₁ m₂ : List Mark} {ts next : List Token} {t y : Token}
  {o opens : List Opening}

/-- The word `local` begins a list of names, whatever was before. -/
theorem Header.after_local (h : Header) : h.after (.keyword .local) = .names := by cases h <;> rfl

/-- A list of names ends at a token that does not go on with it. -/
theorem Header.Quiet.after {h : Header} (hq : h.Quiet k) (hk : k ≠ .keyword .local) :
    h.after k = .none := by
  cases h <;> unfold Quiet at hq <;> unfold Header.after <;> split <;> simp_all

/-- Everything that is known after a token, if nothing waited for it. -/
theorem Scan.step_eq (hq : s.header.Quiet k) (hk : k ≠ .keyword .local) :
    s.step k = ⟨k, openAfter s.opens k, .none⟩ := by
  rw [step, hq.after hk]

/-- After a token that ends a list of names nothing waits, unless it selects a name. -/
theorem Scan.Calm.fresh (hk : k.selects = false) (ho : o.head? ≠ some .label) :
    Scan.Calm ⟨k, o, .none⟩ k' := ⟨hk, trivial, ho⟩

/-- A field begins after the brace of a table and after a separator in it. -/
theorem Scan.atField_of_table (ho : o.head? = some .table) (hk : k.separates = true) :
    Scan.atField ⟨k, o, .none⟩ = true := by
  simp [atField, ho, hk]

/-- Nowhere else does a field begin. -/
theorem Scan.atField_eq_false (h : s.opens.head? ≠ some .table) : s.atField = false := by
  simp [atField, h]

/-- The key of a field is no identifier. -/
theorem Scan.identifies_key {x : Text} (h : s.atField = true) :
    s.identifies (.name x) (.symbol .assign) = false := by
  simp only [Scan.identifies, Scan.role, h, true_and, if_true, decide_eq_false_iff_not]
  repeat' split
  all_goals nofun

/-- A name for which nothing waits is an identifier, unless it is the key of a field. -/
theorem Scan.Calm.identifies {x : Text} {next : Kind} (h : s.Calm (.name x))
    (hkey : s.atField = true → next ≠ .symbol .assign) : s.identifies (.name x) next = true := by
  have hheader : s.header ≠ .attribute := by
    intro heq
    have hquiet := h.header
    rw [heq] at hquiet
    exact hquiet
  obtain ⟨hdot, hcolon, hgoto⟩ := Kind.ne_of_selects h.prev
  simp only [Scan.identifies, Scan.role, hdot, hcolon, hgoto, h.label, hheader, if_false]
  rw [if_neg]
  · rfl
  · rintro ⟨hfield, rfl⟩
    exact hkey hfield rfl

namespace Scans

/-- Nothing is read. -/
theorem nil (hs : s.Calm (kindOf next)) (ho : s.opens = o) : Scans s [] next o := ⟨trivial, hs, ho⟩

/-- One part after another.  Of what the first one leaves, the kind of its last token is not known. -/
theorem append (h : Scans s m₁ ts o) (hts : ts = tokensOf m₂ ++ next)
    (hrest : ∀ p header, Scan.Calm ⟨p, o, header⟩ (kindOf ts) →
      Scans ⟨p, o, header⟩ m₂ next opens) :
    Scans s (m₁ ++ m₂) next opens := by
  have hstate : s.after m₁ = ⟨(s.after m₁).prev, o, (s.after m₁).header⟩ := by rw [← h.opens]
  have hcalm := h.calm
  rw [hstate] at hcalm
  have hlast := hrest _ _ hcalm
  rw [← hstate] at hlast
  obtain ⟨hagrees, hcalm, hopens⟩ := hlast
  rw [← Scan.after_append] at hcalm hopens
  exact ⟨(Scan.agrees_append ..).mpr ⟨hts ▸ h.agrees, hagrees⟩, hcalm, hopens⟩

/-- A token that became no identifier. -/
theorem plain (hk : t.kind = k) (hname : s.identifies k (kindOf (tokensOf ms ++ next)) = false)
    (h : Scans (s.step k) ms next o) : Scans s (.plain t :: ms) next o := by
  subst hk
  exact ⟨⟨hname.symm, h.agrees⟩, h.calm, h.opens⟩

/-- A word or sign. -/
theorem sign (hk : t.kind = k) (hsign : k.isSign = true) (hs : s.Calm t.kind)
    (h : Scans ⟨k, openAfter s.opens k, .none⟩ ms next o) : Scans s (.plain t :: ms) next o := by
  rw [hk] at hs
  refine plain hk ?_ ?_
  · unfold Scan.identifies
    split
    · cases hsign
    · rfl
  · rw [Scan.step_eq hs.header]
    · exact h
    · rintro rfl
      cases hsign

/-- A word or sign after something else. -/
theorem andSign (h₁ : Scans s m₁ (y :: ts) opens) (hts : ts = tokensOf ms ++ next) (hk : y.kind = k)
    (hsign : k.isSign = true) (h₂ : Scans ⟨k, openAfter opens k, .none⟩ ms next o) :
    Scans s (m₁ ++ .plain y :: ms) next o := by
  refine h₁.append (by simp [hts]) ?_
  intro p header hs
  exact sign hk hsign hs h₂

/-- A name that is an identifier. -/
theorem named {n : Name} (ht : t.writes n) (hs : s.Calm t.kind)
    (hkey : s.atField = true → kindOf (tokensOf ms ++ next) ≠ .symbol .assign)
    (h : Scans ⟨.name n.name, s.opens, .none⟩ ms next o) : Scans s (.named t n :: ms) next o := by
  have hkind := ht.1
  rw [hkind] at hs
  have hstep : s.step t.kind = ⟨.name n.name, s.opens, .none⟩ := by
    rw [hkind, Scan.step_eq hs.header nofun, openAfter] <;> nofun
  rw [← hstep] at h
  refine ⟨⟨?_, h.agrees⟩, h.calm, h.opens⟩
  have hidentifies := hs.identifies hkey
  rw [← hkind] at hidentifies
  exact hidentifies.symm

/-- A name that is an identifier, where no field of a table begins. -/
theorem declared {n : Name} (ht : t.writes n) (hs : s.Calm t.kind)
    (htable : s.opens.head? ≠ some .table) (h : Scans ⟨.name n.name, s.opens, .none⟩ ms next o) :
    Scans s (.named t n :: ms) next o :=
  named ht hs (by simp [Scan.atField_eq_false htable]) h

/-- A name after a dot, a colon or `goto`. -/
theorem selected {x : Text} (ht : t.kind = k) (hselects : k.selects = true) (hy : y.kind = .name x)
    (hs : s.Calm t.kind) (h : Scans ⟨.name x, s.opens, .none⟩ ms next o) :
    Scans s (.plain t :: .plain y :: ms) next o := by
  have hopens : openAfter s.opens k = s.opens := by
    unfold Kind.selects at hselects
    split at hselects <;> first | rfl | cases hselects
  refine sign ht ?_ hs (plain hy ?_ ?_)
  · unfold Kind.selects at hselects
    split at hselects <;> first | rfl | cases hselects
  · unfold Kind.selects at hselects
    split at hselects
    · simp [Scan.identifies, Scan.role]
    · simp [Scan.identifies, Scan.role]
    · simp [Scan.identifies, Scan.role]
    · cases hselects
  · rw [hopens]
    exact h

end Scans

end

/-! ## 4. Lists of names -/

section
variable {s : Scan} {ts next : List Token} {ms : List Mark} {o : List Opening}

theorem Optional.scans {k : Kind} (h : Optional k ts ms next) (hsign : k.isSign = true)
    (hselects : k.selects = false) (hopens : openAfter s.opens k = s.opens) (hs : s.Calm (kindOf ts)) :
    Scans s ms next s.opens := by
  cases h with
  | absent => exact .nil hs rfl
  | present ht =>
    exact .sign ht hsign hs (.nil (.fresh hselects (by rw [hopens]; exact hs.label)) hopens)

/-- Names that are listed are identifiers. -/
theorem Names.scans {ns : List Name} (h : Names ns ts ms next) (hs : s.Calm (kindOf ts))
    (htable : s.opens.head? ≠ some .table) : Scans s ms next s.opens := by
  induction h generalizing s with
  | last hv =>
    exact .declared hv hs htable (.nil (.fresh rfl hs.label) rfl)
  | cons hv hy _ ih =>
    refine .declared hv hs htable ?_
    refine .sign hy rfl (.fresh rfl hs.label) ?_
    exact ih (.fresh rfl hs.label) htable

/-- The same for parameters. -/
theorem Params.scans {ns : List Name} {more : Bool} (h : Params ns more ts ms next)
    (hs : s.Calm (kindOf ts)) (htable : s.opens.head? ≠ some .table) : Scans s ms next s.opens := by
  induction h generalizing s with
  | ellipsis ht =>
    exact .sign ht rfl hs (.nil (.fresh rfl hs.label) rfl)
  | last hv =>
    exact .declared hv hs htable (.nil (.fresh rfl hs.label) rfl)
  | cons hv hy _ ih =>
    refine .declared hv hs htable ?_
    refine .sign hy rfl (.fresh rfl hs.label) ?_
    exact ih (.fresh rfl hs.label) htable

theorem ParamList.scans {ns : List Name} {more : Bool} (h : ParamList ns more ts ms next)
    (hs : s.Calm (kindOf ts)) (htable : s.opens.head? ≠ Option.some .table) :
    Scans s ms next s.opens := by
  cases h with
  | empty => exact .nil hs rfl
  | some _ h => exact h.scans hs htable

/-- The fields after the name of a function statement are no identifiers. -/
theorem Path.scans {e r : Expr} {m : Bool} (h : Path e r m ts ms next) (hs : s.Calm (kindOf ts)) :
    Scans s ms next s.opens := by
  induction h generalizing s with
  | done => exact .nil hs rfl
  | method ht hk =>
    exact .selected ht rfl hk hs (.nil (.fresh rfl hs.label) rfl)
  | field ht hk _ ih =>
    exact .selected ht rfl hk hs (ih (.fresh rfl hs.label))

/-- A name of a `local` statement is to come. -/
structure Scan.Declaring (s : Scan) : Prop where
  header : s.header = .names
  prev : s.prev.selects = false
  label : s.opens.head? ≠ some .label
  table : s.opens.head? ≠ some .table

/-- A name of a `local` statement is an identifier. -/
theorem Scan.Declaring.named (h : s.Declaring) {v : Token} {n : Name} (hv : v.writes n) :
    (∀ k, s.identifies v.kind k = true) ∧ s.step v.kind = ⟨.name n.name, s.opens, .named⟩ := by
  have hselects := Kind.ne_of_selects h.prev
  have hfield := Scan.atField_eq_false h.table
  rw [hv.1]
  refine ⟨fun k => ?_, ?_⟩
  · simp [Scan.identifies, Scan.role, hselects, h.label, h.header, hfield]
  · simp [Scan.step, h.header, Header.after, openAfter]

/-- An attribute that may follow the name of a local. -/
theorem Attributes.scans {a : Option Attrib} {n : Text} {o : List Opening}
    (h : Attributes a ts ms next) (ho : o.head? ≠ some .label) (hs : s = ⟨.name n, o, .named⟩) :
    s.Agrees ms next ∧ (s.after ms).opens = o ∧ (s.after ms).prev.selects = false ∧
      ((s.after ms).header = .named ∧ kindOf next ≠ .symbol .lt ∨ (s.after ms).header = .closed) := by
  subst hs
  cases h with
  | absent hlt => exact ⟨trivial, rfl, rfl, .inl ⟨rfl, hlt⟩⟩
  | present ht hw _ hz =>
    simp [Scan.Agrees, Scan.after, Scan.step, Mark.plain, ht, hw, hz, Header.after,
      Scan.identifies, Scan.role, openAfter, ho, Kind.selects]

/-- The names of a `local` statement. -/
theorem Locals.scans {xs : List (Name × Option Attrib)} (h : Locals xs ts ms next)
    (hs : s.Declaring) : Scans s ms next s.opens := by
  induction h generalizing s with
  | last hv ha hcomma =>
    obtain ⟨hname, hstep⟩ := hs.named hv
    obtain ⟨hagrees, hopens, hprev, hheader⟩ := ha.scans hs.label hstep
    refine ⟨⟨(hname _).symm, hagrees⟩, ⟨hprev, ?_, by simpa [hopens] using hs.label⟩, hopens⟩
    rw [Scan.after_named]
    rcases hheader with ⟨hheader, hlt⟩ | hheader
    · rw [hheader]
      exact ⟨hlt, hcomma⟩
    · rw [hheader]
      exact hcomma
  | @cons a ts m₁ y ts₁ xs m₂ next n v hv ha hy hxs ih =>
    obtain ⟨hname, hstep⟩ := hs.named hv
    obtain ⟨hagrees, hopens, hprev, hheader⟩ := ha.scans hs.label hstep
    have hcomma : ((s.step v.kind).after m₁).step y.kind = ⟨.symbol .comma, s.opens, .names⟩ := by
      rw [Scan.step, hy, hopens]
      rcases hheader with ⟨hheader, -⟩ | hheader <;> rw [hheader] <;> rfl
    have hrest := ih (s := ⟨.symbol .comma, s.opens, .names⟩) ⟨rfl, rfl, hs.label, hs.table⟩
    rw [← hcomma] at hrest
    have hlast : Scans ((s.step v.kind).after m₁) (.plain y :: m₂) next s.opens := by
      refine ⟨⟨?_, hrest.agrees⟩, hrest.calm, hrest.opens.trans (by rw [hcomma])⟩
      rw [Mark.plain, hy]
      rfl
    have hlist : y :: ts₁ = tokensOf (.plain y :: m₂) ++ next := by simp [hxs.tokens]
    rw [hlist] at hagrees
    refine ⟨⟨(hname _).symm, (Scan.agrees_append ..).mpr ⟨hagrees, hlast.agrees⟩⟩, ?_, ?_⟩
    · rw [Scan.after_named, Scan.after_append]
      exact hlast.calm
    · rw [Scan.after_named, Scan.after_append]
      exact hlast.opens

end

/-! ## 5. The forms of the language -/

/-- The tokens do not begin with a name and the sign of an assignment. -/
def KeyFree (ts : List Token) : Prop := ∀ x, kindOf ts = .name x → kindOf ts.tail ≠ .symbol .assign

/-- Where a part of a program may begin: statements not among the fields of a table, an expression only
where it is not taken for a key, and fields where they are. -/
def Item.Ready (s : Scan) (ts : List Token) : Item → Prop
  | .block _ | .stmts _ | .stmt _ | .clause _ | .elses _ | .orelse _ | .step _ | .initial _
  | .targets _ | .exprs _ => s.opens.head? ≠ some .table
  | .func _ => ∃ o, s.opens = .other :: o ∧ o.head? ≠ some .label
  | .expr _ _ | .simple _ | .suffixed _ => s.atField = true → KeyFree ts
  | .operators _ _ _ | .suffixes _ _ | .args _ | .table _ => True
  | .fields _ | .field _ => s.atField = true

/-- What is open after a part of a program. -/
def Item.leaves (opens : List Opening) : Item → List Opening
  | .func _ => opens.tail
  | _ => opens

section
variable {s : Scan} {ts : List Token} {k : Kind} {o : List Opening}

theorem other_not_table : (Opening.other :: o).head? ≠ some .table := by simp

theorem other_not_label : (Opening.other :: o).head? ≠ some .label := by simp

theorem table_not_label : (Opening.table :: o).head? ≠ some .label := by simp

/-- An expression in a statement. -/
theorem keyFree_of_table (h : s.opens.head? ≠ some .table) : s.atField = true → KeyFree ts := by
  simp [Scan.atField_eq_false h]

/-- An expression after a token that does not begin a field. -/
theorem keyFree_of_prev (h : k.separates = false) :
    Scan.atField ⟨k, o, .none⟩ = true → KeyFree ts := by
  simp [Scan.atField, h]

/-- What is known of the sign of an operation. -/
theorem unary_kind {op : UnaryOp} (h : UnaryOp.ofKind? k = some op) :
    k.isSign = true ∧ k.selects = false ∧ k.separates = false ∧ ∀ o, openAfter o k = o := by
  unfold UnaryOp.ofKind? at h
  split at h <;> first | exact ⟨rfl, rfl, rfl, fun _ => rfl⟩ | cases h

/-- The same for the sign of an operation between operands. -/
theorem binary_kind {op : BinaryOp} (h : BinaryOp.ofKind? k = some op) :
    k.isSign = true ∧ k.selects = false ∧ k.separates = false ∧ ∀ o, openAfter o k = o := by
  unfold BinaryOp.ofKind? at h
  split at h <;> first | exact ⟨rfl, rfl, rfl, fun _ => rfl⟩ | cases h

end

/-- Wherever a part of a program may begin, its names have the roles that the scan tells. -/
def Scanned (item : Item) (ts : List Token) (ms : List Mark) (next : List Token) : Prop :=
  ∀ {s : Scan}, s.Calm (kindOf ts) → item.Ready s ts → Scans s ms next (item.leaves s.opens)

namespace Scanned

section
variable {ts ts₁ ts₂ ts₃ next : List Token} {ms m₁ m₂ m₃ m₄ : List Mark}
  {t u v w q k y y₁ y₂ z : Token} {n : Name} {ns : List Name} {x : Text} {p : Pos}
  {a b c e r : Expr} {es us vs : List Expr} {o : Option Expr} {body : Block} {els : Option Block}
  {ss : List Stmt} {cl : IfClause} {cs : List IfClause} {f : FuncBody}

/-- The values of a `return` stand where the statement does. -/
theorem returnStat (ht : t.kind = .keyword .return) (ho : Optional (.symbol .semicolon) ts₁ m₂ next)
    (hvs : Scanned (.exprs vs) ts m₁ ts₁) :
    Scanned (.stmts [.return p vs]) (t :: ts) (.plain t :: (m₁ ++ m₂)) next := by
  intro s hs hr
  refine .sign ht rfl hs ((hvs (.fresh rfl hs.label) hr).append ho.tokens ?_)
  exact fun p header hs => ho.scans (s := ⟨p, s.opens, header⟩) rfl rfl rfl hs

/-- `if` opens what the `end` closes, and the clauses between open nothing. -/
theorem ifStat (ht : t.kind = .keyword .if) (helses : Reads (.elses cs) ts₁ m₂ ts₂)
    (horelse : Reads (.orelse els) ts₂ m₃ (z :: next)) (hz : z.kind = .keyword .end)
    (h₁ : Scanned (.clause cl) ts m₁ ts₁) (h₂ : Scanned (.elses cs) ts₁ m₂ ts₂)
    (h₃ : Scanned (.orelse els) ts₂ m₃ (z :: next)) :
    Scanned (.stmt (.if p (cl :: cs) els)) (t :: ts)
      (.plain t :: (m₁ ++ (m₂ ++ (m₃ ++ [.plain z])))) next := by
  intro s hs _
  refine .sign ht rfl hs ((h₁ (.fresh rfl other_not_label) other_not_table).append
    (by simp [helses.tokens, horelse.tokens]) fun _ _ hs₁ => ?_)
  refine (h₂ hs₁ other_not_table).append (by simp [horelse.tokens]) fun _ _ hs₂ => ?_
  exact (h₃ hs₂ other_not_table).andSign rfl hz rfl (.nil (.fresh rfl hs.label) rfl)

/-- The condition stands where the statement does, and `do` opens the body. -/
theorem whileStat (ht : t.kind = .keyword .while) (hy : y.kind = .keyword .do)
    (hb : Reads (.block body) ts₁ m₂ (z :: next)) (hz : z.kind = .keyword .end)
    (h₁ : Scanned (.expr 0 c) ts m₁ (y :: ts₁)) (h₂ : Scanned (.block body) ts₁ m₂ (z :: next)) :
    Scanned (.stmt (.while p c body)) (t :: ts) (.plain t :: (m₁ ++ .plain y :: (m₂ ++ [.plain z])))
      next := by
  intro s hs hr
  refine .sign ht rfl hs ((h₁ (.fresh rfl hs.label) (keyFree_of_table hr)).andSign
    (by simp [hb.tokens]) hy rfl ?_)
  exact (h₂ (.fresh rfl other_not_label) other_not_table).andSign rfl hz rfl
    (.nil (.fresh rfl hs.label) rfl)

/-- `until` closes what `repeat` opened, and so the condition stands where the statement does. -/
theorem repeatStat (ht : t.kind = .keyword .repeat) (hy : y.kind = .keyword .until)
    (hc : Reads (.expr 0 c) ts₁ m₂ next) (h₁ : Scanned (.stmts ss) ts m₁ (y :: ts₁))
    (h₂ : Scanned (.expr 0 c) ts₁ m₂ next) :
    Scanned (.stmt (.repeat p (.mk q.pos ss) c)) (t :: ts) (.plain t :: (m₁ ++ .plain y :: m₂))
      next := by
  intro s hs hr
  refine .sign ht rfl hs
    ((h₁ (.fresh rfl other_not_label) other_not_table).andSign hc.tokens hy rfl ?_)
  exact h₂ (.fresh rfl hs.label) (keyFree_of_table hr)

/-- `for` opens nothing: its `do` does. -/
theorem numericFor (ht : t.kind = .keyword .for) (hv : v.writes n) (hq : q.kind = .symbol .assign)
    (hy₁ : y₁.kind = .symbol .comma) (hb : Reads (.expr 0 b) ts₁ m₂ ts₂)
    (hstep : Reads (.step o) ts₂ m₃ (y₂ :: ts₃)) (hy₂ : y₂.kind = .keyword .do)
    (hbody : Reads (.block body) ts₃ m₄ (z :: next)) (hz : z.kind = .keyword .end)
    (h₁ : Scanned (.expr 0 a) ts m₁ (y₁ :: ts₁)) (h₂ : Scanned (.expr 0 b) ts₁ m₂ ts₂)
    (h₃ : Scanned (.step o) ts₂ m₃ (y₂ :: ts₃)) (h₄ : Scanned (.block body) ts₃ m₄ (z :: next)) :
    Scanned (.stmt (.numericFor p n a b o body)) (t :: v :: q :: ts)
      (.plain t :: .named v n :: .plain q :: (m₁ ++ .plain y₁ :: (m₂ ++ (m₃ ++ .plain y₂ ::
        (m₄ ++ [.plain z]))))) next := by
  intro s hs hr
  refine .sign ht rfl hs (.declared hv (.fresh rfl hs.label) hr ?_)
  refine .sign hq rfl (.fresh rfl hs.label) ?_
  refine (h₁ (.fresh rfl hs.label) (keyFree_of_table hr)).andSign
    (by simp [hb.tokens, hstep.tokens, hbody.tokens]) hy₁ rfl ?_
  refine (h₂ (.fresh rfl hs.label) (keyFree_of_table hr)).append
    (by simp [hstep.tokens, hbody.tokens]) fun _ _ hs₂ => ?_
  refine (h₃ hs₂ hr).andSign (by simp [hbody.tokens]) hy₂ rfl ?_
  exact (h₄ (.fresh rfl other_not_label) other_not_table).andSign rfl hz rfl
    (.nil (.fresh rfl hs.label) rfl)

/-- The names of the loop stand before `in`, and are identifiers. -/
theorem genericFor (ht : t.kind = .keyword .for) (hns : Names ns ts m₁ (y₁ :: ts₁))
    (hy₁ : y₁.kind = .keyword .in) (hvs : Reads (.exprs vs) ts₁ m₂ (y₂ :: ts₂))
    (hy₂ : y₂.kind = .keyword .do) (hbody : Reads (.block body) ts₂ m₃ (z :: next))
    (hz : z.kind = .keyword .end) (h₁ : Scanned (.exprs vs) ts₁ m₂ (y₂ :: ts₂))
    (h₂ : Scanned (.block body) ts₂ m₃ (z :: next)) :
    Scanned (.stmt (.genericFor p ns vs body)) (t :: ts)
      (.plain t :: (m₁ ++ .plain y₁ :: (m₂ ++ .plain y₂ :: (m₃ ++ [.plain z])))) next := by
  intro s hs hr
  refine .sign ht rfl hs ((hns.scans (s := ⟨_, s.opens, _⟩) (.fresh rfl hs.label) hr).andSign
    (by simp [hvs.tokens, hbody.tokens]) hy₁ rfl ?_)
  refine (h₁ (.fresh rfl hs.label) hr).andSign (by simp [hbody.tokens]) hy₂ rfl ?_
  exact (h₂ (.fresh rfl other_not_label) other_not_table).andSign rfl hz rfl
    (.nil (.fresh rfl hs.label) rfl)

/-- What `function` opens is open at the name, and closed by the body. -/
theorem functionStat {target : Expr} {isMethod : Bool} (ht : t.kind = .keyword .function)
    (hv : v.writes n) (hpath : Path (.name n) target isMethod ts m₁ ts₁)
    (hf : Reads (.func f) ts₁ m₂ next) (h : Scanned (.func f) ts₁ m₂ next) :
    Scanned (.stmt (.function p target f isMethod)) (t :: v :: ts)
      (.plain t :: .named v n :: (m₁ ++ m₂)) next := by
  intro s hs _
  refine .sign ht rfl hs (.declared hv (.fresh rfl other_not_label) other_not_table ?_)
  refine (hpath.scans (s := ⟨_, .other :: s.opens, _⟩) (.fresh rfl other_not_label)).append
    hf.tokens fun _ _ hs₁ => ?_
  exact h hs₁ ⟨_, rfl, hs.label⟩

/-- The word `function` ends the list of names that `local` began. -/
theorem localFunction (ht : t.kind = .keyword .local) (hw : w.kind = .keyword .function)
    (hv : v.writes n) (h : Scanned (.func f) ts ms next) :
    Scanned (.stmt (.localFunction p n f)) (t :: w :: v :: ts)
      (.plain t :: .plain w :: .named v n :: ms) next := by
  intro s hs _
  refine .plain ht rfl (.plain hw rfl ?_)
  rw [Scan.step, Scan.step, Header.after_local]
  exact .declared hv (.fresh rfl other_not_label) other_not_table
    (h (.fresh rfl other_not_label) ⟨_, rfl, hs.label⟩)

/-- The list of names ends at the values or at the next statement. -/
theorem localStat {xs : List (Name × Option Attrib)} {as : List (Option Attrib)}
    (ht : t.kind = .keyword .local) (hxs : Locals xs ts m₁ ts₁) (hvs : Reads (.initial vs) ts₁ m₂ next)
    (h : Scanned (.initial vs) ts₁ m₂ next) :
    Scanned (.stmt (.local p ns as vs)) (t :: ts) (.plain t :: (m₁ ++ m₂)) next := by
  intro s hs hr
  refine .plain ht rfl ?_
  rw [Scan.step, Header.after_local]
  exact (hxs.scans (s := ⟨_, s.opens, _⟩) ⟨rfl, rfl, hs.label, hr⟩).append hvs.tokens
    fun _ _ hs₁ => h hs₁ hr

/-- The first `::` opens a label, where no name is an identifier, and the second one closes it. -/
theorem label (ht : t.kind = .symbol .colons) (hk : k.kind = .name x) (hz : z.kind = .symbol .colons) :
    Scanned (.stmt (.label p x)) (t :: k :: z :: next) [.plain t, .plain k, .plain z] next := by
  intro s hs _
  have hopens : openAfter s.opens (.symbol .colons) = .label :: s.opens := if_neg hs.label
  refine .sign ht rfl hs (.plain hk ?_ (.plain hz rfl ?_))
  · rw [hopens]
    rfl
  · rw [hopens]
    exact .nil (.fresh rfl hs.label) rfl

/-- The targets stand where the statement does. -/
theorem assign (hes : Reads (.targets es) ts₁ m₂ (q :: ts₂)) (hq : q.kind = .symbol .assign)
    (hvs : Reads (.exprs vs) ts₂ m₃ next) (h₁ : Scanned (.suffixed e) ts m₁ ts₁)
    (h₂ : Scanned (.targets es) ts₁ m₂ (q :: ts₂)) (h₃ : Scanned (.exprs vs) ts₂ m₃ next) :
    Scanned (.stmt (.assign p us vs)) ts (m₁ ++ (m₂ ++ .plain q :: m₃)) next := by
  intro s hs hr
  refine (h₁ hs (keyFree_of_table hr)).append (by simp [hes.tokens, hvs.tokens]) fun _ _ hs₁ => ?_
  refine (h₂ hs₁ hr).andSign hvs.tokens hq rfl ?_
  exact h₃ (.fresh rfl hs.label) hr

/-- The `end` of a body closes what its `function` opened. -/
theorem func {more : Bool} (ht : t.kind = .symbol .parenOpen) (hps : ParamList ns more ts m₁ (y :: ts₁))
    (hy : y.kind = .symbol .parenClose) (hb : Reads (.block body) ts₁ m₂ (z :: next))
    (hz : z.kind = .keyword .end) (h : Scanned (.block body) ts₁ m₂ (z :: next)) :
    Scanned (.func (.mk p ns more body)) (t :: ts)
      (.plain t :: (m₁ ++ .plain y :: (m₂ ++ [.plain z]))) next := by
  intro s hs hr
  obtain ⟨o, hopens, ho⟩ := hr
  have hleaves : s.opens.tail = o := by rw [hopens, List.tail_cons]
  rw [Item.leaves, hleaves]
  refine .sign ht rfl hs ?_
  rw [hopens]
  refine (hps.scans (s := ⟨_, .other :: .other :: o, _⟩) (.fresh rfl other_not_label)
    other_not_table).andSign (by simp [hb.tokens]) hy rfl ?_
  exact (h (.fresh rfl other_not_label) other_not_table).andSign rfl hz rfl
    (.nil (.fresh rfl ho) rfl)

/-- A sign that begins no field, an operand, and what goes on after it. -/
theorem operation {limit limit' : Nat} {l : Expr} (hsign : t.kind.isSign = true)
    (hselects : t.kind.selects = false) (hseparates : t.kind.separates = false)
    (hopens : ∀ o, openAfter o t.kind = o) (hrest : Reads (.operators limit l r) ts₁ m₂ next)
    (h₁ : Scanned (.expr limit' e) ts m₁ ts₁) (h₂ : Scanned (.operators limit l r) ts₁ m₂ next)
    {s : Scan} (hs : s.Calm t.kind) : Scans s (.plain t :: (m₁ ++ m₂)) next s.opens := by
  refine .sign rfl hsign hs ?_
  rw [hopens]
  exact (h₁ (.fresh hselects hs.label) (keyFree_of_prev hseparates)).append hrest.tokens
    fun _ _ hs₁ => h₂ hs₁ trivial

/-- After a separator another field may begin. -/
theorem fieldsCons {fs : List TableField} {g : TableField} (hfs : Reads (.fields fs) ts₁ m₂ next)
    (hy : y.kind = .symbol .comma ∨ y.kind = .symbol .semicolon) (h₁ : Scanned (.field g) ts m₁ (y :: ts₁))
    (h₂ : Scanned (.fields fs) ts₁ m₂ next) :
    Scanned (.fields (g :: fs)) ts (m₁ ++ .plain y :: m₂) next := by
  intro s hs hr
  have hopens : s.opens.head? = some .table := by
    simp only [Item.Ready, Scan.atField, Bool.and_eq_true, decide_eq_true_eq] at hr
    exact hr.1
  rcases hy with hy | hy <;>
  · refine (h₁ hs hr).andSign hfs.tokens hy rfl ?_
    exact h₂ (.fresh rfl hs.label) (Scan.atField_of_table hopens rfl)

/-- A key in brackets is an expression like any other. -/
theorem fieldKeyed (ht : t.kind = .symbol .bracketOpen) (hy : y.kind = .symbol .bracketClose)
    (hq : q.kind = .symbol .assign) (he : Reads (.expr 0 e) ts₁ m₂ next)
    (h₁ : Scanned (.expr 0 a) ts m₁ (y :: q :: ts₁)) (h₂ : Scanned (.expr 0 e) ts₁ m₂ next) :
    Scanned (.field (.mk p (some a) e)) (t :: ts) (.plain t :: (m₁ ++ .plain y :: .plain q :: m₂))
      next := by
  intro s hs _
  refine .sign ht rfl hs ((h₁ (.fresh rfl other_not_label) (keyFree_of_prev rfl)).andSign
    (by simp [he.tokens]) hy rfl ?_)
  refine .sign hq rfl (.fresh rfl hs.label) ?_
  exact h₂ (.fresh rfl hs.label) (keyFree_of_prev rfl)

/-- The key of a field is a name before the sign of an assignment, where a field begins. -/
theorem fieldNamed (hk : k.kind = .name x) (hq : q.kind = .symbol .assign)
    (h : Scanned (.expr 0 e) ts ms next) :
    Scanned (.field (.mk p (some a) e)) (k :: q :: ts) (.plain k :: .plain q :: ms) next := by
  intro s hs hr
  rw [kindOf_cons, hk] at hs
  refine .plain hk ?_ ?_
  · rw [tokensOf_plain, List.cons_append, kindOf_cons, hq]
    exact Scan.identifies_key hr
  · rw [Scan.step_eq hs.header nofun]
    exact .sign hq rfl (.fresh rfl hs.label) (h (.fresh rfl hs.label) (keyFree_of_prev rfl))

end

end Scanned

/-- **A derivation agrees with the roles of its names.** -/
theorem Reads.scans {item : Item} {ts next : List Token} {ms : List Mark} (h : Reads item ts ms next) :
    Scanned item ts ms next := by
  induction h with
  | block _ ih => exact ih
  | stmtsEnd => exact fun hs _ => .nil hs rfl
  | returnNone ht _ ho => exact Scanned.returnStat ht ho fun hs _ => .nil hs rfl
  | returnSome ht _ _ _ ho ih => exact Scanned.returnStat ht ho ih
  | stmtsSkip ht _ ih => exact fun hs hr => .sign ht rfl hs (ih (.fresh rfl hs.label) hr)
  | stmtsCons _ _ hss ih₁ ih₂ =>
    exact fun hs hr => (ih₁ hs hr).append hss.tokens fun _ _ hs => ih₂ hs hr
  | «if» ht _ helses horelse hz ih₁ ih₂ ih₃ => exact Scanned.ifStat ht helses horelse hz ih₁ ih₂ ih₃
  | «while» ht _ hy hb hz ih₁ ih₂ => exact Scanned.whileStat ht hy hb hz ih₁ ih₂
  | «do» ht _ hz ih =>
    intro s hs _
    exact .sign ht rfl hs ((ih (.fresh rfl other_not_label) other_not_table).andSign rfl hz rfl
      (.nil (.fresh rfl hs.label) rfl))
  | «repeat» ht _ hy hc ih₁ ih₂ => exact Scanned.repeatStat ht hy hc ih₁ ih₂
  | numericFor ht hv hq _ hy₁ hb hstep hy₂ hbody hz ih₁ ih₂ ih₃ ih₄ =>
    exact Scanned.numericFor ht hv hq hy₁ hb hstep hy₂ hbody hz ih₁ ih₂ ih₃ ih₄
  | genericFor ht hns hy₁ hvs hy₂ hbody hz ih₁ ih₂ =>
    exact Scanned.genericFor ht hns hy₁ hvs hy₂ hbody hz ih₁ ih₂
  | functionStat ht hv hpath hf ih => exact Scanned.functionStat ht hv hpath hf ih
  | localFunction ht hw hv _ ih => exact Scanned.localFunction ht hw hv ih
  | «local» ht hxs hvs ih => exact Scanned.localStat ht hxs hvs ih
  | «break» ht => exact fun hs _ => .sign ht rfl hs (.nil (.fresh rfl hs.label) rfl)
  | goto ht hk => exact fun hs _ => .selected ht rfl hk hs (.nil (.fresh rfl hs.label) rfl)
  | label ht hk hz => exact Scanned.label ht hk hz
  | assign _ hes hq _ hvs ih₁ ih₂ ih₃ => exact Scanned.assign hes hq hvs ih₁ ih₂ ih₃
  | callStat _ _ _ _ ih => exact fun hs hr => ih hs (keyFree_of_table hr)
  | clause _ hy hb ih₁ ih₂ =>
    intro s hs hr
    refine (ih₁ hs (keyFree_of_table hr)).andSign hb.tokens hy rfl ?_
    exact ih₂ (.fresh rfl hs.label) hr
  | elsesEnd => exact fun hs _ => .nil hs rfl
  | elsesCons ht _ hcs ih₁ ih₂ =>
    intro s hs hr
    refine .sign ht rfl hs ((ih₁ (.fresh rfl hs.label) hr).append hcs.tokens fun _ _ hs₁ => ?_)
    exact ih₂ hs₁ hr
  | orelseNone => exact fun hs _ => .nil hs rfl
  | orelseSome ht _ ih => exact fun hs hr => .sign ht rfl hs (ih (.fresh rfl hs.label) hr)
  | stepNone => exact fun hs _ => .nil hs rfl
  | stepSome ht _ ih =>
    exact fun hs hr => .sign ht rfl hs (ih (.fresh rfl hs.label) (keyFree_of_table hr))
  | initialNone => exact fun hs _ => .nil hs rfl
  | initialSome ht _ ih => exact fun hs hr => .sign ht rfl hs (ih (.fresh rfl hs.label) hr)
  | targetsEnd => exact fun hs _ => .nil hs rfl
  | targetsCons ht _ hes ih₁ ih₂ =>
    intro s hs hr
    refine .sign ht rfl hs
      ((ih₁ (.fresh rfl hs.label) (keyFree_of_table hr)).append hes.tokens fun _ _ hs₁ => ?_)
    exact ih₂ hs₁ hr
  | func ht hps hy hb hz ih => exact Scanned.func ht hps hy hb hz ih
  | exprsOne _ _ ih => exact fun hs hr => ih hs (keyFree_of_table hr)
  | exprsCons _ hy hes ih₁ ih₂ =>
    intro s hs hr
    refine (ih₁ hs (keyFree_of_table hr)).andSign hes.tokens hy rfl ?_
    exact ih₂ (.fresh rfl hs.label) hr
  | unary hop _ hrest ih₁ ih₂ =>
    obtain ⟨hsign, hselects, hseparates, hopens⟩ := unary_kind hop
    exact fun hs _ => Scanned.operation hsign hselects hseparates hopens hrest ih₁ ih₂ hs
  | operand _ _ hrest ih₁ ih₂ =>
    exact fun hs hr => (ih₁ hs hr).append hrest.tokens fun _ _ hs₁ => ih₂ hs₁ trivial
  | operatorsEnd => exact fun hs _ => .nil hs rfl
  | operator hop _ _ hrest ih₁ ih₂ =>
    obtain ⟨hsign, hselects, hseparates, hopens⟩ := binary_kind hop
    exact fun hs _ => Scanned.operation hsign hselects hseparates hopens hrest ih₁ ih₂ hs
  | number ht | string ht | nil ht | true ht | false ht | vararg ht | argString ht =>
    exact fun hs _ => .sign ht rfl hs (.nil (.fresh rfl hs.label) rfl)
  | tableExpr _ ih => exact fun hs _ => ih hs trivial
  | functionExpr ht _ ih =>
    exact fun hs _ => .sign ht rfl hs (ih (.fresh rfl other_not_label) ⟨_, rfl, hs.label⟩)
  | suffixedExpr _ ih => exact ih
  | name hv hrest ih =>
    intro s hs hr
    refine .named hv hs ?_ (ih (.fresh rfl hs.label) trivial)
    rw [← hrest.tokens]
    exact fun hfield => hr hfield _ hv.1
  | paren ht _ hz hrest ih₁ ih₂ =>
    intro s hs _
    refine .sign ht rfl hs
      ((ih₁ (.fresh rfl other_not_label) (keyFree_of_prev rfl)).andSign hrest.tokens hz rfl ?_)
    exact ih₂ (.fresh rfl hs.label) trivial
  | suffixesEnd => exact fun hs _ => .nil hs rfl
  | dot ht hk _ ih => exact fun hs _ => .selected ht rfl hk hs (ih (.fresh rfl hs.label) trivial)
  | bracket ht _ hz hrest ih₁ ih₂ =>
    intro s hs _
    refine .sign ht rfl hs
      ((ih₁ (.fresh rfl other_not_label) (keyFree_of_prev rfl)).andSign hrest.tokens hz rfl ?_)
    exact ih₂ (.fresh rfl hs.label) trivial
  | method ht hk _ hrest ih₁ ih₂ =>
    intro s hs _
    exact .selected ht rfl hk hs
      ((ih₁ (.fresh rfl hs.label) trivial).append hrest.tokens fun _ _ hs₁ => ih₂ hs₁ trivial)
  | call _ hrest ih₁ ih₂ =>
    exact fun hs _ => (ih₁ hs trivial).append hrest.tokens fun _ _ hs₁ => ih₂ hs₁ trivial
  | argTable _ ih => exact fun hs _ => ih hs trivial
  | argsNone ht hz =>
    intro s hs _
    exact .sign ht rfl hs (.sign hz rfl (.fresh rfl other_not_label) (.nil (.fresh rfl hs.label) rfl))
  | argsSome ht _ _ hz ih =>
    intro s hs _
    exact .sign ht rfl hs ((ih (.fresh rfl other_not_label) other_not_table).andSign rfl hz rfl
      (.nil (.fresh rfl hs.label) rfl))
  | table ht _ hz ih =>
    intro s hs _
    refine .sign ht rfl hs ((ih (.fresh rfl table_not_label) ?_).andSign rfl hz rfl
      (.nil (.fresh rfl hs.label) rfl))
    exact Scan.atField_of_table rfl rfl
  | fieldsEnd => exact fun hs _ => .nil hs rfl
  | fieldsLast _ _ _ _ ih => exact ih
  | fieldsCons _ _ hy hfs ih₁ ih₂ => exact Scanned.fieldsCons hfs hy ih₁ ih₂
  | fieldKeyed ht _ hy hq he ih₁ ih₂ => exact Scanned.fieldKeyed ht hy hq he ih₁ ih₂
  | fieldNamed hk hq _ ih => exact Scanned.fieldNamed hk hq ih
  | fieldPlain _ hkey _ ih => exact fun hs _ => ih hs fun _ x hx => hkey x hx

/-- **The identifiers of a derivation are the identifiers among its tokens.** -/
theorem Reads.identifierTokens_eq {b : Block} {ts : List Token} {ms : List Mark} {e : Token}
    (h : Reads (.block b) ts ms [e]) (he : e.kind = .eof) :
    identifierTokens ts = tokensOf (ms.filter fun m => m.ident.isSome) := by
  have hscans : Scans {} ms [e] [] := h.scans ⟨rfl, trivial, nofun⟩ nofun
  have hlast : ∀ s : Scan, s.identifierTokens [e] = [] := by
    intro s
    simp [Scan.identifierTokens, Scan.identifies, he]
  rw [identifierTokens, h.tokens, hscans.agrees.identifierTokens, hlast, List.append_nil]

end LuaServer.Lua
