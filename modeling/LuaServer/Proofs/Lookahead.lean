/-
# First tokens and what follows

The reader chooses between the rules of the grammar by one token of lookahead.  This module says what
it can rely on: with which tokens a phrase begins (`Derives.opens`), and what may stand behind it.
-/
import LuaServer.Proofs.Phrases
import LuaServer.Proofs.Roles

namespace LuaServer.Lua

open Parse (endsBlock)

/-! ## 1. The first tokens of a phrase -/

/-- A statement other than `return` and the empty one begins so. -/
def opensStatement : Kind → Bool
  | .keyword .if | .keyword .while | .keyword .do | .keyword .for | .keyword .repeat
  | .keyword .function | .keyword .local | .keyword .break | .keyword .goto | .symbol .colons
  | .name _ | .symbol .parenOpen => true
  | _ => false

/-- An operand begins so. -/
def opensOperand : Kind → Bool
  | .name _ | .number _ | .string _ | .keyword .nil | .keyword .true | .keyword .false
  | .keyword .function | .symbol .ellipsis | .symbol .braceOpen | .symbol .parenOpen => true
  | _ => false

/-- An expression begins so. -/
def opensExpr (k : Kind) : Bool := opensOperand k || (UnaryOp.ofKind? k).isSome

/-- A name or a parenthesis begins so. -/
def opensApplied : Kind → Bool
  | .name _ | .symbol .parenOpen => true
  | _ => false

/-- The arguments of a call begin so. -/
def opensArgs : Kind → Bool
  | .string _ | .symbol .braceOpen | .symbol .parenOpen => true
  | _ => false

/-- With which tokens a phrase begins, if there are any. -/
def Phrase.Opens (u : List Token) : Phrase → Prop
  | .stmts _ => u = [] ∨ kindOf u = .keyword .return ∨ kindOf u = .symbol .semicolon ∨
      opensStatement (kindOf u) = true
  | .stmt _ => opensStatement (kindOf u) = true
  | .elses _ => u = [] ∨ kindOf u = .keyword .elseif
  | .orelse _ => u = [] ∨ kindOf u = .keyword .else
  | .step _ | .targets _ => u = [] ∨ kindOf u = .symbol .comma
  | .initial _ => u = [] ∨ kindOf u = .symbol .assign
  | .func _ => kindOf u = .symbol .parenOpen
  | .exprs _ => opensExpr (kindOf u) = true
  | .expr _ => opensExpr (kindOf u) = true ∧ KeyFree u
  | .suffixed _ | .applied _ => opensApplied (kindOf u) = true ∧ KeyFree u
  | .args _ => opensArgs (kindOf u) = true
  | .table _ => kindOf u = .symbol .braceOpen
  | .field _ => opensExpr (kindOf u) = true ∨ kindOf u = .symbol .bracketOpen
  | _ => True

section
variable {u w rest : List Token}

theorem kindOf_append (h : kindOf u ≠ .eof) : kindOf (u ++ w) = kindOf u := by
  cases u with
  | nil => exact absurd rfl h
  | cons t u => rfl

theorem ne_eof_of_opens {f : Kind → Bool} (heof : f .eof = false) (h : f (kindOf u) = true) :
    kindOf u ≠ .eof := by
  intro hu
  rw [hu, heof] at h
  cases h

theorem exists_cons_of_opens {f : Kind → Bool} (heof : f .eof = false) (h : f (kindOf u) = true) :
    ∃ t ts, u = t :: ts := by
  refine List.exists_cons_of_ne_nil fun hu => ne_eof_of_opens heof h ?_
  rw [hu]
  rfl

theorem kindOf_append_of_opens {f : Kind → Bool} (heof : f .eof = false)
    (h : f (kindOf u) = true) : kindOf (u ++ w) = kindOf u :=
  kindOf_append (ne_eof_of_opens heof h)

theorem KeyFree.append (h : KeyFree u) (hu : kindOf u ≠ .eof) (hw : kindOf w ≠ .symbol .assign) :
    KeyFree (u ++ w) := by
  intro x hx
  cases u with
  | nil => exact absurd rfl hu
  | cons t u =>
    cases u with
    | nil => exact hw
    | cons s u => exact h x hx

theorem cases_of_opensApplied {k : Kind} (h : opensApplied k = true) :
    (∃ x, k = .name x) ∨ k = .symbol .parenOpen := by
  unfold opensApplied at h
  split at h
  · exact .inl ⟨_, rfl⟩
  · exact .inr rfl
  · cases h

theorem opensOperand_of_applied {k : Kind} (h : opensApplied k = true) : opensOperand k = true := by
  obtain ⟨x, rfl⟩ | rfl := cases_of_opensApplied h
  · rfl
  · rfl

theorem opensExpr_of_applied {k : Kind} (h : opensApplied k = true) : opensExpr k = true := by
  rw [opensExpr, opensOperand_of_applied h, Bool.true_or]

theorem opensStatement_of_applied {k : Kind} (h : opensApplied k = true) :
    opensStatement k = true := by
  obtain ⟨x, rfl⟩ | rfl := cases_of_opensApplied h
  · rfl
  · rfl

theorem keyFree_of_kind (h : ∀ x, kindOf u ≠ .name x) : KeyFree u := fun x hx => absurd hx (h x)

/-- What is applied to an expression does not make a key of it. -/
theorem opensApplied_append (h : opensApplied (kindOf u) = true ∧ KeyFree u)
    (hw : kindOf w ≠ .symbol .assign) :
    opensApplied (kindOf (u ++ w)) = true ∧ KeyFree (u ++ w) := by
  have hu := ne_eof_of_opens rfl h.1
  exact ⟨by rw [kindOf_append hu, h.1], h.2.append hu hw⟩

theorem Derives.opens {phrase : Phrase} (h : Derives phrase u rest) : phrase.Opens u := by
  induction h with
  | stmtsCons _ _ ih _ =>
    refine .inr (.inr (.inr ?_))
    rwa [kindOf_append_of_opens rfl ih]
  | assign _ _ _ _ _ ih _ _ =>
    have hstart := opensStatement_of_applied ih.1
    rwa [Phrase.Opens, kindOf_append_of_opens rfl hstart]
  | callStat _ _ ih => exact opensStatement_of_applied ih.1
  | exprsOne _ ih => exact ih.1
  | exprsCons _ _ _ ih _ => rw [Phrase.Opens, kindOf_append_of_opens rfl ih.1, ih.1]
  | unary hop _ _ =>
    refine ⟨by simp [opensExpr, hop], keyFree_of_kind fun x hx => ?_⟩
    rw [kindOf_cons] at hx
    rw [hx] at hop
    cases hop
  | binary _ hop _ ih _ =>
    have hu := ne_eof_of_opens rfl ih.1
    refine ⟨by rw [kindOf_append hu, ih.1], ih.2.append hu fun hassign => ?_⟩
    rw [kindOf_cons] at hassign
    rw [hassign] at hop
    cases hop
  | tableExpr _ ih =>
    rw [Phrase.Opens] at ih
    exact ⟨by simp [ih, opensExpr, opensOperand], keyFree_of_kind (by simp [ih])⟩
  | suffixedExpr _ ih => exact ⟨opensExpr_of_applied ih.1, ih.2⟩
  | suffixed _ _ ih => exact ih
  | name hv => exact ⟨by simp [hv.kind, opensApplied], fun x hx => nofun⟩
  | dot _ ht _ ih => exact opensApplied_append ih (by simp [ht])
  | bracket _ ht _ _ ih _ => exact opensApplied_append ih (by simp [ht])
  | method _ ht _ _ ih _ => exact opensApplied_append ih (by simp [ht])
  | call _ _ ih₁ ih₂ =>
    refine opensApplied_append ih₁ fun hassign => ?_
    simp [Phrase.Opens, hassign, opensArgs] at ih₂
  | argTable _ ih =>
    rw [Phrase.Opens] at ih
    simp [Phrase.Opens, ih, opensArgs]
  | fieldsLast _ _ | fieldsCons _ _ _ _ _ => trivial
  | fieldPlain _ ih => exact .inl ih.1
  | fieldNamed hk _ _ _ => exact .inl (by simp [hk, opensExpr, opensOperand])
  | _ =>
    simp_all [Phrase.Opens, opensStatement, opensExpr, opensOperand, opensApplied, opensArgs, KeyFree]

end

/-! ## 2. What follows a phrase -/

/-- No operator goes on with an expression before this. -/
def endsExpr (k : Kind) : Prop := BinaryOp.ofKind? k = none

/-- Nor does a comma. -/
def endsExprs (k : Kind) : Prop := endsExpr k ∧ k ≠ .symbol .comma

/-- Nor an equals sign. -/
def endsStatement (k : Kind) : Prop := endsExprs k ∧ k ≠ .symbol .assign

/-- A field of a table ends before this. -/
def endsField (k : Kind) : Prop :=
  k = .symbol .comma ∨ k = .symbol .semicolon ∨ k = .symbol .braceClose

theorem endsStatement_of_endsBlock {k : Kind} (h : endsBlock k = true) : endsStatement k := by
  unfold endsBlock at h
  split at h
  all_goals simp [endsStatement, endsExprs, endsExpr, BinaryOp.ofKind?] at h ⊢

theorem endsStatement_of_opens {k : Kind} (h : opensStatement k = true) : endsStatement k := by
  unfold opensStatement at h
  split at h
  all_goals simp [endsStatement, endsExprs, endsExpr, BinaryOp.ofKind?] at h ⊢

theorem endsExpr_of_endsField {k : Kind} (h : endsField k) : endsExpr k := by
  obtain rfl | rfl | rfl := h
  all_goals rfl

theorem startsStatement_of_opens {k : Kind} (h : opensStatement k = true) : startsStatement k := by
  unfold opensStatement at h
  split at h
  all_goals simp [startsStatement, endsBlock] at h ⊢

/-- What may stand before a statement or the end of a block ends a statement. -/
theorem endsStatement_of_stmts {ss : List Stmt} {w rest : List Token}
    (h : Derives (.stmts ss) w rest) (hrest : endsBlock (kindOf rest) = true) :
    endsStatement (kindOf (w ++ rest)) := by
  obtain rfl | hw | hw | hw := h.opens
  · exact endsStatement_of_endsBlock hrest
  · rw [kindOf_append (by simp [hw]), hw]
    exact ⟨⟨rfl, nofun⟩, nofun⟩
  · rw [kindOf_append (by simp [hw]), hw]
    exact ⟨⟨rfl, nofun⟩, nofun⟩
  · rw [kindOf_append_of_opens rfl hw]
    exact endsStatement_of_opens hw

theorem endsBlock_of_else {k : Kind} (h : k = .keyword .else ∨ k = .keyword .end) :
    endsBlock k = true := by
  obtain rfl | rfl := h
  all_goals rfl

theorem kindOf_orelse {o : Option Block} {u rest : List Token} {z : Token}
    (h : Derives (.orelse o) u (z :: rest)) (hz : z.kind = .keyword .end) :
    kindOf (u ++ z :: rest) = .keyword .else ∨ kindOf (u ++ z :: rest) = .keyword .end := by
  obtain rfl | hu := h.opens
  · exact .inr hz
  · exact .inl (by rw [kindOf_append (by simp [hu]), hu])

theorem endsBlock_of_elses {cs : List IfClause} {u rest : List Token}
    (h : Derives (.elses cs) u rest)
    (hrest : kindOf rest = .keyword .else ∨ kindOf rest = .keyword .end) :
    endsBlock (kindOf (u ++ rest)) = true := by
  obtain rfl | hu := h.opens
  · exact endsBlock_of_else hrest
  · rw [kindOf_append (by simp [hu]), hu]
    rfl

theorem endsExpr_of_step {o : Option Expr} {u rest : List Token} {y : Token}
    (h : Derives (.step o) u (y :: rest)) (hy : y.kind = .keyword .do) :
    endsExpr (kindOf (u ++ y :: rest)) := by
  obtain rfl | hu := h.opens
  · simp [hy, endsExpr, BinaryOp.ofKind?]
  · rw [kindOf_append (by simp [hu]), hu]
    rfl

end LuaServer.Lua
