/-
# The nodes of a tree are told apart

The tree is a value, and two nodes that were read at different places might be equal.  They never are.

A node that stood twice in the walk of a tree would stand there twice with all that is below it, since no
node is below itself (`Nested`).  But at or below each node there is something that stands at a token of
its own: an expression with its head (`Proofs/Heads.lean`), a statement with its first word, or a block
without statements, which stands where it ends.  That token would be read twice.

Main result: `parse_walk_nodup`.
-/
import LuaServer.Proofs.Heads

namespace LuaServer.Lua

open scoped Classical

/-! ## 1. What is below a node -/

/-- What nodes weigh together. -/
def weigh (w : Node → Nat) : List Node → Nat
  | [] => 0
  | nd :: ns => w nd + weigh w ns

/-- Whatever nodes weigh, each of them weighs as often as it stands there, with all that is below it: two
places where one node stands do not overlap. -/
def Nested (ns : List Node) : Prop :=
  ∀ (w : Node → Nat) (nd : Node), ns.count nd * weigh w nd.below ≤ weigh w ns

theorem weigh_append (w : Node → Nat) (ms ns : List Node) :
    weigh w (ms ++ ns) = weigh w ms + weigh w ns := by
  induction ms with
  | nil => exact (Nat.zero_add _).symm
  | cons nd ms ih => rw [List.cons_append, weigh, weigh, ih, Nat.add_assoc]

/-- The weight that counts the places of nodes. -/
theorem weigh_places (f : Node → Option Pos) (q : Pos) (ns : List Node) :
    weigh (fun nd => (f nd).toList.count q) ns = (ns.filterMap f).count q := by
  induction ns with
  | nil => rfl
  | cons nd ns ih =>
    rw [weigh, ih]
    cases h : f nd with
    | none => simp [h]
    | some p => simp [h, List.count_cons, Nat.add_comm]

namespace Nested

variable {nd : Node} {ns ms : List Node}

theorem nil : Nested [] := fun _ _ => by simp [weigh]

/-- One list of nodes after another. -/
theorem append (hns : Nested ns) (hms : Nested ms) : Nested (ns ++ ms) := by
  intro w nd
  have hns := hns w nd
  have hms := hms w nd
  rw [List.count_append, Nat.add_mul, weigh_append]
  omega

/-- No node is below itself: it would have fewer nodes below it than it has. -/
theorem not_mem (h : Nested ns) (hbelow : nd.below = nd :: ns) : nd ∉ ns := by
  intro hmem
  have hsize := h (fun _ => 1) nd
  have htimes := Nat.le_mul_of_pos_left (weigh (fun _ => 1) nd.below) (List.count_pos_iff.mpr hmem)
  rw [hbelow, weigh] at hsize htimes
  omega

/-- A node before all that is below it. -/
theorem cons (h : Nested ns) (hbelow : nd.below = nd :: ns) : Nested (nd :: ns) := by
  intro w x
  by_cases hx : nd = x
  · subst hx
    have hrest : ns.count nd = 0 := List.count_eq_zero.mpr (h.not_mem hbelow)
    have honce : (nd :: ns).count nd * weigh w nd.below = weigh w (nd :: ns) := by
      rw [List.count_cons_self, hrest, hbelow, Nat.zero_add, Nat.one_mul]
    exact Nat.le_of_eq honce
  · rw [List.count_cons_of_ne hx, weigh]
    exact Nat.le_add_left_of_le (h w x)

/-- Names that are declared have nothing below them. -/
theorem names (xs : List Name) (h : Nested ns) : Nested (xs.map .declared ++ ns) := by
  induction xs with
  | nil => exact h
  | cons n xs ih => exact (nil.cons rfl : Nested [.declared n]).append ih

end Nested

/-- In a walk no node is below itself. -/
theorem nested_walked : Walked Nested where
  nil := .nil
  append := .append
  node _ hbelow h := (h.names _).cons hbelow

/-! ## 2. Words -/

/-- The place of the word that a statement begins with.  An assignment and a call begin with an expression
instead. -/
def Stmt.word? : Stmt → Option Pos
  | .assign _ (_ :: _) _ | .call _ _ => none
  | .assign p [] _ | .local p _ _ _ | .do p _ | .while p _ _ | .repeat p _ _ | .if p _ _
  | .numericFor p _ _ _ _ _ | .genericFor p _ _ _ | .function p _ _ _ | .localFunction p _ _
  | .return p _ | .break p | .goto p _ | .label p _ => some p

/-- The place of the token that tells a statement, or a block without statements, from all others. -/
def Node.word? : Node → Option Pos
  | .stmt s => s.word?
  | .block (.mk p []) => some p
  | _ => none

/-- The words of nodes. -/
def wordsIn (ns : List Node) : List Pos := ns.filterMap Node.word?

/-- How many of the nodes have their word at a place. -/
def wordsAt (ns : List Node) (q : Pos) : Nat := (wordsIn ns).count q

section
variable (ns : List Node) (q : Pos)

@[simp] theorem wordsAt_nil : wordsAt [] q = 0 := rfl

@[simp] theorem wordsAt_append (ms : List Node) : wordsAt (ms ++ ns) q = wordsAt ms q + wordsAt ns q := by
  simp [wordsAt, wordsIn]

@[simp] theorem wordsAt_cons_stmt (s : Stmt) :
    wordsAt (.stmt s :: ns) q = s.word?.toList.count q + wordsAt ns q := by
  cases h : s.word? <;> simp [wordsAt, wordsIn, Node.word?, h, List.count_cons, Nat.add_comm]

@[simp] theorem wordsAt_cons_empty (p : Pos) :
    wordsAt (.block (.mk p []) :: ns) q = [p].count q + wordsAt ns q := by
  simp [wordsAt, wordsIn, Node.word?, List.count_cons, Nat.add_comm]

@[simp] theorem wordsAt_cons_block (p : Pos) (s : Stmt) (ss : List Stmt) :
    wordsAt (.block (.mk p (s :: ss)) :: ns) q = wordsAt ns q := rfl

@[simp] theorem wordsAt_declared (xs : List Name) : wordsAt (xs.map .declared) q = 0 := by
  induction xs with
  | nil => rfl
  | cons n xs ih => exact ih

@[simp] theorem wordsAt_cons_declared (n : Name) : wordsAt (.declared n :: ns) q = wordsAt ns q := rfl
@[simp] theorem wordsAt_cons_expr (e : Expr) : wordsAt (.expr e :: ns) q = wordsAt ns q := rfl
@[simp] theorem wordsAt_cons_clause (c : IfClause) : wordsAt (.clause c :: ns) q = wordsAt ns q := rfl
@[simp] theorem wordsAt_cons_field (f : TableField) : wordsAt (.field f :: ns) q = wordsAt ns q := rfl
@[simp] theorem wordsAt_cons_func (f : FuncBody) : wordsAt (.func f :: ns) q = wordsAt ns q := rfl
@[simp] theorem wordsAt_cons_chunk (c : Chunk) : wordsAt (.chunk c :: ns) q = wordsAt ns q := rfl

end

/-- The first of the tokens stands at a place. -/
def firstAt (ts : List Token) (q : Pos) : Nat := ((ts.take 1).map (·.pos)).count q

@[simp] theorem firstAt_cons (t : Token) (ts : List Token) (q : Pos) :
    firstAt (t :: ts) q = [t.pos].count q := rfl

section
variable {ts next : List Token} {ms : List Mark}

/-- The first token is one that was read, or the next one. -/
theorem firstAt_append (ms : List Mark) (next : List Token) (q : Pos) :
    firstAt (tokensOf ms ++ next) q ≤ tokensAt ms q + firstAt next q := by
  cases ms with
  | nil => simp
  | cons m ms =>
    have hmark : tokensAt (m :: ms) q = [m.tok.pos].count q + tokensAt ms q := by
      simp [tokensAt, tokensOf, List.count_cons, Nat.add_comm]
    rw [hmark]
    exact Nat.le_add_right_of_le (Nat.le_add_right _ _)

/-- The first token of a part of a program is one of its own, or the one that follows it. -/
theorem Reads.firstAt_le {item : Item} (h : Reads item ts ms next) (q : Pos) :
    firstAt ts q ≤ tokensAt ms q + firstAt next q := by
  rw [h.tokens]
  exact firstAt_append ms next q

/-- The name of a function statement is no statement. -/
theorem Path.words {e r : Expr} {m : Bool} (h : Path e r m ts ms next) (q : Pos) :
    wordsAt (walkExpr r) q = wordsAt (walkExpr e) q := by
  induction h with
  | done => rfl
  | method => simp [walkExpr]
  | field _ _ _ ih => simp [walkExpr] at *; omega

/-- The words of a block with statements are those of the statements; one without stands at `t`. -/
theorem wordsAt_walkBlock (t : Token) (ss : List Stmt) (q : Pos) :
    wordsAt (walkBlock (.mk t.pos ss)) q ≤ wordsAt (walkStmts ss) q ∨
      wordsAt (walkBlock (.mk t.pos ss)) q = [t.pos].count q := by
  cases ss with
  | nil => exact .inr (by simp [walkBlock, walkStmts])
  | cons s ss => exact .inl (by simp [walkBlock])

/-- The statements of a part of a program have their words at its tokens, one at each.  A block at the end
of the part may stand at the token that follows.  The clauses that may follow a block begin with a token of
their own, which is none of their words. -/
def Item.Worded (ts : List Token) (ms : List Mark) (next : List Token) (q : Pos) : Item → Prop
  | .block b => wordsAt (walkBlock b) q ≤ tokensAt ms q + firstAt next q
  | .stmts ss => wordsAt (walkStmts ss) q ≤ tokensAt ms q
  | .stmt s => wordsAt (walkStmt s) q ≤ tokensAt ms q
  | .clause c => wordsAt (walkClauses [c]) q ≤ tokensAt ms q + firstAt next q
  | .elses cs => wordsAt (walkClauses cs) q + firstAt ts q ≤ tokensAt ms q + firstAt next q
  | .orelse b => wordsAt (walkBlock? b) q + firstAt ts q ≤ tokensAt ms q + firstAt next q
  | .step e => wordsAt (walkExpr? e) q ≤ tokensAt ms q
  | .func f => wordsAt (walkFunc f) q ≤ tokensAt ms q
  | .initial es | .targets es | .exprs es | .args es => wordsAt (walkExprs es) q ≤ tokensAt ms q
  | .expr _ e | .simple e | .suffixed e | .table e => wordsAt (walkExpr e) q ≤ tokensAt ms q
  | .operators _ l e | .suffixes l e =>
    wordsAt (walkExpr e) q ≤ wordsAt (walkExpr l) q + tokensAt ms q
  | .fields fs => wordsAt (walkFields fs) q ≤ tokensAt ms q
  | .field f => wordsAt (walkFields [f]) q ≤ tokensAt ms q

/-- **Every part of a program has its words at its own tokens.** -/
theorem Reads.words {item : Item} (h : Reads item ts ms next) (q : Pos) :
    item.Worded ts ms next q := by
  induction h with
  | @block ss t _ _ _ hss ih =>
    have hfirst := hss.firstAt_le q
    have hblock := wordsAt_walkBlock t ss q
    simp only [Item.Worded, firstAt_cons] at *
    omega
  | @«repeat» ss u _ _ _ _ _ _ _ _ _ hss _ _ ih₁ ih₂ =>
    have hfirst := hss.firstAt_le q
    have hblock := wordsAt_walkBlock u ss q
    simp only [Item.Worded, walkStmt, wordsAt_cons_stmt, Stmt.word?, wordsAt_append, tokensAt_plain,
      tokensAt_append, firstAt_cons, Option.toList_some] at *
    omega
  | «if» _ _ _ _ _ ih₁ ih₂ ih₃ =>
    simp only [Item.Worded, walkStmt, wordsAt_cons_stmt, Stmt.word?, wordsAt_append, tokensAt_plain,
      tokensAt_append, tokensAt_nil, firstAt_cons, Option.toList_some] at *
    rw [walkClauses_cons, wordsAt_append]
    omega
  | elsesCons _ _ _ ih₁ ih₂ =>
    simp only [Item.Worded, tokensAt_plain, tokensAt_append, firstAt_cons] at *
    rw [walkClauses_cons, wordsAt_append]
    omega
  | fieldsCons _ _ _ _ ih₁ ih₂ =>
    simp only [Item.Worded, tokensAt_plain, tokensAt_append] at *
    rw [walkFields_cons, wordsAt_append]
    omega
  | «local» _ _ _ ih =>
    simp only [Item.Worded, walkStmt, wordsAt_cons_stmt, Stmt.word?, wordsAt_append, wordsAt_declared,
      tokensAt_plain, tokensAt_append, Option.toList_some] at *
    omega
  | functionStat _ _ hp _ ih =>
    have hpath := hp.words q
    simp [Item.Worded, walkStmt, walkExpr, Stmt.word?] at *
    omega
  | _ =>
    simp [Item.Worded, walkBlock?, walkStmts, walkStmt, Stmt.word?, walkClauses, walkExprs, walkExpr?,
      walkFields, walkFunc, walkExpr] at *
    try omega

end

/-- **No two nodes of a tree have one word.** -/
theorem parse_words_nodup {source uri : Text} {c : Chunk} (h : parse source uri = .ok c) :
    (wordsIn c.walk).Nodup := by
  obtain ⟨tokens, ms, next, σ, hlex, hreads, -⟩ := parse_sound h
  refine List.nodup_iff_count_le_one.mpr fun q => ?_
  have honce := List.nodup_iff_count_le_one.mp hlex.nodup_pos q
  have hwords : wordsAt c.walk q ≤ tokensAt ms q + firstAt next q := hreads.words q
  have hfirst : firstAt next q ≤ (next.map (·.pos)).count q :=
    ((List.take_sublist 1 next).map _).count_le q
  have hsplit : (tokens.map (·.pos)).count q = tokensAt ms q + (next.map (·.pos)).count q := by
    rw [hreads.tokens, List.map_append, List.count_append, tokensAt]
  change wordsAt c.walk q ≤ 1
  omega

/-! ## 3. Every node has a token -/

/-- Every expression has a head in it: that with which it begins, if none of its own. -/
theorem exists_headsAt (e : Expr) : ∃ q, 0 < headsAt (walkExpr e) q := by
  cases e with
  | index _ o k =>
    obtain ⟨q, hq⟩ := exists_headsAt o
    exact ⟨q, by simp [walkExpr]; omega⟩
  | call _ f as =>
    obtain ⟨q, hq⟩ := exists_headsAt f
    exact ⟨q, by simp [walkExpr]; omega⟩
  | methodCall _ o _ as =>
    obtain ⟨q, hq⟩ := exists_headsAt o
    exact ⟨q, by simp [walkExpr]; omega⟩
  | name n => exact ⟨n.pos, by simp [walkExpr, Expr.head?, Expr.pos]⟩
  | nil p | boolean p | number p | string p | vararg p | function p | table p | binary p | unary p
  | paren p => exact ⟨p, by simp [walkExpr, Expr.head?, Expr.pos]; try omega⟩

/-- At or below a node stands one with a head or a word. -/
def Node.Anchored (nd : Node) : Prop := ∃ q, 0 < headsAt nd.below q ∨ 0 < wordsAt nd.below q

/-- A node has the token of a node below it. -/
theorem Node.Anchored.of_sublist {x y : Node} (h : x.Anchored) (hsub : x.below.Sublist y.below) :
    y.Anchored := by
  obtain ⟨q, hq⟩ := h
  have hheads : headsAt x.below q ≤ headsAt y.below q := (hsub.filterMap _).count_le q
  have hwords : wordsAt x.below q ≤ wordsAt y.below q := (hsub.filterMap _).count_le q
  exact ⟨q, by omega⟩

theorem anchored_expr (e : Expr) : (Node.expr e).Anchored := (exists_headsAt e).imp fun _ => .inl

/-- A statement has its first word, or the head of its first expression. -/
theorem anchored_stmt (s : Stmt) : (Node.stmt s).Anchored := by
  cases hword : s.word? with
  | some p =>
    refine ⟨p, .inr ?_⟩
    rw [Node.below, walkStmt.eq_def, wordsAt_cons_stmt, hword]
    exact Nat.add_pos_left (by simp) _
  | none =>
    cases s with
    | assign _ ts vs =>
      cases ts with
      | nil => cases hword
      | cons t ts => exact (anchored_expr t).of_sublist (by simp [Node.below, walkStmt, walkExprs])
    | call _ e => exact (anchored_expr e).of_sublist (by simp [Node.below, walkStmt])
    | _ => cases hword

/-- A block has a statement, or the token where it ends. -/
theorem anchored_block : ∀ b : Block, (Node.block b).Anchored
  | .mk p [] => ⟨p, .inr (by simp [Node.below, walkBlock, walkStmts])⟩
  | .mk _ (s :: ss) => (anchored_stmt s).of_sublist (by simp [Node.below, walkBlock, walkStmts])

theorem Node.anchored : ∀ nd : Node, nd.Anchored
  | .expr e => anchored_expr e
  | .stmt s => anchored_stmt s
  | .block b => anchored_block b
  | .chunk c => (anchored_block c.body).of_sublist (by simp [Node.below, Chunk.walk])
  | .clause (.mk _ c _) => (anchored_expr c).of_sublist (by simp [Node.below, walkClauses])
  | .field (.mk _ _ v) => (anchored_expr v).of_sublist (by simp [Node.below, walkFields])
  | .func (.mk _ _ _ b) => (anchored_block b).of_sublist (by simp [Node.below, walkFunc])
  | .declared n => ⟨n.pos, .inl (by simp [Node.below])⟩

/-- A node of which the places below it are told apart among nodes stands there once. -/
theorem Nested.count_le_one {ns : List Node} (h : Nested ns) {nd : Node} {f : Node → Option Pos} {q : Pos}
    (hplaces : (ns.filterMap f).Nodup) (hq : 0 < (nd.below.filterMap f).count q) : ns.count nd ≤ 1 := by
  have htimes := h (fun x => (f x).toList.count q) nd
  rw [weigh_places, weigh_places] at htimes
  have honce := List.nodup_iff_count_le_one.mp hplaces q
  have hpos := Nat.le_mul_of_pos_right (ns.count nd) hq
  omega

/-- **No two nodes of a tree that is read are equal.** -/
theorem parse_walk_nodup {source uri : Text} {c : Chunk} (h : parse source uri = .ok c) :
    c.walk.Nodup := by
  refine List.nodup_iff_count_le_one.mpr fun nd => ?_
  have hnested := nested_walked.chunk c
  obtain ⟨q, hq⟩ := nd.anchored
  rcases hq with hq | hq
  · exact hnested.count_le_one (parse_heads_nodup h) hq
  · exact hnested.count_le_one (parse_words_nodup h) hq

end LuaServer.Lua
