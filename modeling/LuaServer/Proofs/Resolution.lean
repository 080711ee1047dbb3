/-
# The reader resolves names by lexical scoping

`Proofs/Scoping.lean` compares the reader's variables with the pass over the finished tree, row by row.
What is missing for whole documents is that a declaration is told from all others by its places: each
declaration, and each list of declarations, has a token of its own, and no two tokens stand at one
place.

Main result: `parse_lexically_scoped`.
-/
import Mathlib.Data.List.Nodup
import LuaServer.Proofs.Lexing
import LuaServer.Proofs.ReaderSound
import LuaServer.Proofs.Scoping

namespace LuaServer.Lua

/-! ## 1. Declarations and their tokens -/

/-- The place that a declaration has to itself: its own, or for an implicit `self` that of its list. -/
def Decl.key (d : Decl) : Pos := d.site.getD d.list

namespace Scoping

/-- How many declarations have a place to themselves. -/
def keys (r : Scoping) (q : Pos) : Nat := (r.decls.map (·.1.key)).count q

/-- How many lists of declarations stand at a place. -/
def listsAt (r : Scoping) (q : Pos) : Nat := r.lists.count q

@[simp] theorem keys_nil (q : Pos) : keys {} q = 0 := rfl
@[simp] theorem listsAt_nil (q : Pos) : listsAt {} q = 0 := rfl

@[simp] theorem keys_uses (us : List (Name × Target)) (q : Pos) : keys { uses := us } q = 0 := rfl
@[simp] theorem listsAt_uses (us : List (Name × Target)) (q : Pos) :
    listsAt { uses := us } q = 0 := rfl

@[simp] theorem keys_append (a b : Scoping) (q : Pos) : (a ++ b).keys q = a.keys q + b.keys q := by
  simp [keys]

@[simp] theorem listsAt_append (a b : Scoping) (q : Pos) :
    (a ++ b).listsAt q = a.listsAt q + b.listsAt q := by
  simp [listsAt]

/-- A list of declarations has one place for the list, which an implicit `self` shares with it, and
one for each name. -/
theorem keys_declare_le (env : Env) (p : Pos) (isMethod : Bool) (kind : BindingKind)
    (xs : List (Name × Option Attrib)) (header : Scoping) (q : Pos) :
    (declare env p (implicitSelf isMethod p) kind xs header).keys q
      ≤ [p].count q + (xs.map (·.1.pos)).count q + header.keys q := by
  have hself : ((implicitSelf isMethod p).map Decl.key).count q ≤ [p].count q := by
    cases isMethod with
    | false => exact Nat.zero_le _
    | true => exact Nat.le_refl _
  have hnames : (xs.map (Decl.ofName kind p)).map Decl.key = xs.map (·.1.pos) := by
    rw [List.map_map]
    rfl
  have hdecls : (declare env p (implicitSelf isMethod p) kind xs header).keys q
      = header.keys q + (((implicitSelf isMethod p).map Decl.key).count q
        + ((xs.map (Decl.ofName kind p)).map Decl.key).count q) := by
    simp [declare, keys, Function.comp_def]
  rw [hdecls, hnames]
  omega

/-- A list of declarations is one list, besides those in its header. -/
theorem listsAt_declare (env : Env) (p : Pos) (self : List Decl) (kind : BindingKind)
    (xs : List (Name × Option Attrib)) (header : Scoping) (q : Pos) :
    (declare env p self kind xs header).listsAt q = [p].count q + header.listsAt q := by
  simp [declare, listsAt, List.count_cons, Nat.add_comm]

end Scoping

/-- The number of tokens at a place. -/
def tokensAt (ms : List Mark) (q : Pos) : Nat := ((tokensOf ms).map (·.pos)).count q

@[simp] theorem tokensAt_nil (q : Pos) : tokensAt [] q = 0 := rfl

@[simp] theorem tokensAt_plain (t : Token) (ms : List Mark) (q : Pos) :
    tokensAt (.plain t :: ms) q = [t.pos].count q + tokensAt ms q := by
  simp [tokensAt, List.count_cons, Nat.add_comm]

@[simp] theorem tokensAt_named (t : Token) (n : Name) (ms : List Mark) (q : Pos) :
    tokensAt (.named t n :: ms) q = [t.pos].count q + tokensAt ms q := by
  simp [tokensAt, List.count_cons, Nat.add_comm]

@[simp] theorem tokensAt_append (ms ns : List Mark) (q : Pos) :
    tokensAt (ms ++ ns) q = tokensAt ms q + tokensAt ns q := by
  simp [tokensAt]

/-- The declarations of `r`, and its lists, stand each at a token of its own among `ms`. -/
def Stands (r : Scoping) (ms : List Mark) : Prop :=
  ∀ q, r.keys q ≤ tokensAt ms q ∧ r.listsAt q ≤ tokensAt ms q

/-- The names `xs` stand each at a token of its own among `ms`. -/
def Sited (xs : List (Name × Option Attrib)) (ms : List Mark) : Prop :=
  ∀ q, (xs.map (·.1.pos)).count q ≤ tokensAt ms q

theorem count_pos_cons (n : Name) (a : Option Attrib) (xs : List (Name × Option Attrib)) (q : Pos) :
    (((n, a) :: xs).map (·.1.pos)).count q = [n.pos].count q + (xs.map (·.1.pos)).count q := by
  simp [List.count_cons, Nat.add_comm]

theorem bare_cons (n : Name) (ns : List Name) : bare (n :: ns) = (n, none) :: bare ns := rfl

/-- Names that are listed stand each at its own token. -/
theorem Names.sited {ns : List Name} {ts next : List Token} {ms : List Mark}
    (h : Names ns ts ms next) : Sited (bare ns) ms := by
  intro q
  induction h with
  | last hv _ => simp [bare, hv.2]
  | cons hv _ _ ih =>
    rw [bare_cons, count_pos_cons, tokensAt_named, tokensAt_plain, hv.2]
    omega

/-- So do those of a `local` statement. -/
theorem Locals.sited {xs : List (Name × Option Attrib)} {ts next : List Token} {ms : List Mark}
    (h : Locals xs ts ms next) : Sited xs ms := by
  intro q
  induction h with
  | last hv _ _ => simp [hv.2]
  | cons hv _ _ _ ih =>
    rw [count_pos_cons, tokensAt_named, tokensAt_append, tokensAt_plain, hv.2]
    omega

/-- So do parameters. -/
theorem Params.sited {ns : List Name} {more : Bool} {ts next : List Token} {ms : List Mark}
    (h : Params ns more ts ms next) : Sited (bare ns) ms := by
  intro q
  induction h with
  | ellipsis _ => exact Nat.zero_le _
  | last hv _ => simp [bare, hv.2]
  | cons hv _ _ ih =>
    rw [bare_cons, count_pos_cons, tokensAt_named, tokensAt_plain, hv.2]
    omega

theorem ParamList.sited {ns : List Name} {more : Bool} {ts next : List Token} {ms : List Mark}
    (h : ParamList ns more ts ms next) : Sited (bare ns) ms := by
  cases h with
  | empty _ => exact fun q => Nat.zero_le _
  | some _ h => exact h.sited

/-- The name of a function statement declares nothing. -/
theorem Path.stands {e r : Expr} {m : Bool} {ts next : List Token} {ms : List Mark}
    (h : Path e r m ts ms next) (env : Env) (q : Pos) :
    (scopeExpr env r).keys q = (scopeExpr env e).keys q ∧
      (scopeExpr env r).listsAt q = (scopeExpr env e).listsAt q := by
  induction h with
  | done => exact ⟨rfl, rfl⟩
  | method => simp [scopeExpr]
  | field _ _ _ ih => simpa [scopeExpr] using ih

/-- Beyond those of `l`, the declarations of `r`, and its lists, stand each at a token of its own among
`ms`. -/
def GoesOn (l r : Scoping) (ms : List Mark) : Prop :=
  ∀ q, r.keys q ≤ l.keys q + tokensAt ms q ∧ r.listsAt q ≤ l.listsAt q + tokensAt ms q

/-- The declarations of a part of a program stand each at a token of its own among `ms`.  Where the
part begins with an expression that was already read, that expression has its own tokens. -/
def Placed : Item → List Mark → Prop
  | .block b, ms => ∀ env, Stands (scopeBlock env b) ms
  | .stmts ss, ms => ∀ env, Stands (scopeStmts env ss) ms
  | .stmt s, ms => ∀ env, Stands (scopeStmt env s) ms
  | .clause c, ms => ∀ env, Stands (scopeClause env c) ms
  | .elses cs, ms => ∀ env, Stands (scopeClauses env cs) ms
  | .orelse b, ms => ∀ env, Stands (scopeBlock? env b) ms
  | .step e, ms => ∀ env, Stands (scopeExpr? env e) ms
  | .func f, ms => ∀ env m, Stands (scopeFunc env m f) ms
  | .initial es, ms | .targets es, ms | .exprs es, ms | .args es, ms =>
    ∀ env, Stands (scopeExprs env es) ms
  | .expr _ e, ms | .simple e, ms | .suffixed e, ms | .table e, ms =>
    ∀ env, Stands (scopeExpr env e) ms
  | .operators _ l e, ms | .suffixes l e, ms => ∀ env, GoesOn (scopeExpr env l) (scopeExpr env e) ms
  | .fields fs, ms => ∀ env, Stands (scopeFields env fs) ms
  | .field f, ms => ∀ env, Stands (scopeField env f) ms

section
variable {a b l r : Scoping} {m₁ m₂ ms : List Mark}

namespace Stands

theorem none (ms : List Mark) : Stands {} ms := fun _ => ⟨Nat.zero_le _, Nat.zero_le _⟩

/-- Names are not declared where they are used. -/
theorem uses (us : List (Name × Target)) (ms : List Mark) : Stands { uses := us } ms :=
  fun _ => ⟨Nat.zero_le _, Nat.zero_le _⟩

/-- Tokens may stand before and after. -/
theorem mono (h : Stands r m₁) (hle : ∀ q, tokensAt m₁ q ≤ tokensAt m₂ q) : Stands r m₂ :=
  fun q => ⟨Nat.le_trans (h q).1 (hle q), Nat.le_trans (h q).2 (hle q)⟩

/-- A token before a part may go unused. -/
theorem plain (h : Stands r ms) (t : Token) : Stands r (.plain t :: ms) := by
  refine h.mono fun q => ?_
  rw [tokensAt_plain]
  exact Nat.le_add_left _ _

/-- Two parts have the tokens of both. -/
theorem append (ha : Stands a m₁) (hb : Stands b m₂) : Stands (a ++ b) (m₁ ++ m₂) := by
  intro q
  have ha := ha q
  have hb := hb q
  simp only [Scoping.keys_append, Scoping.listsAt_append, tokensAt_append]
  omega

/-- One part alone. -/
theorem one (h : Stands r ms) : Stands (r ++ {}) ms := by
  have h' := h.append (none [])
  rwa [List.append_nil] at h'

/-- Tokens after a part may go unused. -/
theorem before (h : Stands r m₁) (m₂ : List Mark) : Stands r (m₁ ++ m₂) := by
  refine h.mono fun q => ?_
  rw [tokensAt_append]
  exact Nat.le_add_right _ _

/-- A part, a sign and another part. -/
theorem andPlain (ha : Stands a m₁) (y : Token) (hb : Stands b m₂) :
    Stands (a ++ b) (m₁ ++ .plain y :: m₂) :=
  ha.append (hb.plain y)

/-- What goes on after a part. -/
theorem goOn (h : Stands l m₁) (hr : GoesOn l r m₂) : Stands r (m₁ ++ m₂) := by
  intro q
  have h := h q
  have hr := hr q
  rw [tokensAt_append]
  omega

end Stands

namespace GoesOn

/-- Where nothing is read, nothing is declared. -/
theorem refl (r : Scoping) : GoesOn r r [] := fun _ => ⟨Nat.le_refl _, Nat.le_refl _⟩

theorem plain (h : GoesOn l r ms) (t : Token) : GoesOn l r (.plain t :: ms) := by
  intro q
  have h := h q
  rw [tokensAt_plain]
  omega

/-- A part after what was there, and what goes on after both. -/
theorem after (ha : Stands a m₁) (h : GoesOn (l ++ a) r m₂) : GoesOn l r (m₁ ++ m₂) := by
  intro q
  have ha := ha q
  have h := h q
  rw [Scoping.keys_append, Scoping.listsAt_append] at h
  rw [tokensAt_append]
  omega

/-- A part may be added that declares nothing. -/
theorem ofNone (h : GoesOn (l ++ {}) r ms) : GoesOn l r ms := after (.none []) h

end GoesOn

/-- A list of declarations with what stands in its header, and what follows it. -/
theorem Sited.stands {header body : Scoping} {xs : List (Name × Option Attrib)}
    {m₀ m₁ m₂ : List Mark} (hxs : Sited xs m₀) (hheader : Stands header m₁) (hbody : Stands body m₂)
    (env : Env) (t : Token) (isMethod : Bool) (kind : BindingKind) :
    Stands (.declare env t.pos (implicitSelf isMethod t.pos) kind xs header ++ body)
      (.plain t :: (m₀ ++ (m₁ ++ m₂))) := by
  intro q
  have hkeys := Scoping.keys_declare_le env t.pos isMethod kind xs header q
  have hlists := Scoping.listsAt_declare env t.pos (implicitSelf isMethod t.pos) kind xs header q
  have hxs := hxs q
  have hheader := hheader q
  have hbody := hbody q
  simp only [Scoping.keys_append, Scoping.listsAt_append, tokensAt_plain, tokensAt_append]
  omega

/-- A name alone stands at its token. -/
theorem Sited.one {v : Token} {n : Name} (hv : v.writes n) : Sited (bare [n]) [.named v n] := by
  intro q
  simp [bare, hv.2]

end

/-! ## 2. The forms of the language -/

namespace Placed

section
variable {m₁ m₂ m₃ m₄ : List Mark} {t v q y₁ y₂ z : Token} {n : Name} {ns : List Name} {a b c e : Expr}
  {o : Option Expr} {cs : List IfClause} {els : Option Block} {vs : List Expr} {body : Block}
  {ss : List Stmt} {f : FuncBody}

theorem ifStat (hc : Placed (.clause (.mk t.pos c body)) m₁) (hcs : Placed (.elses cs) m₂)
    (hels : Placed (.orelse els) m₃) :
    Placed (.stmt (.if t.pos (.mk t.pos c body :: cs) els))
      (.plain t :: (m₁ ++ (m₂ ++ (m₃ ++ [.plain z])))) := by
  intro env
  rw [← List.append_assoc]
  exact (((hc env).append (hcs env)).append ((hels env).before _)).plain t

/-- What a body of a `repeat` declares is visible in its condition, and stands before it. -/
theorem repeatStat {p : Pos} (hss : Placed (.stmts ss) m₁) (hc : Placed (.expr 0 c) m₂) :
    Placed (.stmt (.repeat t.pos (.mk p ss) c)) (.plain t :: (m₁ ++ .plain y₁ :: m₂)) :=
  fun env => ((hss env).andPlain y₁ (hc (env.after ss))).plain t

/-- The list of the loop stands at its first word, and the variable at its name. -/
theorem numericFor (hv : v.writes n) (ha : Placed (.expr 0 a) m₁) (hb : Placed (.expr 0 b) m₂)
    (ho : Placed (.step o) m₃) (hbody : Placed (.block body) m₄) :
    Placed (.stmt (.numericFor t.pos n a b o body))
      (.plain t :: .named v n :: .plain q :: (m₁ ++ .plain y₁ :: (m₂ ++ (m₃ ++ .plain y₂ ::
        (m₄ ++ [.plain z]))))) := by
  intro env
  have hheader := ((ha env).andPlain y₁ ((hb env).append (ho env))).plain q
  have hbody := hbody (env.extend ((bare [n]).map (.ofName .loop t.pos)))
  have h := (Sited.one hv).stands hheader ((hbody.before [.plain z]).plain y₂) env t false .loop
  simp only [List.cons_append, List.nil_append, List.append_assoc] at h
  exact h

/-- The list of the loop stands at its first word, and the variables at their names. -/
theorem genericFor {ts next : List Token} (hns : Names ns ts m₁ next) (hvs : Placed (.exprs vs) m₂)
    (hbody : Placed (.block body) m₃) :
    Placed (.stmt (.genericFor t.pos ns vs body))
      (.plain t :: (m₁ ++ .plain y₁ :: (m₂ ++ .plain y₂ :: (m₃ ++ [.plain z])))) := by
  intro env
  exact hns.sited.stands ((hvs env).plain y₁) (((hbody _).before [.plain z]).plain y₂) env t false .loop

/-- The target of a function statement declares nothing. -/
theorem functionStat {target : Expr} {isMethod : Bool} {ts next : List Token}
    (hp : Path (.name n) target isMethod ts m₁ next) (hf : Placed (.func f) m₂) :
    Placed (.stmt (.function t.pos target f isMethod)) (.plain t :: .named v n :: (m₁ ++ m₂)) := by
  intro env
  have htarget : Stands (scopeExpr env target) [] := fun r => by
    rw [(hp.stands env r).1, (hp.stands env r).2]
    exact ⟨Nat.zero_le _, Nat.zero_le _⟩
  refine (htarget.append (hf env isMethod)).mono fun r => ?_
  simp
  omega

/-- A local function has a list of one declaration, at the word `local`. -/
theorem localFunction (hv : v.writes n) (hf : Placed (.func f) m₁) :
    Placed (.stmt (.localFunction t.pos n f)) (.plain t :: .plain y₁ :: .named v n :: m₁) := by
  intro env
  refine ((Sited.one hv).stands (.none []) (hf _ false) env t false .function).mono fun r => ?_
  simp

/-- A `local` statement has one list, at its word. -/
theorem localStat {xs : List (Name × Option Attrib)} {ts next : List Token} (hxs : Locals xs ts m₁ next)
    (hvs : Placed (.initial vs) m₂) :
    Placed (.stmt (.local t.pos (xs.map (·.1)) (xs.map (·.2)) vs)) (.plain t :: (m₁ ++ m₂)) := by
  intro env r
  have h := (hxs.sited.stands (hvs env) (.none []) env t false .local) r
  simpa [scopeStmt, withAttribs_map, implicitSelf] using h

theorem assign {p : Pos} (he : Placed (.suffixed e) m₁) (hes : Placed (.targets vs) m₂)
    {us : List Expr} (hus : Placed (.exprs us) m₃) :
    Placed (.stmt (.assign p (e :: vs) us)) (m₁ ++ (m₂ ++ .plain q :: m₃)) := by
  intro env
  rw [← List.append_assoc]
  exact ((he env).append (hes env)).andPlain q (hus env)

/-- The list of parameters stands at the parenthesis, which the implicit parameter has to itself. -/
theorem func {more : Bool} {ts next : List Token} (hps : ParamList ns more ts m₁ next)
    (hbody : Placed (.block body) m₂) :
    Placed (.func (.mk t.pos ns more body))
      (.plain t :: (m₁ ++ .plain y₁ :: (m₂ ++ [.plain z]))) := by
  intro env isMethod
  exact hps.sited.stands (.none [.plain y₁]) ((hbody _).before [.plain z]) env t isMethod .param

theorem paren {p : Pos} {r : Expr} (he : Placed (.expr 0 e) m₁)
    (hr : Placed (.suffixes (.paren p e) r) m₂) :
    Placed (.suffixed r) (.plain t :: (m₁ ++ .plain z :: m₂)) :=
  fun env => (Stands.goOn (he env) ((hr env).plain z)).plain t

/-- The key of a field comes before its value. -/
theorem fieldKeyed {p : Pos} (ha : Placed (.expr 0 a) m₁) (he : Placed (.expr 0 e) m₂) :
    Placed (.field (.mk p (some a) e)) (.plain t :: (m₁ ++ .plain z :: .plain q :: m₂)) :=
  fun env => ((ha env).andPlain z ((he env).plain q)).plain t

end

end Placed

/-- Every part of a program that is read declares at its own tokens. -/
theorem Reads.placed {item : Item} {ts next : List Token} {ms : List Mark}
    (h : Reads item ts ms next) : Placed item ms := by
  induction h with
  | block _ ih => exact ih
  | stmtsEnd _ => exact fun _ => .none _
  | returnNone _ _ _ => exact fun _ => .none _
  | returnSome _ _ _ _ _ ih => exact fun env => ((ih env).append (.none _)).plain _
  | stmtsSkip _ _ ih => exact fun env => (ih env).plain _
  | stmtsCons _ _ _ ih₁ ih₂ => exact fun env => (ih₁ env).append (ih₂ _)
  | «if» _ _ _ _ _ ih₁ ih₂ ih₃ => exact Placed.ifStat ih₁ ih₂ ih₃
  | «while» _ _ _ _ _ ih₁ ih₂ => exact fun env => ((ih₁ env).andPlain _ ((ih₂ env).before _)).plain _
  | «do» _ _ _ ih => exact fun env => ((ih env).before _).plain _
  | «repeat» _ _ _ _ ih₁ ih₂ => exact Placed.repeatStat ih₁ ih₂
  | numericFor _ hv _ _ _ _ _ _ _ _ ih₁ ih₂ ih₃ ih₄ => exact Placed.numericFor hv ih₁ ih₂ ih₃ ih₄
  | genericFor _ hns _ _ _ _ _ ih₁ ih₂ => exact Placed.genericFor hns ih₁ ih₂
  | functionStat _ _ hp _ ih => exact Placed.functionStat hp ih
  | localFunction _ _ hv _ ih => exact Placed.localFunction hv ih
  | «local» _ hxs _ ih => exact Placed.localStat hxs ih
  | «break» _ => exact fun _ => .none _
  | goto _ _ => exact fun _ => .none _
  | label _ _ _ => exact fun _ => .none _
  | assign _ _ _ _ _ ih₁ ih₂ ih₃ => exact Placed.assign ih₁ ih₂ ih₃
  | callStat _ _ _ _ ih => exact ih
  | clause _ _ _ ih₁ ih₂ => exact fun env => (ih₁ env).andPlain _ (ih₂ env)
  | elsesEnd _ => exact fun _ => .none _
  | elsesCons _ _ _ ih₁ ih₂ => exact fun env => ((ih₁ env).append (ih₂ env)).plain _
  | orelseNone _ => exact fun _ => .none _
  | orelseSome _ _ ih => exact fun env => (ih env).plain _
  | stepNone _ => exact fun _ => .none _
  | stepSome _ _ ih => exact fun env => (ih env).plain _
  | initialNone _ => exact fun _ => .none _
  | initialSome _ _ ih => exact fun env => (ih env).plain _
  | targetsEnd _ => exact fun _ => .none _
  | targetsCons _ _ _ ih₁ ih₂ => exact fun env => ((ih₁ env).append (ih₂ env)).plain _
  | func _ hps _ _ _ ih => exact Placed.func hps ih
  | exprsOne _ _ ih => exact fun env => (ih env).one
  | exprsCons _ _ _ ih₁ ih₂ => exact fun env => (ih₁ env).andPlain _ (ih₂ env)
  | unary _ _ _ ih₁ ih₂ => exact fun env => (Stands.goOn (ih₁ env) (ih₂ env)).plain _
  | operand _ _ _ ih₁ ih₂ => exact fun env => (ih₁ env).goOn (ih₂ env)
  | operatorsEnd _ => exact fun _ => .refl _
  | operator _ _ _ _ ih₁ ih₂ => exact fun env => (GoesOn.after (ih₁ env) (ih₂ env)).plain _
  | number _ => exact fun _ => .none _
  | string _ => exact fun _ => .none _
  | nil _ => exact fun _ => .none _
  | true _ => exact fun _ => .none _
  | false _ => exact fun _ => .none _
  | vararg _ => exact fun _ => .none _
  | tableExpr _ ih => exact ih
  | functionExpr _ _ ih => exact fun env => (ih env Bool.false).plain _
  | suffixedExpr _ ih => exact ih
  | name _ _ ih => exact fun env => Stands.goOn (.uses _ [_]) (ih env)
  | paren _ _ _ _ ih₁ ih₂ => exact Placed.paren ih₁ ih₂
  | suffixesEnd _ => exact fun _ => .refl _
  | dot _ _ _ ih => exact fun env => (GoesOn.ofNone (ih env)).plain _ |>.plain _
  | bracket _ _ _ _ ih₁ ih₂ => exact fun env => (GoesOn.after (ih₁ env) ((ih₂ env).plain _)).plain _
  | method _ _ _ _ ih₁ ih₂ => exact fun env => ((GoesOn.after (ih₁ env) (ih₂ env)).plain _).plain _
  | call _ _ ih₁ ih₂ => exact fun env => GoesOn.after (ih₁ env) (ih₂ env)
  | argString _ => exact fun _ => .none _
  | argTable _ ih => exact fun env => (ih env).one
  | argsNone _ _ => exact fun _ => .none _
  | argsSome _ _ _ _ ih => exact fun env => ((ih env).before _).plain _
  | table _ _ _ ih => exact fun env => ((ih env).before _).plain _
  | fieldsEnd _ => exact fun _ => .none _
  | fieldsLast _ _ _ _ ih => exact fun env => (ih env).one
  | fieldsCons _ _ _ _ ih₁ ih₂ => exact fun env => (ih₁ env).andPlain _ (ih₂ env)
  | fieldKeyed _ _ _ _ _ ih₁ ih₂ => exact Placed.fieldKeyed ih₁ ih₂
  | fieldNamed _ _ _ ih => exact fun env => ((Stands.append (.none []) (ih env)).plain _).plain _
  | fieldPlain _ _ _ ih => exact fun env => Stands.append (.none []) (ih env)

/-! ## 3. Whole documents -/

/-- In a list without repetitions among the values of `f`, a value has one index. -/
theorem index_unique {α β : Type} {f : α → Option β} : ∀ {l : List α}, (l.filterMap f).Nodup →
    ∀ {i j : Nat} {a b : α} {y : β}, l[i]? = some a → l[j]? = some b → f a = some y →
      f b = some y → i = j
  | [], _, _, _, _, _, _, hi, _, _, _ => by simp at hi
  | c :: l, hl, i, j, a, b, y, hi, hj, ha, hb => by
    have hmem : ∀ {k : Nat} {d : α}, l[k]? = some d → f d = some y → y ∈ l.filterMap f :=
      fun hk hd => List.mem_filterMap.mpr ⟨_, List.mem_of_getElem? hk, hd⟩
    have htail : (l.filterMap f).Nodup := by
      rw [List.filterMap_cons] at hl
      split at hl
      · exact hl
      · exact (List.nodup_cons.mp hl).2
    have hhead : ∀ {k : Nat} {d : α}, f c = some y → l[k]? = some d → f d ≠ some y := by
      intro k d hc hk hd
      rw [List.filterMap_cons, hc] at hl
      exact (List.nodup_cons.mp hl).1 (hmem hk hd)
    cases i with
    | zero =>
      cases j with
      | zero => rfl
      | succ j =>
        cases hi
        exact absurd hb (hhead ha hj)
    | succ i =>
      cases j with
      | zero =>
        cases hj
        exact absurd ha (hhead hb hi)
      | succ j => exact congrArg Nat.succ (index_unique htail hi hj ha hb)

/-- A binding is the one that a target has, in a table whose rows stand for `order`. -/
def Target.Fits (order : List Target) (pass : Scoping) (b : Binding) : Target → Prop
  | .global x =>
    b.name = x ∧ b.kind = .global ∧ b.scope = globalScope ∧ b.attrib = none ∧ b.shadows = none
  | .local d =>
    b.name = d.name ∧ b.kind = d.kind ∧ b.declaration = d.site ∧ b.attrib = d.attrib ∧
      1 ≤ b.scope ∧
      ∃ hidden, (d, hidden) ∈ pass.decls ∧
        b.shadows.map (order[·]?) = hidden.map fun h => some (.local h)

/-- A table that the pass follows has one row for each target. -/
theorem Sim.nodup {rows : List Row} {lists : List Pos} {env : Env} {σ : Scopes}
    (h : Sim rows lists env σ) (hdecls : ((rows.filterMap Row.declared?).map (·.1)).Nodup) :
    (rows.map Row.target).Nodup := by
  rw [List.nodup_iff_getElem?_ne_getElem?]
  intro i j hij hj heq
  obtain ⟨t, ht⟩ : ∃ t, (rows.map Row.target)[j]? = some t :=
    ⟨_, List.getElem?_eq_getElem hj⟩
  rw [ht] at heq
  have hdecl : ∀ {k : Nat} {d : Decl}, Denotes rows k (.local d) →
      ∃ r, rows[k]? = some r ∧ r.declared?.map (·.1) = some d := by
    intro k d hk
    rw [Denotes, List.getElem?_map] at hk
    obtain ⟨r, hr, htarget⟩ := Option.map_eq_some_iff.mp hk
    cases r with
    | global x p => cases htarget
    | «local» d' hid =>
      cases htarget
      exact ⟨_, hr, rfl⟩
  cases t with
  | global x =>
    have hi := h.globals.mpr heq
    have hj := h.globals.mpr ht
    rw [hi] at hj
    cases hj
    exact absurd hij (Nat.lt_irrefl _)
  | «local» d =>
    obtain ⟨r, hr, hd⟩ := hdecl heq
    obtain ⟨r', hr', hd'⟩ := hdecl ht
    rw [List.map_filterMap] at hdecls
    exact absurd (index_unique hdecls hr hr' hd hd') (Nat.ne_of_lt hij)

/-- A binding of a followed table fits the target of its row. -/
theorem Sim.fits {rows : List Row} {lists : List Pos} {env : Env} {σ : Scopes} {pass : Scoping}
    (h : Sim rows lists env σ) (hdecls : rows.filterMap Row.declared? = pass.decls)
    {id : BindingId} {b : Binding} (hb : σ.bindings[id]? = some b) :
    ∃ t, (rows.map Row.target)[id]? = some t ∧ t.Fits (rows.map Row.target) pass b ∧
      ∀ d, t = .local d → lists[b.scope - 1]? = some d.list := by
  have htable : σ.table[id]? = some b.core := by
    simp [Scopes.table, hb]
  obtain ⟨hlt, -⟩ := List.getElem?_eq_some_iff.mp htable
  rw [h.size] at hlt
  obtain ⟨b', hb', hdesc⟩ := h.row (List.getElem?_eq_getElem hlt)
  rw [htable] at hb'
  cases hb'
  refine ⟨(rows.get ⟨id, hlt⟩).target, by simp [hlt], ?_⟩
  change Describes rows lists (rows.get ⟨id, hlt⟩) b.core at hdesc
  have hmem : rows.get ⟨id, hlt⟩ ∈ rows := List.get_mem rows ⟨id, hlt⟩
  cases hrow : rows.get ⟨id, hlt⟩ with
  | global x p =>
    rw [hrow] at hdesc
    have hcore : b.core = _ := hdesc
    refine ⟨⟨congrArg Binding.name hcore, congrArg Binding.kind hcore, congrArg Binding.scope hcore,
      congrArg Binding.attrib hcore, congrArg Binding.shadows hcore⟩, ?_⟩
    intro d hd
    cases hd
  | «local» d hid =>
    rw [hrow] at hdesc hmem
    obtain ⟨hname, hkind, hsite, hattrib, hscope, hlist, hhides⟩ := hdesc
    have hin : (d, hid) ∈ pass.decls := hdecls ▸ List.mem_filterMap.mpr ⟨_, hmem, rfl⟩
    refine ⟨⟨hname, hkind, hsite, hattrib, hscope, hid, hin, ?_⟩, ?_⟩
    · change Hides rows b.shadows hid at hhides
      cases hs : b.shadows with
      | none =>
        cases hid with
        | none => rfl
        | some e => simp [hs, Hides] at hhides
      | some s =>
        cases hid with
        | none => simp [hs, Hides] at hhides
        | some e =>
          rw [hs] at hhides
          exact congrArg some hhides
    · intro d' hd'
      cases hd'
      exact hlist

/-- The locals among the targets of a table are its declarations. -/
theorem Row.local_mem_iff (rows : List Row) (d : Decl) :
    .local d ∈ rows.map Row.target ↔ d ∈ (rows.filterMap Row.declared?).map (·.1) := by
  simp only [List.mem_map, List.mem_filterMap]
  constructor
  · rintro ⟨r, hr, htarget⟩
    cases r with
    | global x p => cases htarget
    | «local» d' hid =>
      cases htarget
      exact ⟨(d, hid), ⟨_, hr, rfl⟩, rfl⟩
  · rintro ⟨⟨d', hid⟩, ⟨r, hr, hdecl⟩, rfl⟩
    cases r with
    | global x p => cases hdecl
    | «local» d'' hid' =>
      cases hdecl
      exact ⟨_, hr, rfl⟩

/-- A text that is read was lexed, derived and resolved. -/
theorem parse_sound {source uri : Text} {c : Chunk} (h : parse source uri = .ok c) :
    ∃ tokens ms next σ, Lexes .start source tokens ∧ Reads (.block c.body) tokens ms next ∧
      next ≠ [] ∧ kindOf next = .eof ∧ bindBlock c.body {} = some σ ∧ c.bindings = σ.bindings := by
  rw [parse] at h
  split at h
  case h_1 tokens htokens =>
    obtain ⟨t, ts, ms, next, σ, -, hreads, hnext, heof, hbind, hc⟩ :=
      parseTokens_sound (tokenize_ended htokens) h
    exact ⟨tokens, ms, next, σ, tokensFrom_iff.mp htokens, hreads, hnext, heof, hbind,
      congrArg Chunk.bindings hc⟩
  case h_2 => cases h

/-- The table of a text that is read follows the pass.  No declaration takes effect twice, and no two
lists of declarations stand at one place. -/
theorem parse_follows {source uri : Text} {c : Chunk} (h : parse source uri = .ok c) :
    let pass := scopeBlock [] c.body
    ∃ rows σ, c.bindings = σ.bindings ∧ Sim rows pass.lists [] σ ∧
      (∀ u ∈ pass.uses, Denotes rows u.1.binding u.2) ∧ rows.filterMap Row.declared? = pass.decls ∧
      (pass.decls.map (·.1)).Nodup ∧ pass.lists.Nodup := by
  intro pass
  obtain ⟨tokens, ms, next, σ, hlex, hreads, -, -, hbind, hbindings⟩ := parse_sound h
  obtain ⟨rows, hsim, huses, hdecls⟩ := bindBlock_follows c.body Sim.initial hbind
  simp only [List.nil_append] at hsim huses hdecls
  -- one token for each declaration and for each list
  have htokens : ∀ q, tokensAt ms q ≤ 1 := by
    intro q
    have hnodup := hlex.nodup_pos
    rw [hreads.tokens, List.map_append] at hnodup
    exact List.nodup_iff_count_le_one.mp hnodup.of_append_left q
  have hstands := hreads.placed []
  have hlists : pass.lists.Nodup :=
    List.nodup_iff_count_le_one.mpr fun q => Nat.le_trans (hstands q).2 (htokens q)
  have hkeys : ((pass.decls.map (·.1)).map Decl.key).Nodup := by
    rw [List.map_map]
    exact List.nodup_iff_count_le_one.mpr fun q => Nat.le_trans (hstands q).1 (htokens q)
  exact ⟨rows, σ, hbindings, hsim, huses, hdecls, hkeys.of_map, hlists⟩

/-- **Names are resolved by lexical scoping.**  Let `pass` be what lexical scoping says of the tree of a
text.  It tells of all names of the tree, and the table of bindings lists, without repetition, targets
of which it tells: every name has the binding of what it means, so two names share a binding exactly
when they mean the same.  Every binding is that of its target, a local one hides what was visible
before its list, and two locals have one scope number exactly when one list declares both. -/
theorem parse_lexically_scoped {source uri : Text} {c : Chunk} (h : parse source uri = .ok c) :
    let pass := scopeBlock [] c.body
    pass.uses.map (·.1) = c.names ∧
    ∃ order : List Target, order.Nodup ∧ order.length = c.bindings.size ∧
      (∀ d, .local d ∈ order ↔ d ∈ pass.decls.map (·.1)) ∧
      (∀ u ∈ pass.uses, order[u.1.binding]? = some u.2) ∧
      (∀ u ∈ pass.uses, ∀ v ∈ pass.uses, u.1.binding = v.1.binding ↔ u.2 = v.2) ∧
      (∀ (id : BindingId) (b : Binding), c.bindings[id]? = some b →
        ∃ t, order[id]? = some t ∧ t.Fits order pass b) ∧
      ∀ (i j : BindingId) (b b' : Binding) (d d' : Decl), c.bindings[i]? = some b →
        c.bindings[j]? = some b' → order[i]? = some (.local d) → order[j]? = some (.local d') →
        (b.scope = b'.scope ↔ d.list = d'.list) := by
  intro pass
  obtain ⟨rows, σ, hbindings, hsim, huses, hdecls, hkeys, hlists⟩ := parse_follows h
  have hnodup := hsim.nodup (hdecls ▸ hkeys)
  have hunique : ∀ {i j : BindingId} {t : Target}, Denotes rows i t → Denotes rows j t → i = j := by
    intro i j t hi hj
    obtain ⟨hlt, -⟩ := List.getElem?_eq_some_iff.mp hi
    exact (List.getElem?_inj hlt hnodup).mp (hi.trans hj.symm)
  refine ⟨c.scoping_names, rows.map Row.target, hnodup, ?_, ?_, huses, ?_, ?_, ?_⟩
  · simpa [Scopes.table, hbindings] using hsim.size.symm
  · intro d
    rw [← hdecls]
    exact Row.local_mem_iff rows d
  · intro u hu v hv
    have hu' := huses u hu
    have hv' := huses v hv
    constructor
    · intro heq
      rw [heq] at hu'
      exact Option.some.inj (hu'.symm.trans hv')
    · intro heq
      rw [heq] at hu'
      exact hunique hu' hv'
  · intro id b hb
    rw [hbindings] at hb
    obtain ⟨t, ht, hfits, -⟩ := hsim.fits hdecls hb
    exact ⟨t, ht, hfits⟩
  · intro i j b b' d d' hb hb' hd hd'
    rw [hbindings] at hb hb'
    obtain ⟨t, ht, hfits, hlist⟩ := hsim.fits hdecls hb
    obtain ⟨t', ht', hfits', hlist'⟩ := hsim.fits hdecls hb'
    obtain rfl := Option.some.inj (ht.symm.trans hd)
    obtain rfl := Option.some.inj (ht'.symm.trans hd')
    have hlist := hlist d rfl
    have hlist' := hlist' d' rfl
    obtain ⟨-, -, -, -, hpos, -⟩ := hfits
    obtain ⟨-, -, -, -, hpos', -⟩ := hfits'
    constructor
    · intro heq
      rw [heq] at hlist
      exact Option.some.inj (hlist.symm.trans hlist')
    · intro heq
      rw [heq] at hlist
      obtain ⟨hlt, -⟩ := List.getElem?_eq_some_iff.mp hlist
      have hindex := (List.getElem?_inj hlt hlists).mp (hlist.trans hlist'.symm)
      omega

/-- In `local x = x local x = x` the first value is the global, and the second the first local. -/
theorem parse_lexically_scoped_redeclared :
    ∃ c, parse (text "local x = x local x = x") [] = .ok c ∧ c.names.map (·.binding) = [1, 0, 2, 1] ∧
      ∀ u ∈ (scopeBlock [] c.body).uses, ∀ v ∈ (scopeBlock [] c.body).uses,
        u.1.binding = v.1.binding ↔ u.2 = v.2 := by
  have hrun : (parse (text "local x = x local x = x") []).toOption.map
      (fun c => c.names.map (·.binding)) = some [1, 0, 2, 1] := by decide +kernel
  cases h : parse (text "local x = x local x = x") [] with
  | error e =>
    rw [h] at hrun
    cases hrun
  | ok c =>
    obtain ⟨-, order, -, -, -, -, hshare, -⟩ := parse_lexically_scoped h
    rw [h] at hrun
    exact ⟨c, rfl, Option.some.inj hrun, hshare⟩

end LuaServer.Lua
