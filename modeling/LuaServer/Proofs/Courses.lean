/-
# Steps that go through

Where the grammar has decided, a step of the reader goes on from one place to another, and nothing can stop
it but a constant that is stored to.  What else holds on the way depends on what one wants to know: that
constants are declared as such, or which declarations are visible.  A `Course` fixes that: what holds of the
tokens and the variables at every place, how the variables may change, and which stores may be refused.

`C.Goes σ p Q ts next` says what the step `p` does on the course `C`: before the tokens `ts`, with the
variables `σ`, it ends before `next`, and `Q` holds of its result and of the variables then; or a store is
refused that may be.
-/
import LuaServer.Proofs.ReaderSteps

namespace LuaServer.Lua

/-! ## 1. Courses -/

/-- What holds while the reader goes on. -/
structure Course where
  /-- What holds of the tokens in front and of the variables. -/
  Fits : List Token → Scopes → Prop
  /-- How the variables may change. -/
  Later : Scopes → Scopes → Prop
  /-- The constants to which a store is refused, by its place and its name. -/
  Refused : Pos → Text → Prop
  ended : ∀ {ts : List Token} {σ : Scopes}, Fits ts σ → Ended ts
  /-- A token that is not the end may be taken. -/
  tail : ∀ {t : Token} {ts : List Token} {σ : Scopes}, Fits (t :: ts) σ → t.kind ≠ .eof → Fits ts σ
  refl : ∀ σ : Scopes, Later σ σ
  trans : ∀ {σ τ ρ : Scopes}, Later σ τ → Later τ ρ → Later σ ρ

/-- The step `p` goes from `ts` to `next`, with a result of which `Q` holds, unless a store is refused. -/
def Course.Goes (C : Course) (σ : Scopes) {α : Type} (p : Parse α) (Q : α → Scopes → Prop)
    (ts next : List Token) : Prop :=
  C.Fits ts σ →
    (∃ a τ, p (stateAt ts σ) = .ok (a, stateAt next τ) ∧ C.Fits next τ ∧ C.Later σ τ ∧ Q a τ) ∨
      ∃ pos x, p (stateAt ts σ) = .error ⟨pos, .constAssigned x⟩ ∧ C.Refused pos x

/-- Tokens that are not the end may be taken. -/
theorem Course.drop (C : Course) {u ts : List Token} {σ : Scopes} (h : C.Fits (u ++ ts) σ)
    (hu : ∀ t ∈ u, t.kind ≠ .eof) : C.Fits ts σ := by
  induction u with
  | nil => exact h
  | cons t u ih =>
    obtain ⟨ht, hu⟩ := List.forall_mem_cons.mp hu
    exact ih (C.tail h ht) hu

/-- Nothing is said of a result. -/
def Unsaid {α : Type} (_ : α) (_ : Scopes) : Prop := True

/-! ## 2. Steps that leave the variables alone -/

namespace Course.Goes

variable {C : Course} {σ τ : Scopes} {α β : Type} {t : Token} {ts mid rest : List Token}
  {k l : Kind} {p : Parse α} {Q : α → Scopes → Prop} {R : β → Scopes → Prop}

/-- A step whose run is known and does not fail. -/
theorem of_run {a : α} (hrun : C.Fits ts σ → p (stateAt ts σ) = .ok (a, stateAt rest τ))
    (hfits : C.Fits ts σ → C.Fits rest τ ∧ C.Later σ τ ∧ Q a τ) :
    C.Goes σ p Q ts rest :=
  fun h => .inl ⟨a, τ, hrun h, hfits h⟩

/-- A course may be shown where the tokens and the variables fit it. -/
theorem of_fits (h : C.Fits ts σ → C.Goes σ p Q ts rest) : C.Goes σ p Q ts rest :=
  fun hp => h hp hp

theorem pure {a : α} (ha : Q a σ) : C.Goes σ (pure a) Q ts ts :=
  of_run (fun _ => Parse.pure_eq a _) fun h => ⟨h, C.refl σ, ha⟩

/-- One step after another, with what is known of the variables between them. -/
theorem bind {f : α → Parse β} (hp : C.Goes σ p Q ts mid)
    (hf : ∀ a τ, C.Later σ τ → Q a τ → C.Goes τ (f a) R mid rest) :
    C.Goes σ (p >>= f) R ts rest := by
  intro hfits
  obtain ⟨a, τ, hrun, hmid, hext, ha⟩ | ⟨pos, x, hrun, hx⟩ := hp hfits
  · obtain ⟨b, ρ, hrun', hnext, hext', hb⟩ | ⟨pos, x, hrun', hx⟩ := hf a τ hext ha hmid
    · exact .inl ⟨b, ρ, (Parse.bind_eq hrun).trans hrun', hnext, C.trans hext hext', hb⟩
    · exact .inr ⟨pos, x, (Parse.bind_eq hrun).trans hrun', hx⟩
  · exact .inr ⟨pos, x, Parse.bind_error hrun, hx⟩

/-- Less may be said of the result. -/
theorem mono {Q' : α → Scopes → Prop} (hp : C.Goes σ p Q ts rest)
    (h : ∀ a τ, C.Later σ τ → Q a τ → Q' a τ) : C.Goes σ p Q' ts rest := by
  intro hfits
  obtain ⟨a, τ, hrun, hnext, hext, ha⟩ | herror := hp hfits
  · exact .inl ⟨a, τ, hrun, hnext, hext, h a τ hext ha⟩
  · exact .inr herror

/-- Nothing may be said of the result. -/
theorem unsaid (hp : C.Goes σ p Q ts rest) : C.Goes σ p Unsaid ts rest :=
  hp.mono fun _ _ _ _ => trivial

/-- The run is that of another step. -/
theorem congr {q : Parse α} (h : p (stateAt ts σ) = q (stateAt ts σ)) (hq : C.Goes σ q Q ts rest) :
    C.Goes σ p Q ts rest := by
  intro hfits
  rw [h]
  exact hq hfits

/-- The last step of a sequence only puts its results together. -/
theorem done {f : α → β} (hp : C.Goes σ p Q ts rest) :
    C.Goes σ (p >>= fun a => Pure.pure (f a)) Unsaid ts rest :=
  hp.bind fun _ _ _ _ => pure trivial

/-! Looking at tokens. -/

/-- The token in front. -/
theorem peek_cons {f : Token → Parse β} (hf : C.Goes σ (f t) R (t :: ts) rest) :
    C.Goes σ (Parse.peek >>= f) R (t :: ts) rest := congr (Parse.peek_bind f _) hf

/-- Only the kind of the current token is seen. -/
theorem peek {f : Token → Parse β}
    (hf : ∀ u : Token, u.kind = kindOf ts → C.Goes σ (f u) R ts rest) :
    C.Goes σ (Parse.peek >>= f) R ts rest :=
  congr (Parse.peek_bind f _) (hf _ (stateAt_tok_kind ts σ))

/-- The token after the one in front, unless that is the end. -/
theorem peekNext {f : Token → Parse β}
    (hf : ∀ u : Token, (kindOf ts ≠ .eof → u.kind = kindOf ts.tail) → C.Goes σ (f u) R ts rest) :
    C.Goes σ (Parse.peekNext >>= f) R ts rest := by
  refine of_fits fun hfits => congr (Parse.peekNext_bind f _) (hf _ fun hts => ?_)
  obtain ⟨u, us, rfl⟩ := List.exists_cons_of_ne_nil (C.ended hfits).ne_nil
  obtain ⟨w, ws, rfl⟩ := List.exists_cons_of_ne_nil (C.ended (C.tail hfits hts)).ne_nil
  rfl

/-- The sign is there. -/
theorem check_yes {f : Bool → Parse β} (h : kindOf ts = k) (hf : C.Goes σ (f true) R ts rest) :
    C.Goes σ (Parse.check k >>= f) R ts rest := by
  refine congr (Parse.check_bind k f ts σ) ?_
  rwa [decide_eq_true h]

/-- The sign is not there. -/
theorem check_no {f : Bool → Parse β} (h : kindOf ts ≠ k) (hf : C.Goes σ (f false) R ts rest) :
    C.Goes σ (Parse.check k >>= f) R ts rest := by
  refine congr (Parse.check_bind k f ts σ) ?_
  rwa [decide_eq_false h]

theorem blockFollow {f : Bool → Parse β}
    (hf : C.Goes σ (f (Parse.endsBlock (kindOf ts))) R ts rest) :
    C.Goes σ (Parse.blockFollow >>= f) R ts rest := congr (Parse.blockFollow_bind f ts σ) hf

/-! Taking tokens. -/

/-- A step that takes the tokens `u`. -/
theorem pass {u : List Token} {a : α} (htokens : ts = u ++ rest) (hu : ∀ t ∈ u, t.kind ≠ .eof)
    (hrun : rest ≠ [] → p (stateAt ts σ) = .ok (a, stateAt rest σ)) (ha : Q a σ) :
    C.Goes σ p Q ts rest := by
  subst htokens
  exact of_run (fun h => hrun (C.ended (C.drop h hu)).ne_nil) fun h => ⟨C.drop h hu, C.refl σ, ha⟩

/-- A step that takes one token. -/
theorem take {a : α} (ht : t.kind ≠ .eof)
    (hrun : ts ≠ [] → p (stateAt (t :: ts) σ) = .ok (a, stateAt ts σ)) (ha : Q a σ) :
    C.Goes σ p Q (t :: ts) ts :=
  pass (u := [t]) rfl (by simpa using ht) hrun ha

/-- A token that is not the last one is taken. -/
theorem next (ht : t.kind ≠ .eof) : C.Goes σ Parse.next Unsaid (t :: ts) ts :=
  take ht (fun hts => Parse.next_stateAt ht hts) trivial

theorem accept_yes {f : Bool → Parse β} (ht : t.kind = k) (hk : k ≠ .eof)
    (hf : C.Goes σ (f true) R ts rest) : C.Goes σ (Parse.accept k >>= f) R (t :: ts) rest := by
  have haccept : C.Goes σ (Parse.accept k) (fun b τ => b = true ∧ τ = σ) (t :: ts) ts :=
    take (ht ▸ hk) (fun hts => Parse.accept_yes ht hk hts) ⟨rfl, rfl⟩
  refine haccept.bind ?_
  rintro _ _ _ ⟨rfl, rfl⟩
  exact hf

theorem accept_no {f : Bool → Parse β} (ht : kindOf ts ≠ k) (hf : C.Goes σ (f false) R ts rest) :
    C.Goes σ (Parse.accept k >>= f) R ts rest := congr (Parse.bind_eq (Parse.accept_no ht)) hf

theorem acceptEither_yes {f : Bool → Parse β} (ht : t.kind = k ∨ t.kind = l) (hk : k ≠ .eof)
    (hl : l ≠ .eof) (hf : C.Goes σ (f true) R ts rest) :
    C.Goes σ (Parse.acceptEither k l >>= f) R (t :: ts) rest := by
  have hne : t.kind ≠ .eof := by
    rcases ht with ht | ht
    · exact ht ▸ hk
    · exact ht ▸ hl
  have haccept : C.Goes σ (Parse.acceptEither k l) (fun b τ => b = true ∧ τ = σ) (t :: ts) ts :=
    take hne (fun hts => Parse.acceptEither_yes ht hk hl hts) ⟨rfl, rfl⟩
  refine haccept.bind ?_
  rintro _ _ _ ⟨rfl, rfl⟩
  exact hf

theorem acceptEither_no {f : Bool → Parse β} (hk : kindOf ts ≠ k) (hl : kindOf ts ≠ l)
    (hf : C.Goes σ (f false) R ts rest) : C.Goes σ (Parse.acceptEither k l >>= f) R ts rest :=
  congr (Parse.bind_eq (Parse.acceptEither_no hk hl)) hf

theorem expect (ht : t.kind = k) (hk : k ≠ .eof) : C.Goes σ (Parse.expect k) Unsaid (t :: ts) ts :=
  take (ht ▸ hk) (fun hts => Parse.expect_yes ht hk hts) trivial

theorem expectClosing {o : Token} (ht : t.kind = k) (hk : k ≠ .eof) :
    C.Goes σ (Parse.expectClosing k o) Unsaid (t :: ts) ts :=
  take (ht ▸ hk) (fun hts => Parse.expectClosing_yes ht hk hts) trivial

theorem expectName {x : Text} (ht : t.kind = .name x) :
    C.Goes σ Parse.expectName (fun y _ => y = ⟨x, t.pos⟩) (t :: ts) ts :=
  take (by simp [ht]) (fun hts => Parse.expectName_yes ht hts) rfl

/-- After the sign its follower is read. -/
theorem after?_yes (ht : t.kind = k) (hk : k ≠ .eof) (hp : C.Goes σ p Q ts rest) :
    C.Goes σ (Parse.after? k p) (fun a τ => ∃ b, a = some b ∧ Q b τ) (t :: ts) rest := by
  rw [Parse.after?]
  refine accept_yes ht hk ?_
  rw [if_pos rfl, map_eq_pure_bind]
  exact hp.bind fun b _ _ hb => pure ⟨b, rfl, hb⟩

/-- Without the sign nothing is read. -/
theorem after?_no (ht : kindOf ts ≠ k) :
    C.Goes σ (Parse.after? k p) (fun a _ => a = none) ts ts :=
  congr (Parse.after?_no ht) (pure rfl)

theorem before_yes {a : α} (ht : kindOf ts = k) (ha : Q a σ) :
    C.Goes σ (Parse.before k a p) Q ts ts := congr (Parse.before_yes ht) (pure ha)

theorem before_no {a : α} (ht : kindOf ts ≠ k) (hp : C.Goes σ p Q ts rest) :
    C.Goes σ (Parse.before k a p) Q ts rest := congr (Parse.before_no ht) hp

/-! ## 3. Steps on variables -/

/-- A step that changes the variables only. -/
theorem onScopes {f : Scopes → α × Scopes}
    (hf : C.Fits ts σ → C.Fits ts (f σ).2 ∧ C.Later σ (f σ).2 ∧ Q (f σ).1 (f σ).2) :
    C.Goes σ (Parse.onScopes f) Q ts ts :=
  of_run (fun _ => Parse.onScopes_eq f ts σ) hf

/-- A step in a scope of its own, which may follow another course. -/
theorem inScope {D : Course} {R : α → Scopes → Prop} (hrefused : D.Refused = C.Refused)
    (hp : D.Goes σ p Q ts rest) (hfits : C.Fits ts σ → D.Fits ts σ)
    (hhide : ∀ a τ, C.Fits ts σ → D.Fits rest τ → D.Later σ τ → Q a τ →
      C.Fits rest (σ.hide τ) ∧ C.Later σ (σ.hide τ) ∧ R a (σ.hide τ)) :
    C.Goes σ (Parse.inScope p) R ts rest := by
  intro h
  obtain ⟨a, τ, hrun, hrest, hlater, ha⟩ | ⟨pos, x, hrun, hx⟩ := hp (hfits h)
  · exact .inl ⟨a, σ.hide τ, Parse.inScope_eq hrun, hhide a τ h hrest hlater ha⟩
  · refine .inr ⟨pos, x, ?_, hrefused ▸ hx⟩
    have hget : (get : Parse ParseState) (stateAt ts σ) = .ok (stateAt ts σ, stateAt ts σ) := rfl
    rw [Parse.inScope, Parse.bind_eq hget, Parse.bind_error hrun]

/-- A store, which goes through or is refused. -/
theorem markWritten {n : Name} {R' : Unit → Scopes → Prop}
    (h : C.Fits ts σ → (∃ τ, σ.write? n = some τ ∧ C.Fits ts τ ∧ C.Later σ τ ∧ R' () τ) ∨
      (σ.write? n = none ∧ C.Refused n.pos n.name)) :
    C.Goes σ (Parse.markWritten n) R' ts ts := by
  intro hfits
  obtain ⟨τ, hwrite, hτ⟩ | ⟨hwrite, hx⟩ := h hfits
  · exact .inl ⟨(), τ, Parse.markWritten_eq hwrite, hτ⟩
  · refine .inr ⟨n.pos, n.name, ?_, hx⟩
    have hget : (get : Parse ParseState) (stateAt ts σ) = .ok (stateAt ts σ, stateAt ts σ) := rfl
    rw [Parse.markWritten, Parse.bind_eq hget, stateAt_scopes, hwrite]
    rfl

end Course.Goes

end LuaServer.Lua
