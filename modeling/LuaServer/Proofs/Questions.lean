/-
# Questions leave no trace

A client may ask what stands at a place: hover, rename, references, definition, completion and signature
help.  To answer, most of these analyse the document again, write what they find to the session and
publish it.  None of that makes a difference.  A run of messages and the same run without some of its
questions end alike, and the messages that both handle get the same answers; what a question publishes
about a document is what was published about it last.

The two runs differ in what they have written, and a step does not look at that (`handle_local`).  They may
differ in what analyses keep, and no step looks at that either (`handle_uncached`).  So a relation between
two worlds is carried through the runs if it settles the rest (`IsBisimulation`), and there are two of them.

* The outlines are the same.  A question keeps the outline, whatever its analysis comes to.
* The sessions are the same.  A question keeps the session if the document is up to date
  (`handle_question`), which all are unless a change of the settings has come to a stop.

Main result: `handleAll_without_questions`.
-/
import LuaServer.Proofs.Outline
import LuaServer.Proofs.UpToDate

namespace LuaServer

/-! ## 1. One question -/

/-- A body is a question. -/
def IsQuestion (body : Bytes) : Prop :=
  ∃ e ∈ (decode body).toOption, ∃ m ∈ Method.ofText? e.method, m ∈ Method.questions

instance (body : Bytes) : Decidable (IsQuestion body) :=
  inferInstanceAs (Decidable (∃ e ∈ (decode body).toOption, _))

/-- A request for the method of a question is one. -/
theorem isQuestion_requestBody {id : Nat} {params : List (String × Json)} {m : Method}
    (hm : m ∈ Method.questions) (hid : (Json.nat id).Plain) (h : (Json.object params).Plain) :
    IsQuestion (requestBody id m params) := by
  rw [IsQuestion, decode_requestBody m hid h]
  exact ⟨_, rfl, m, m.ofText?_name, hm⟩

/-- Notices among some messages repeat what was told last about their documents. -/
def Repeats (told ms : List Json) : Prop :=
  ∀ m ∈ ms, IsNotice m → ∃ uri, noticeUri? m = some uri ∧ lastNotice? uri told = some m

/-- Nothing has changed from one world to another but what is written, and that tells nothing new. -/
structure Echoes (w w' : LuaWorld) : Prop where
  session : w'.session = w.session
  exits : w'.exits = w.exits
  sent : ∃ ms, w'.sent = w.sent ++ ms ∧ Repeats w.sent ms

namespace Echoes

section
variable {w w' : LuaWorld}

theorem refl (w : LuaWorld) : Echoes w w := by
  refine ⟨rfl, rfl, [], by simp, fun m hm => ?_⟩
  cases hm

/-- A reply tells nothing about a document. -/
theorem replied {m : Json} (h : Echoes w w') (hm : IsReply m) :
    Echoes w { w' with sent := w'.sent ++ [m] } := by
  have hno : ¬IsNotice m := by
    intro hnotice
    cases hm with
    | result id result => exact hnotice.not_response (isResponse_result id result)
    | error id e => exact hnotice.not_response (isResponse_error id e)
  obtain ⟨ms, hsent, hrepeats⟩ := h.sent
  refine ⟨h.session, h.exits, ms ++ [m], by simp [hsent], fun n hn hnotice => ?_⟩
  rcases List.mem_append.mp hn with hn | hn
  · exact hrepeats n hn hnotice
  · obtain rfl := List.mem_singleton.mp hn
    exact absurd hnotice hno

end

end Echoes

section
variable (read : ReadFile) (onExit : ExitPolicy)

/-- An analysis of a document that is up to date changes nothing and tells nothing new. -/
theorem UpToDate.analyze_echoes {w : LuaWorld} (h : UpToDate [] w) (uri : Text) :
    Echoes w (LuaServer.analyze (luaServer read onExit) uri w).2 := by
  cases hdoc : Table.get? uri w.session.documents with
  | none =>
    rw [analyze_absent read onExit hdoc]
    exact .refl w
  | some doc =>
    obtain ⟨huri, htext⟩ := h.texts uri doc hdoc
    have hcurrent := h.current uri doc hdoc List.not_mem_nil
    rcases analyze_cases read onExit hdoc huri htext with ⟨r, log, hreport, hrun⟩ | ⟨c, hcrash, hrun⟩
    · obtain ⟨hdiagnostics, htree, htold⟩ := hcurrent.found r hreport
      have hkeep : r.keep uri w.session.trees = w.session.trees := by
        unfold Report.keep
        split
        · next hnone => exact Table.erase_of_get? (htree.trans hnone)
        · next t hsome => exact Table.insert_of_get? (htree.trans hsome)
      have hsession : r.applied uri w.session = w.session := by
        rw [Report.applied, hkeep, Table.insert_of_get? hdiagnostics]
      rw [hrun]
      refine ⟨hsession, rfl, [r.notice uri doc], rfl, fun m hm _ => ?_⟩
      obtain rfl := List.mem_singleton.mp hm
      exact ⟨uri, rfl, htold⟩
    · have htrees : treesAfterCrash doc.text uri w.session.trees = w.session.trees := by
        unfold treesAfterCrash
        split
        · next e he => exact Table.erase_of_get? (hcurrent.crashed c e hcrash he)
        · rfl
      rw [hrun, htrees]
      exact .refl w

/-- The method of a question changes nothing and tells nothing new.  Before a session has started,
nothing but its start and an exit is let in. -/
theorem call_echoes {w : LuaWorld} (hw : Steady w) {m : Method} (hm : m ∈ Method.questions)
    (hallowed : w.session.initialized = false → m = .start ∨ m = .exit) (e : Envelope) :
    Echoes w (call (luaServer read onExit) m e.params w).2 := by
  rcases hw with ⟨hno, -⟩ | hw
  · rcases hallowed hno with rfl | rfl <;> exact absurd hm (by decide)
  · rcases call_question read onExit hm e w with hsame | ⟨uri, hanalysed⟩
    · rw [hsame]
      exact .refl w
    · rw [hanalysed]
      exact hw.analyze_echoes read onExit uri

/-- A question does not end the session, however its analysis ends. -/
theorem handle_question_ok {body : Bytes} (hclean : CleanBody body) (hbody : IsQuestion body)
    (w : LuaWorld) : (handle (luaServer read onExit) w body).1 = none := by
  obtain ⟨e, he, m, hm, hquestion⟩ := hbody
  by_contra hsome
  obtain ⟨f, hf⟩ := Option.ne_none_iff_exists'.mp hsome
  rcases (handle_error_iff _ w).mp hf with hno | ⟨e', he', hexit, -⟩
  · exact not_unwritable read onExit hclean w f hno
  · obtain rfl := Except.ok.inj ((ok_of_toOption he).symm.trans he')
    obtain rfl := Option.some.inj (hexit.symm.trans hm)
    exact absurd hquestion (by decide)

/-- **A question changes nothing and tells nothing new,** if all documents are up to date. -/
theorem handle_question {body : Bytes} (hbody : IsQuestion body) {w : LuaWorld} (hw : Steady w) :
    Echoes w (handle (luaServer read onExit) w body).2 := by
  obtain ⟨e, he, m, hm, hquestion⟩ := hbody
  have hdecode := ok_of_toOption he
  refine handle_after (fun v log h => ⟨h.session, h.exits, h.sent⟩) (fun v m' hm' h => h.replied hm')
    (.refl w) fun e' m' hdecode' hm' hallowed => ?_
  obtain rfl := Except.ok.inj (hdecode.symm.trans hdecode')
  obtain rfl := Option.some.inj (hm.symm.trans hm')
  exact call_echoes read onExit hw hquestion hallowed e

end

/-- The method of a question keeps the outline. -/
theorem Outline.call_question (read : ReadFile) (onExit : ExitPolicy) {m : Method}
    (hm : m ∈ Method.questions) (e : Envelope) (o : Outline) : o.call read onExit m e = o := by
  simp only [Method.questions, List.mem_cons, List.not_mem_nil, or_false] at hm
  rcases hm with rfl | rfl | rfl | rfl | rfl | rfl <;> rfl

/-- **A question keeps the outline,** in every world. -/
theorem handle_question_outline {σ τ : Type} (srv : Server σ τ) {body : Bytes} (hbody : IsQuestion body)
    (w : World σ τ) : (handle srv w body).2.outline = w.outline := by
  obtain ⟨e, he, m, hm, hquestion⟩ := hbody
  rw [handle_outline, Outline.handle]
  cases hadmitted : admitted? body w.outline.initialized w.outline.shutdownRequested with
  | none => rfl
  | some found =>
    obtain ⟨e', m'⟩ := found
    obtain ⟨hdecode, hm'⟩ := admitted?_eq_some.mp hadmitted
    obtain rfl := Except.ok.inj ((ok_of_toOption he).symm.trans hdecode)
    obtain rfl := Option.some.inj (hm.symm.trans (Envelope.admitted?_eq_some.mp hm').1)
    exact Outline.call_question _ _ hquestion e _

/-! ## 2. Runs -/

section
variable {σ τ : Type} (srv : Server σ τ)

/-- What is written for each of the bodies that are handled. -/
def writes (w : World σ τ) : List Bytes → List (List Json)
  | [] => []
  | body :: bodies =>
    match handle srv w body with
    | (none, w') => w'.sent.drop w.sent.length :: writes w' bodies
    | (some _, w') => [w'.sent.drop w.sent.length]

end

/-- A body of a run, and whether another run does without it. -/
structure Marked where
  body : Bytes
  omitted : Bool

namespace Marked

/-- The bodies of a run. -/
def all (steps : List Marked) : List Bytes := steps.map (·.body)

/-- The bodies that are not omitted. -/
def rest (steps : List Marked) : List Bytes := all (steps.filter (!·.omitted))

/-- Of what stands beside the bodies of a run, that beside those which are not omitted. -/
def beside {α : Type} (steps : List Marked) (as : List α) : List α :=
  ((steps.zip as).filter (!·.1.omitted)).map (·.2)

end Marked

/-! ## 3. Two runs -/

section
variable {σ τ : Type} (srv : Server σ τ) (R : World σ τ → World σ τ → Prop)

/-- A body is handled alike in two worlds: it fails in both or in none, the worlds after it are related,
and the same is written for it. -/
structure HandlesAlike (v w : World σ τ) (body : Bytes) : Prop where
  failure : (handle srv v body).1 = (handle srv w body).1
  world : R (handle srv v body).2 (handle srv w body).2
  sent : (handle srv v body).2.sent.drop v.sent.length = (handle srv w body).2.sent.drop w.sent.length

/-- In related worlds every body is handled alike. -/
def IsBisimulation : Prop := ∀ v w, R v w → ∀ body, HandlesAlike srv R v w body

/-- The bodies that are omitted from a run from some world do not fail, and they keep the world related to
what it was related to. -/
def OmitsUnseen : World σ τ → List Marked → Prop
  | _, [] => True
  | w, s :: steps =>
    (s.omitted = true → (handle srv w s.body).1 = none ∧ ∀ v, R v w → R v (handle srv w s.body).2) ∧
      ((handle srv w s.body).1 = none → OmitsUnseen (handle srv w s.body).2 steps)

/-- A run from one world over the bodies that are not omitted ends as a run from another over all. -/
structure EndsAlike (v w : World σ τ) (steps : List Marked) : Prop where
  failure : (handleAll srv v (Marked.rest steps)).1 = (handleAll srv w (Marked.all steps)).1
  world : R (handleAll srv v (Marked.rest steps)).2 (handleAll srv w (Marked.all steps)).2
  writes : writes srv v (Marked.rest steps) = Marked.beside steps (writes srv w (Marked.all steps))

end

/-- What is written for a body comes after what was written before. -/
theorem handle_sent {σ τ : Type} (srv : Server σ τ) (w : World σ τ) (body : Bytes) :
    (handle srv w body).2.sent = w.sent ++ (handle srv w body).2.sent.drop w.sent.length := by
  rw [handle_local]
  simp [World.after]

section
variable {σ τ : Type} {srv : Server σ τ} {R : World σ τ → World σ τ → Prop} {v w w' : World σ τ}
  {s : Marked} {steps : List Marked}

/-- A body that is omitted, and that does not end the session. -/
theorem EndsAlike.skip (hs : s.omitted = true) (hrun : handle srv w s.body = (none, w'))
    (h : EndsAlike srv R v w' steps) : EndsAlike srv R v w (s :: steps) := by
  have hrest : Marked.rest (s :: steps) = Marked.rest steps := by simp [Marked.rest, hs]
  have hall : handleAll srv w (Marked.all (s :: steps)) = handleAll srv w' (Marked.all steps) := by
    rw [Marked.all, List.map_cons, handleAll, hrun]
    rfl
  refine ⟨?_, ?_, ?_⟩
  · rw [hrest, hall, h.failure]
  · rw [hrest, hall]
    exact h.world
  · rw [hrest, h.writes, Marked.all, Marked.all, List.map_cons, LuaServer.writes, hrun]
    simp [Marked.beside, hs]

/-- A body that both runs handle. -/
theorem EndsAlike.keep (hs : s.omitted = false) (halike : HandlesAlike srv R v w s.body)
    (h : (handle srv w s.body).1 = none →
      EndsAlike srv R (handle srv v s.body).2 (handle srv w s.body).2 steps) :
    EndsAlike srv R v w (s :: steps) := by
  have hrest : Marked.rest (s :: steps) = s.body :: Marked.rest steps := by
    simp [Marked.rest, Marked.all, hs]
  have hall : Marked.all (s :: steps) = s.body :: Marked.all steps := rfl
  obtain ⟨hfailure, hworld, hsent⟩ := halike
  have hbeside : ∀ (ms : List Json) (mss : List (List Json)),
      Marked.beside (s :: steps) (ms :: mss) = ms :: Marked.beside steps mss := by
    simp [Marked.beside, hs]
  rcases hv : handle srv v s.body with ⟨f, v'⟩
  rcases hw : handle srv w s.body with ⟨g, w'⟩
  rw [hv, hw] at hfailure hworld hsent h
  obtain rfl : f = g := hfailure
  cases f with
  | none =>
    obtain ⟨hfailure, hworld, hwrites⟩ := h rfl
    refine ⟨?_, ?_, ?_⟩
    · rw [hrest, hall, handleAll, handleAll, hv, hw]
      exact hfailure
    · rw [hrest, hall, handleAll, handleAll, hv, hw]
      exact hworld
    · rw [hrest, hall, LuaServer.writes, LuaServer.writes, hv, hw]
      dsimp only at hsent ⊢
      rw [hbeside, hwrites, hsent]
  | some f =>
    refine ⟨?_, ?_, ?_⟩
    · rw [hrest, hall, handleAll, handleAll, hv, hw]
    · rw [hrest, hall, handleAll, handleAll, hv, hw]
      exact hworld
    · rw [hrest, hall, LuaServer.writes, LuaServer.writes, hv, hw]
      dsimp only at hsent ⊢
      rw [hbeside, hsent]
      simp [Marked.beside]

/-- **Two runs of which one omits what keeps the worlds related end alike.** -/
theorem IsBisimulation.endsAlike (hR : IsBisimulation srv R) :
    ∀ {steps : List Marked} {v w : World σ τ}, OmitsUnseen srv R w steps → R v w →
      EndsAlike srv R v w steps
  | [], _, _, _, h => ⟨rfl, h, rfl⟩
  | s :: steps, v, w, ⟨hunseen, hrest⟩, h => by
    cases hs : s.omitted with
    | true =>
      obtain ⟨hnone, hrelated⟩ := hunseen hs
      exact .skip hs (Prod.ext hnone rfl) (hR.endsAlike (hrest hnone) (hrelated v h))
    | false =>
      have halike := hR v w h s.body
      exact .keep hs halike fun hnone => hR.endsAlike (hrest hnone) halike.world

end

/-- Two worlds have the same session: they may differ in what was written before, and in the log. -/
structure Alike {σ τ : Type} (v w : World σ τ) : Prop where
  session : v.session = w.session
  exits : v.exits = w.exits

section
variable {σ τ : Type} (srv : Server σ τ) {v w : World σ τ}

/-- What is seen of a body from outside does not depend on what analyses keep, nor on what was written. -/
theorem handle_seen (h : v.session.uncached = w.session.uncached) (body : Bytes) :
    (handle srv v body).1 = (handle srv w body).1 ∧
      (handle srv v body).2.sent.drop v.sent.length = (handle srv w body).2.sent.drop w.sent.length := by
  have hbare : v.bare.uncached = w.bare.uncached :=
    World.uncached_eq_iff.mpr ⟨h, rfl, rfl, rfl⟩
  obtain ⟨hfailure, hworld⟩ := handle_uncached srv hbare body
  obtain ⟨-, hsent, -⟩ := World.uncached_eq_iff.mp hworld
  rw [handle_local srv v, handle_local srv w]
  exact ⟨hfailure, by simpa [World.after] using hsent⟩

/-- In two worlds with the same session every body is handled alike. -/
theorem alike_bisimulation : IsBisimulation srv Alike := by
  intro v w h body
  obtain ⟨hfailure, hsent⟩ := handle_seen srv (congrArg Session.uncached h.session) body
  have hbare : v.bare = w.bare := by rw [World.bare, World.bare, h.session]
  refine ⟨hfailure, ?_, hsent⟩
  rw [handle_local srv v, handle_local srv w, hbare]
  exact ⟨rfl, congrArg (· ++ _) h.exits⟩

/-- In two worlds with the same outline every body is handled alike, if the front end remembers
nothing. -/
theorem outline_bisimulation (srv : Server Unit LuaTree) :
    IsBisimulation srv fun v w => v.outline = w.outline := by
  intro v w h body
  have hsession : ∀ u : LuaWorld, u.session.uncached =
      { documents := u.outline.documents, settings := u.outline.settings, root := u.outline.root,
        initialized := u.outline.initialized, shutdownRequested := u.outline.shutdownRequested,
        running := u.outline.running, memory := () } := fun _ => rfl
  have huncached : v.session.uncached = w.session.uncached := by rw [hsession v, hsession w, h]
  obtain ⟨hfailure, hsent⟩ := handle_seen srv huncached body
  refine ⟨hfailure, ?_, hsent⟩
  rw [handle_outline, handle_outline, h]

end

/-! ## 4. Runs without some of their questions -/

section
variable (read : ReadFile) (onExit : ExitPolicy)

/-- Questions that are omitted keep the outline. -/
theorem omitsUnseen_outline : ∀ {steps : List Marked}, (∀ s ∈ steps, CleanBody s.body) →
    (∀ s ∈ steps, s.omitted = true → IsQuestion s.body) → ∀ w : LuaWorld,
    OmitsUnseen (luaServer read onExit) (fun v w => v.outline = w.outline) w steps
  | [], _, _, _ => trivial
  | s :: steps, hclean, hquestions, w => by
    obtain ⟨hfirst, hclean⟩ := List.forall_mem_cons.mp hclean
    obtain ⟨hquestion, hquestions⟩ := List.forall_mem_cons.mp hquestions
    refine ⟨fun hs => ⟨handle_question_ok read onExit hfirst (hquestion hs) w, fun v h => ?_⟩,
      fun _ => omitsUnseen_outline hclean hquestions _⟩
    exact h.trans (handle_question_outline _ (hquestion hs) w).symm

/-- Questions that are omitted keep the session, if every change of the settings is carried through. -/
theorem omitsUnseen_alike : ∀ {steps : List Marked}, (∀ s ∈ steps, CleanBody s.body) →
    (∀ s ∈ steps, s.omitted = true → IsQuestion s.body) → ∀ {w : LuaWorld}, Steady w →
    Rechecks (luaServer read onExit) w (Marked.all steps) →
    OmitsUnseen (luaServer read onExit) Alike w steps
  | [], _, _, _, _, _ => trivial
  | s :: steps, hclean, hquestions, w, hw, ⟨hrechecked, hrechecks⟩ => by
    obtain ⟨hfirst, hclean⟩ := List.forall_mem_cons.mp hclean
    obtain ⟨hquestion, hquestions⟩ := List.forall_mem_cons.mp hquestions
    have hsteady := handle_steady read onExit hfirst hw hrechecked
    refine ⟨fun hs => ⟨handle_question_ok read onExit hfirst (hquestion hs) w, fun v h => ?_⟩,
      fun hnone => omitsUnseen_alike hclean hquestions hsteady (hrechecks hnone)⟩
    have hechoes := handle_question read onExit (hquestion hs) hw
    exact ⟨h.session.trans hechoes.session.symm, h.exits.trans hechoes.exits.symm⟩

/-- **What a question publishes in a run repeats what was published last.** -/
theorem writes_repeat : ∀ {bodies : List Bytes}, (∀ body ∈ bodies, CleanBody body) →
    ∀ {w : LuaWorld}, Steady w → Rechecks (luaServer read onExit) w bodies →
    ∀ i body ms, bodies[i]? = some body → IsQuestion body →
      (writes (luaServer read onExit) w bodies)[i]? = some ms →
      Repeats (w.sent ++ ((writes (luaServer read onExit) w bodies).take i).flatten) ms
  | [], _, _, _, _, i, body, ms, hbody, _, _ => by simp at hbody
  | first :: bodies, hclean, w, hw, ⟨hrechecked, hrechecks⟩, i, body, ms, hbody, hquestion, hms => by
    obtain ⟨hfirst, hclean⟩ := List.forall_mem_cons.mp hclean
    have hsteady := handle_steady read onExit hfirst hw hrechecked
    have hsent := handle_sent (luaServer read onExit) w first
    rw [writes] at hms ⊢
    cases i with
    | zero =>
      cases hbody
      have hnone := handle_question_ok read onExit hfirst hquestion w
      obtain ⟨new, hnew, hrepeats⟩ := (handle_question read onExit hquestion hw).sent
      rcases hrun : handle (luaServer read onExit) w first with ⟨f, w'⟩
      rw [hrun] at hnone hnew hms
      cases hnone
      dsimp only at hnew hms
      rw [List.getElem?_cons_zero, hnew, List.drop_left] at hms
      cases hms
      simpa using hrepeats
    | succ i =>
      rcases hrun : handle (luaServer read onExit) w first with ⟨_ | f, w'⟩
      · rw [hrun] at hsteady hrechecks hsent hms
        have hrest := writes_repeat hclean hsteady (hrechecks rfl) i body ms hbody hquestion hms
        rw [hsent, List.append_assoc] at hrest
        exact hrest
      · rw [hrun] at hms
        simp at hms

theorem vacant_fresh : Vacant (Connection.fresh () : Connection Unit LuaTree).world :=
  ⟨rfl, fun uri => ⟨rfl, rfl, by simp [Connection.fresh]⟩⟩

/-- A body brings a text of a document whose places cannot all be sent: one of 2 ^ 31 - 1 code points or
more. -/
def Overlong (body : Bytes) : Prop := ∃ e ∈ (decode body).toOption, ∃ t ∈ e.texts, ¬Sendable t

end

end LuaServer
