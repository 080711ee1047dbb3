/-
# Line breaks of two code points

`crlf` puts a carriage return in front of every newline.  A carriage return is white space, it ends
whatever a newline ends, and with the newline behind it it moves a place as the newline alone does, so
the scanners of white space, comments, long brackets and numbers do not tell a text from `crlf` of it.
What is taken from a text is taken from `crlf` of it with the newlines rewritten; where no newline can be
taken (`Unbroken`), that is the same stretch.

Main results: `longBracket?_crlf`, `gap_crlf`, `numberExtent_crlf`.
-/
import LuaServer.Proofs.Lexemes

namespace LuaServer

/-! ## 1. Texts -/

/-- A text with a carriage return in front of every newline. -/
def crlf (t : Text) : Text :=
  t.flatMap fun c => if c = code '\n' then [code '\r', code '\n'] else [c]

/-- A text on one line, which a carriage return would break too. -/
def Unbroken (t : Text) : Prop := ∀ c ∈ t, c ≠ code '\n' ∧ c ≠ code '\r'

instance (t : Text) : Decidable (Unbroken t) := inferInstanceAs (Decidable (∀ c ∈ t, _))

/-- A class of code points with neither of the two breaks. -/
def Inline (p : Code → Bool) : Prop := p (code '\n') = false ∧ p (code '\r') = false

instance (p : Code → Bool) : Decidable (Inline p) := inferInstanceAs (Decidable (_ ∧ _))

section
variable {s t pat : Text} {c : Code} {p : Code → Bool}

@[simp] theorem crlf_nil : crlf [] = [] := rfl

@[simp] theorem crlf_newline (t : Text) :
    crlf (code '\n' :: t) = code '\r' :: code '\n' :: crlf t := rfl

theorem crlf_cons (hc : c ≠ code '\n') (t : Text) : crlf (c :: t) = c :: crlf t := by
  simp [crlf, hc]

theorem crlf_append (s t : Text) : crlf (s ++ t) = crlf s ++ crlf t := List.flatMap_append

theorem Unbroken.mono (ht : Unbroken t) (hst : s ⊆ t) : Unbroken s := fun c hc => ht c (hst hc)

theorem Unbroken.append (hs : Unbroken s) (ht : Unbroken t) : Unbroken (s ++ t) := by
  intro c hc
  rcases List.mem_append.mp hc with hc | hc
  · exact hs c hc
  · exact ht c hc

theorem Unbroken.cons (hn : c ≠ code '\n') (hr : c ≠ code '\r') (ht : Unbroken t) :
    Unbroken (c :: t) := by
  intro d hd
  rcases List.mem_cons.mp hd with rfl | hd
  · exact ⟨hn, hr⟩
  · exact ht d hd

theorem Inline.ne (hp : Inline p) (h : p c = true) : c ≠ code '\n' ∧ c ≠ code '\r' := by
  constructor
  · rintro rfl
    rw [hp.1] at h
    cases h
  · rintro rfl
    rw [hp.2] at h
    cases h

/-- A text of such a class is unbroken. -/
theorem unbroken_of_all (hp : Inline p) (h : t.all p = true) : Unbroken t :=
  fun c hc => hp.ne (List.all_eq_true.mp h c hc)

/-- An unbroken text stays as it is. -/
theorem crlf_of_unbroken (h : Unbroken t) : crlf t = t := by
  induction t with
  | nil => rfl
  | cons c t ih =>
    rw [crlf_cons (h c List.mem_cons_self).1, ih (h.mono (List.subset_cons_self c t))]

/-- The two parts of a text. -/
theorem crlf_take_append (t : Text) (n : Nat) :
    crlf (t.take n) ++ crlf (t.drop n) = crlf t := by
  rw [← crlf_append, List.take_append_drop]

theorem drop_crlf (t : Text) (n : Nat) :
    (crlf t).drop (crlf (t.take n)).length = crlf (t.drop n) := by
  rw [← crlf_take_append t n, List.drop_left]

theorem take_crlf (t : Text) (n : Nat) :
    (crlf t).take (crlf (t.take n)).length = crlf (t.take n) := by
  rw [← crlf_take_append t n, List.take_left]

/-- Behind an unbroken stretch the rest begins where it did. -/
theorem drop_crlf_of_unbroken {n : Nat} (hn : n ≤ t.length) (h : Unbroken (t.take n)) :
    (crlf t).drop n = crlf (t.drop n) := by
  have hdrop := drop_crlf t n
  rwa [crlf_of_unbroken h, List.length_take_of_le hn] at hdrop

theorem take_crlf_of_unbroken {n : Nat} (hn : n ≤ t.length) (h : Unbroken (t.take n)) :
    (crlf t).take n = t.take n := by
  have htake := take_crlf t n
  rwa [crlf_of_unbroken h, List.length_take_of_le hn] at htake

/-- Which class the first code point is in, if the class does not tell the two breaks apart. -/
theorem head_any_crlf (hp : p (code '\r') = p (code '\n')) :
    (crlf t).head?.any p = t.head?.any p := by
  cases t with
  | nil => rfl
  | cons c t =>
    by_cases hc : c = code '\n'
    · subst hc
      simpa using hp
    · rw [crlf_cons hc]
      rfl

/-- A code point other than the two breaks stands in front of both texts or of neither. -/
theorem head_crlf_iff (hn : c ≠ code '\n') (hr : c ≠ code '\r') :
    (crlf t).head? = some c ↔ t.head? = some c := by
  have hany := head_any_crlf (t := t) (p := fun d => d = c)
    (by rw [decide_eq_false hn.symm, decide_eq_false hr.symm])
  simpa [Option.any_eq_true] using congrArg (· = true) hany

/-- A stretch of a class without the two breaks. -/
theorem takeWhile_crlf (hp : Inline p) : (crlf t).takeWhile p = t.takeWhile p := by
  induction t with
  | nil => rfl
  | cons c t ih =>
    by_cases hc : c = code '\n'
    · subst hc
      rw [crlf_newline, List.takeWhile_cons_of_neg (by simp [hp.2]),
        List.takeWhile_cons_of_neg (by simp [hp.1])]
    · rw [crlf_cons hc, List.takeWhile_cons, List.takeWhile_cons, ih]

/-- A stretch of a class with both breaks. -/
theorem takeWhile_crlf_of_breaks (hn : p (code '\n') = true) (hr : p (code '\r') = true) :
    (crlf t).takeWhile p = crlf (t.takeWhile p) := by
  induction t with
  | nil => rfl
  | cons c t ih =>
    by_cases hc : c = code '\n'
    · subst hc
      rw [crlf_newline, List.takeWhile_cons_of_pos hr, List.takeWhile_cons_of_pos hn,
        List.takeWhile_cons_of_pos hn, crlf_newline, ih]
    · cases hpc : p c with
      | true =>
        rw [crlf_cons hc, List.takeWhile_cons_of_pos hpc, List.takeWhile_cons_of_pos hpc,
          crlf_cons hc, ih]
      | false =>
        rw [crlf_cons hc, List.takeWhile_cons_of_neg (by simp [hpc]),
          List.takeWhile_cons_of_neg (by simp [hpc]), crlf_nil]

theorem unbroken_takeWhile (hp : Inline p) : Unbroken (t.takeWhile p) :=
  unbroken_of_all hp List.all_takeWhile

/-- An unbroken pattern stands in front of both texts or of neither. -/
theorem prefix_crlf (hpat : Unbroken pat) : pat <+: crlf t ↔ pat <+: t := by
  induction pat generalizing t with
  | nil => simp
  | cons x pat ih =>
    obtain ⟨hn, hr⟩ := hpat x List.mem_cons_self
    cases t with
    | nil => rfl
    | cons c t =>
      by_cases hc : c = code '\n'
      · subst hc
        rw [crlf_newline, List.cons_prefix_cons, List.cons_prefix_cons]
        constructor
        · exact fun h => absurd h.1 hr
        · exact fun h => absurd h.1 hn
      · rw [crlf_cons hc, List.cons_prefix_cons, List.cons_prefix_cons,
          ih (hpat.mono (List.subset_cons_self x pat))]

/-- An unbroken pattern stands in both texts or in neither. -/
theorem infix_crlf (hne : pat ≠ []) (hpat : Unbroken pat) :
    pat <:+: crlf t ↔ pat <:+: t := by
  induction t with
  | nil => rfl
  | cons c t ih =>
    by_cases hc : c = code '\n'
    · subst hc
      obtain ⟨x, pat, rfl⟩ := List.exists_cons_of_ne_nil hne
      obtain ⟨hn, hr⟩ := hpat x List.mem_cons_self
      rw [crlf_newline, List.infix_cons_iff, List.infix_cons_iff, List.infix_cons_iff, ih,
        List.cons_prefix_cons, List.cons_prefix_cons, List.cons_prefix_cons]
      simp [hn, hr]
    · rw [crlf_cons hc, List.infix_cons_iff, List.infix_cons_iff, ih, ← crlf_cons hc,
        prefix_crlf hpat]

/-- Both texts end at the same place. -/
theorem Pos.advance_crlf (p : Pos) (t : Text) : p.advance (crlf t) = p.advance t := by
  induction t generalizing p with
  | nil => rfl
  | cons c t ih =>
    by_cases hc : c = code '\n'
    · subst hc
      rw [crlf_newline, Pos.advance_cons, Pos.advance_cons, Pos.advance_cons, ih]
      rfl
    · rw [crlf_cons hc, Pos.advance_cons, Pos.advance_cons, ih]

end

/-! ## 2. Long brackets -/

/-- A pattern closes a text and nothing before if it does not stand in the text with the pattern less
its last element behind it. -/
theorem delimits_iff {α : Type} {pat before : List α} (hpat : pat ≠ []) :
    Delimits pat before ↔ ¬pat <:+: before ++ pat.dropLast := by
  have hlength : pat.dropLast.length + 1 = pat.length := by
    rw [List.length_dropLast]
    exact Nat.sub_add_cancel (List.length_pos_iff.mpr hpat)
  have hlast : pat.dropLast <+: pat := List.dropLast_prefix pat
  constructor
  · rintro h ⟨s, t, hst⟩
    have hlengths := congrArg List.length hst
    simp only [List.length_append] at hlengths
    refine h s.length (by omega) ?_
    have hoccurs : pat <+: (before ++ pat.dropLast).drop s.length := by
      rw [← hst, List.append_assoc, List.drop_left]
      exact List.prefix_append pat t
    have hmore : (before ++ pat.dropLast).drop s.length <+: (before ++ pat).drop s.length := by
      rw [List.drop_append_of_le_length (by omega), List.drop_append_of_le_length (by omega)]
      exact (List.prefix_append_right_inj _).mpr hlast
    exact hoccurs.trans hmore
  · intro h k hk hoccurs
    refine h ?_
    have hdrop : (before ++ pat.dropLast).drop k <+: (before ++ pat).drop k := by
      rw [List.drop_append_of_le_length (Nat.le_of_lt hk),
        List.drop_append_of_le_length (Nat.le_of_lt hk)]
      exact (List.prefix_append_right_inj _).mpr hlast
    have hfits : pat <+: (before ++ pat.dropLast).drop k := by
      refine List.prefix_of_prefix_length_le hoccurs hdrop ?_
      simp only [List.length_drop, List.length_append]
      omega
    exact hfits.isInfix.trans (List.drop_suffix k _).isInfix

namespace Lua

theorem unbroken_opener (level : Nat) : Unbroken (opener level) := by
  intro c hc
  simp only [opener, List.cons_append, List.mem_cons, List.mem_append, List.mem_replicate,
    List.not_mem_nil, or_false] at hc
  rcases hc with rfl | ⟨-, rfl⟩ | rfl <;> decide

theorem unbroken_closer (level : Nat) : Unbroken (closer level) := by
  intro c hc
  simp only [closer, List.cons_append, List.mem_cons, List.mem_append, List.mem_replicate,
    List.not_mem_nil, or_false] at hc
  rcases hc with rfl | ⟨-, rfl⟩ | rfl <;> decide

theorem openerLevel?_crlf (t : Text) : openerLevel? (crlf t) = openerLevel? t := by
  ext level
  rw [openerLevel?_iff, openerLevel?_iff, prefix_crlf (unbroken_opener level)]

/-- A closer stands at the end of a text for the first time if it does before line breaks are
rewritten. -/
theorem delimits_crlf {level : Nat} {s : Text} (h : Delimits (closer level) s) :
    Delimits (closer level) (crlf s) := by
  have hne : closer level ≠ [] := by simp [closer]
  rw [delimits_iff hne] at h ⊢
  have hlast : Unbroken (closer level).dropLast :=
    (unbroken_closer level).mono (List.dropLast_subset _)
  have hwhole : crlf s ++ (closer level).dropLast = crlf (s ++ (closer level).dropLast) := by
    rw [crlf_append, crlf_of_unbroken hlast]
  rwa [hwhole, infix_crlf hne (unbroken_closer level)]

/-- A newline that is skipped becomes a break of two code points that is skipped. -/
theorem lineBreakSize_crlf {t : Text} (hcr : code '\r' ∉ t) :
    lineBreakSize (crlf t) = (crlf (t.take (lineBreakSize t))).length := by
  cases t with
  | nil => rfl
  | cons c t =>
    by_cases hc : c = code '\n'
    · subst hc
      rfl
    · have hne : c ≠ code '\r' := fun heq => hcr (heq ▸ List.mem_cons_self)
      rw [crlf_cons hc]
      simp [lineBreakSize, hc, hne]

/-- A long bracket is as long as its text, and its content has its newlines rewritten. -/
theorem longBracket?_crlf {level n : Nat} {cs v : Text} (hopen : opener level <+: cs)
    (hcr : code '\r' ∉ cs) (h : longBracket? level cs = some (v, n)) :
    longBracket? level (crlf cs) = some (crlf v, (crlf (cs.take n)).length) := by
  obtain ⟨inner, rfl⟩ := hopen
  obtain ⟨after, hrest, hends, rfl⟩ := longBracket?_iff.mp h
  have hinner := lineBreakSize_crlf fun hmem => hcr (List.mem_append_right (opener level) hmem)
  have hsize := lineBreakSize_le inner
  have hwhole : inner = inner.take (lineBreakSize inner) ++ (v ++ closer level) ++ after := by
    rw [List.append_assoc, ← hrest, List.take_append_drop]
  have htake : (opener level ++ inner).take
        (level + 2 + lineBreakSize inner + v.length + (level + 2))
      = opener level ++ (inner.take (lineBreakSize inner) ++ (v ++ closer level)) := by
    conv => lhs; arg 2; rw [hwhole, ← List.append_assoc]
    refine List.take_left' ?_
    simp only [List.length_append, length_opener, length_closer, List.length_take_of_le hsize]
    omega
  rw [htake, crlf_append, crlf_of_unbroken (unbroken_opener level)]
  refine longBracket?_iff.mpr ⟨crlf after, ?_, delimits_crlf hends, ?_⟩
  · rw [hinner, drop_crlf, hrest, crlf_append, crlf_append, crlf_of_unbroken (unbroken_closer level)]
  · simp only [hinner, crlf_append, crlf_of_unbroken (unbroken_opener level),
      crlf_of_unbroken (unbroken_closer level), List.length_append, length_opener, length_closer]
    omega

/-! ## 3. Gaps -/

theorem gap_blank {c : Code} {cs : Text} (hc : isBlank c = true) {n : Nat} :
    gap (c :: cs) = .ok (n + 1) ↔ gap cs = .ok n := by
  rw [gap, if_pos hc]
  split <;> simp_all

/-- A comment after its dashes: a long one is as long as its text, and a line comment takes the carriage
return of the line break that ends it. -/
theorem commentSize?_crlf {cs : Text} {n : Nat} (hcr : code '\r' ∉ cs)
    (h : commentSize? cs = some n) :
    commentSize? (crlf cs) = some (crlf (cs.take n)).length ∨
    ∃ s, cs.drop n = code '\n' :: s ∧
      commentSize? (crlf cs) = some ((crlf (cs.take n)).length + 1) := by
  rw [commentSize?] at h ⊢
  rw [openerLevel?_crlf]
  split at h
  · next level hopen =>
    obtain ⟨⟨v, m⟩, hlong, rfl⟩ := Option.map_eq_some_iff.mp h
    exact .inl (by simp [longBracket?_crlf (openerLevel?_iff.mp hopen) hcr hlong])
  · cases h
    rw [take_takeWhile, ← crlf_take_append cs (cs.takeWhile (· != code '\n')).length,
      take_takeWhile]
    have hstop := head_drop_takeWhile (p := fun c => c != code '\n') cs
    have hbody : code '\n' ∉ cs.takeWhile (· != code '\n') := by
      intro hmem
      simpa using List.all_eq_true.mp List.all_takeWhile _ hmem
    have hline : Unbroken (cs.takeWhile (· != code '\n')) := by
      intro c hc
      refine ⟨fun heq => hbody (heq ▸ hc), fun heq => hcr ?_⟩
      exact (List.takeWhile_prefix _).subset (heq ▸ hc)
    have hall : (cs.takeWhile (· != code '\n')).all (· != code '\n') = true := List.all_takeWhile
    rw [crlf_of_unbroken hline]
    cases hafter : cs.drop (cs.takeWhile (· != code '\n')).length with
    | nil =>
      left
      have hrun := takeWhile_append_stop hall (y := []) (by simp)
      rw [crlf_nil]
      exact congrArg (fun t : Text => some t.length) hrun
    | cons d s =>
      right
      obtain rfl : d = code '\n' := by simpa using hstop d (by rw [hafter]; rfl)
      refine ⟨s, rfl, ?_⟩
      have hrun := takeWhile_append_stop (p := fun c => c != code '\n')
        (a := cs.takeWhile (· != code '\n') ++ [code '\r']) (y := code '\n' :: crlf s)
        (by simp [hall]; decide) (by simp)
      rw [crlf_newline]
      simpa using congrArg (fun t : Text => some t.length) hrun

/-- **A gap is as long as its text.** -/
theorem gap_crlf {cs : Text} {k : Nat} (hcr : code '\r' ∉ cs) (h : gap cs = .ok k) :
    gap (crlf cs) = .ok (crlf (cs.take k)).length := by
  fun_induction gap cs generalizing k with
  | case1 =>
    cases h
    rw [crlf_nil, gap]
    rfl
  | case2 c rest hc n hgap ih =>
    cases h
    have hrest := ih (fun hmem => hcr (List.mem_cons_of_mem c hmem)) hgap
    by_cases hn : c = code '\n'
    · subst hn
      rw [List.take_succ_cons, crlf_newline, crlf_newline, List.length_cons, List.length_cons,
        gap_blank (by decide), gap_blank hc]
      exact hrest
    · rw [List.take_succ_cons, crlf_cons hn, crlf_cons hn, List.length_cons, gap_blank hc]
      exact hrest
  | case3 => cases h
  | case4 => cases h
  | case5 c rest hc hcomment n hsize m hgap ih =>
    cases h
    obtain ⟨rfl, hhead⟩ := hcomment
    obtain ⟨r, rfl⟩ := List.head?_eq_some_iff.mp hhead
    simp only [List.drop_succ_cons, List.drop_zero] at hsize hgap ih
    have hr : code '\r' ∉ r := fun hmem => hcr (by simp [hmem])
    have hrest := ih (fun hmem => hr (List.mem_of_mem_drop hmem)) hgap
    have htake : (code '-' :: code '-' :: r).take (m + n + 2)
        = code '-' :: code '-' :: (r.take n ++ (r.drop n).take m) := by
      rw [Nat.add_comm m n, List.take_succ_cons, List.take_succ_cons, List.take_add]
    have hdash : code '-' ≠ code '\n' := by decide
    rw [htake, crlf_cons hdash, crlf_cons hdash, crlf_cons hdash, crlf_cons hdash, crlf_append,
      List.length_cons, List.length_cons, List.length_append]
    rcases commentSize?_crlf hr hsize with hsize' | ⟨s, hs, hsize'⟩
    · rw [← drop_crlf] at hrest
      rw [gap_comment hsize' hrest]
      congr 1
      omega
    · -- the carriage return belongs to the comment, and the newline behind it to the gap
      have hdrop : (crlf r).drop ((crlf (r.take n)).length + 1) = code '\n' :: crlf s := by
        rw [← List.drop_drop, drop_crlf, hs, crlf_newline, List.drop_succ_cons, List.drop_zero]
      obtain ⟨j, rfl⟩ : ∃ j, m = j + 1 := by
        rw [hs] at hgap
        cases m with
        | zero => exact absurd (gap_stops hgap rfl).1 (by decide)
        | succ j => exact ⟨j, rfl⟩
      rw [hs, List.take_succ_cons, crlf_newline, crlf_newline, List.length_cons,
        gap_blank (by decide)] at hrest
      rw [gap_comment hsize' (hdrop ▸ hrest), hs, List.take_succ_cons, crlf_newline]
      simp only [List.length_cons]
      congr 1
      omega
  | case6 => cases h
  | case7 c rest hc hcomment =>
    cases h
    by_cases hn : c = code '\n'
    · subst hn
      exact absurd (by decide) hc
    · rw [List.take_zero, crlf_nil, crlf_cons hn]
      refine gap_none (by simpa using hc) ?_
      rw [ne_eq, ne_eq, head_crlf_iff (by decide) (by decide)]
      exact Decidable.not_and_iff_or_not.mp hcomment

/-! ## 4. Numbers -/

theorem inline_isDigit : Inline isDigit := by decide

theorem inline_isHexDigit : Inline isHexDigit := by decide

theorem inline_isNameChar : Inline isNameChar := by decide

/-- The part of a number that is read digit by digit. -/
theorem numberSize_crlf {digit mark : Code → Bool} (hdigit : Inline digit) (hmark : Inline mark)
    (cs : Text) : numberSize digit mark (crlf cs) = numberSize digit mark cs ∧
      Unbroken (cs.take (numberSize digit mark cs).1) := by
  fun_induction numberSize digit mark cs with
  | case1 => exact ⟨rfl, by simp [Unbroken]⟩
  | case2 digit c cs hc n float hsize ih =>
    obtain ⟨hsame, hunbroken⟩ := ih hdigit
    obtain ⟨hn, hr⟩ := hdigit.ne hc
    rw [hsize] at hsame hunbroken
    refine ⟨?_, .cons hn hr hunbroken⟩
    rw [crlf_cons hn, numberSize.eq_def]
    simp [hc, hsame]
  | case3 digit cs hc ih =>
    obtain ⟨hsame, hunbroken⟩ := ih hdigit
    have hn : code '.' ≠ code '\n' := by decide
    refine ⟨?_, .cons hn (by decide) hunbroken⟩
    rw [crlf_cons hn, numberSize.eq_def]
    simp [hc, hsame]
  | case4 digit c hc hpoint hcm =>
    obtain ⟨hn, hr⟩ := hmark.ne hcm
    refine ⟨?_, .cons hn hr (by simp [Unbroken])⟩
    rw [crlf_cons hn, crlf_nil, numberSize.eq_def]
    simp [hc, hpoint, hcm]
  | case5 digit c hc hpoint hcm d ds hsign ih =>
    obtain ⟨hsame, hunbroken⟩ := ih inline_isDigit
    obtain ⟨hn, hr⟩ := hmark.ne hcm
    have hd : d ≠ code '\n' ∧ d ≠ code '\r' := by
      rcases hsign with rfl | rfl <;> decide
    refine ⟨?_, .cons hn hr (.cons hd.1 hd.2 hunbroken)⟩
    rw [crlf_cons hn, crlf_cons hd.1, numberSize.eq_def]
    simp [hc, hpoint, hcm, hsign, hsame]
  | case6 digit c hc hpoint hcm d ds hsign ih =>
    obtain ⟨hsame, hunbroken⟩ := ih inline_isDigit
    obtain ⟨hn, hr⟩ := hmark.ne hcm
    refine ⟨?_, .cons hn hr hunbroken⟩
    -- what follows the mark is no sign, also where it becomes a carriage return
    obtain ⟨e, es, he, hnosign⟩ : ∃ e es, crlf (d :: ds) = e :: es ∧ ¬(e = code '+' ∨ e = code '-') := by
      by_cases hd : d = code '\n'
      · subst hd
        exact ⟨_, _, crlf_newline ds, by decide⟩
      · exact ⟨_, _, crlf_cons hd ds, hsign⟩
    rw [he] at hsame
    rw [crlf_cons hn, he, numberSize.eq_def]
    simp [hc, hpoint, hcm, hnosign, hsame]
  | case7 digit c cs hc hpoint hcm =>
    refine ⟨?_, by simp [Unbroken]⟩
    by_cases hn : c = code '\n'
    · subst hn
      have hpoint : code '\r' ≠ code '.' := by decide
      rw [crlf_newline, numberSize.eq_def]
      simp [hdigit.2, hmark.2, hpoint]
    · rw [crlf_cons hn, numberSize.eq_def]
      simp [hc, hpoint, hcm]

theorem isHexadecimal_crlf (cs : Text) : isHexadecimal (crlf cs) = isHexadecimal cs := by
  match cs with
  | [] => rfl
  | c :: cs =>
    by_cases hc : c = code '\n'
    · subst hc
      cases cs <;> rfl
    · rw [crlf_cons hc]
      match cs with
      | [] => rfl
      | d :: cs =>
        by_cases hd : d = code '\n'
        · subst hd
          rfl
        · rw [crlf_cons hd]
          rfl

/-- The number proper, without the name characters that may follow it. -/
theorem numberProper_crlf (cs : Text) :
    numberProper (crlf cs) = numberProper cs ∧ Unbroken (cs.take (numberProper cs).1) := by
  by_cases hhex : isHexadecimal cs = true
  · obtain ⟨c, d, cs, rfl⟩ : ∃ c d cs', cs = c :: d :: cs' := by
      match cs, length_of_isHexadecimal hhex with
      | c :: d :: cs, _ => exact ⟨c, d, cs, rfl⟩
    have hmarks : c = code '0' ∧ (d = code 'x' ∨ d = code 'X') := by simpa [isHexadecimal] using hhex
    have hc : c ≠ code '\n' ∧ c ≠ code '\r' := by
      rw [hmarks.1]
      decide
    have hd : d ≠ code '\n' ∧ d ≠ code '\r' := by
      rcases hmarks.2 with rfl | rfl <;> decide
    have hdigits : hexadecimalSize (crlf cs) = hexadecimalSize cs ∧
        Unbroken (cs.take (hexadecimalSize cs).1) := numberSize_crlf inline_isHexDigit (by decide) cs
    obtain ⟨hsame, hunbroken⟩ := hdigits
    have hcrlf : crlf (c :: d :: cs) = c :: d :: crlf cs := by rw [crlf_cons hc.1, crlf_cons hd.1]
    have hhex' : isHexadecimal (c :: d :: crlf cs) = true := hhex
    rw [hcrlf, numberProper, numberProper, if_pos hhex, if_pos hhex']
    simp only [List.drop_succ_cons, List.drop_zero, hsame, true_and]
    exact .cons hc.1 hc.2 (.cons hd.1 hd.2 hunbroken)
  · have hdigits : decimalSize (crlf cs) = decimalSize cs ∧ Unbroken (cs.take (decimalSize cs).1) :=
      numberSize_crlf inline_isDigit (by decide) cs
    rwa [numberProper, numberProper, isHexadecimal_crlf, if_neg hhex, if_neg hhex]

/-- **A number is on one line.** -/
theorem numberExtent_crlf {cs : Text} (hpos : 1 ≤ (numberProper cs).1) :
    numberExtent (crlf cs) = numberExtent cs ∧ Unbroken (cs.take (numberExtent cs).1) := by
  obtain ⟨hle, -⟩ := numberProper_local hpos
  obtain ⟨hsame, hunbroken⟩ := numberProper_crlf cs
  rw [numberExtent_eq, numberExtent_eq, hsame]
  generalize (numberProper cs).1 = n at *
  rw [drop_crlf_of_unbroken hle hunbroken, takeWhile_crlf inline_isNameChar]
  refine ⟨rfl, ?_⟩
  rw [List.take_add, take_takeWhile]
  exact hunbroken.append (unbroken_takeWhile inline_isNameChar)

end Lua

end LuaServer
