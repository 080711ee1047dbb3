/-
# What a token depends on

A token depends on its own text and on very little of what follows: where it ends, the next code point
does not go on with it.  `Alike a b` says that two texts agree up to a name in each of them (or up to
the end of both).  No scanner can tell two such texts apart as long as it stops before the names, so
whatever stands in front of a name keeps its tokens when the name is replaced by another one.

Main results: `gap_alike`, `lexeme_alike`.
-/
import LuaServer.Proofs.Lexing

namespace LuaServer.Lua

/-! ## 1. Texts that agree up to a name -/

/-- Two texts that agree up to a name in each of them, or up to the end of both. -/
inductive Alike : Text → Text → Prop
  | nil : Alike [] []
  | cons : Alike a b → Alike (c :: a) (c :: b)
  | names : isNameStart c = true → isNameStart d = true → Alike (c :: a) (d :: b)

namespace Alike

variable {a b : Text}

/-- A text agrees with itself. -/
theorem refl : ∀ a : Text, Alike a a
  | [] => .nil
  | _ :: a => .cons (refl a)

/-- The same text may stand in front of both. -/
theorem append (h : Alike a b) : ∀ t : Text, Alike (t ++ a) (t ++ b)
  | [] => h
  | _ :: t => .cons (h.append t)

/-- What is put in place of the part of a text after `n` code points. -/
theorem take {cs y : Text} {n : Nat} (h : Alike (cs.drop n) y) : Alike cs (cs.take n ++ y) := by
  have happend := h.append (cs.take n)
  rwa [List.take_append_drop] at happend

/-- The two texts begin with the same code point, if neither begins with a name. -/
theorem head_eq (h : Alike a b) (ha : ∀ c, a.head? = some c → isNameStart c = false) :
    b.head? = a.head? := by
  cases h with
  | nil => rfl
  | cons _ => rfl
  | names hc _ =>
    have hc' := ha _ rfl
    rw [hc] at hc'
    cases hc'

/-- A class of code points without name starts cannot tell the two texts apart. -/
theorem head_any {p : Code → Bool} (hp : ∀ c, isNameStart c = true → p c = false) (h : Alike a b) :
    b.head?.any p = a.head?.any p := by
  cases h with
  | nil => rfl
  | cons _ => rfl
  | names hc hd => simp [hp _ hc, hp _ hd]

/-- Both texts begin with a given code point that begins no name, or neither does. -/
theorem head_iff {x : Code} (hx : isNameStart x = false) (h : Alike a b) :
    b.head? = some x ↔ a.head? = some x := by
  cases h with
  | nil => rfl
  | cons _ => rfl
  | @names c d _ _ hc hd =>
    have hcx : c ≠ x := by rintro rfl; rw [hx] at hc; cases hc
    have hdx : d ≠ x := by rintro rfl; rw [hx] at hd; cases hd
    simp [hcx, hdx]

/-- The same code points are taken, where no name begins with one of them. -/
theorem takeWhile {p : Code → Bool} (hp : ∀ c, isNameStart c = true → p c = false)
    (h : Alike a b) : b.takeWhile p = a.takeWhile p := by
  induction h with
  | nil => rfl
  | @cons a b c _ ih => cases hc : p c <;> simp [hc, ih]
  | names hc hd => simp [hp _ hc, hp _ hd]

/-- What is left agrees up to a name. -/
theorem dropWhile {p : Code → Bool} (hp : ∀ c, isNameStart c = true → p c = false)
    (h : Alike a b) : Alike (a.dropWhile p) (b.dropWhile p) := by
  induction h with
  | nil => exact .nil
  | @cons a b c h ih =>
    cases hc : p c with
    | true => simpa [hc] using ih
    | false => simpa [hc] using h.cons
  | names hc hd => simpa [hp _ hc, hp _ hd] using Alike.names hc hd

/-- A pattern without name starts stands in front of both texts or of neither. -/
theorem isPrefixOf {pat : Text} (hpat : ∀ c ∈ pat, isNameStart c = false) (h : Alike a b) :
    pat.isPrefixOf b = pat.isPrefixOf a := by
  induction h generalizing pat with
  | nil => rfl
  | cons _ ih =>
    cases pat with
    | nil => rfl
    | cons x pat =>
      have htail := ih fun c hc => hpat c (List.mem_cons_of_mem _ hc)
      simp [List.isPrefixOf, htail]
  | @names c d _ _ hc hd =>
    cases pat with
    | nil => rfl
    | cons x pat =>
      have hx := hpat x List.mem_cons_self
      have hxc : x ≠ c := by rintro rfl; rw [hx] at hc; cases hc
      have hxd : x ≠ d := by rintro rfl; rw [hx] at hd; cases hd
      rw [List.isPrefixOf, List.isPrefixOf, beq_false_of_ne hxc, beq_false_of_ne hxd]
      rfl

end Alike

/-- A name goes on with whatever it may begin with. -/
theorem isNameChar_of_isNameStart {c : Code} (h : isNameStart c = true) : isNameChar c = true := by
  simp [isNameChar, h]

/-- A name does not begin with the given code point. -/
theorem isNameStart_ne {c x : Code} (hx : isNameStart x = false) (h : isNameStart c = true) :
    decide (c = x) = false := by
  rw [decide_eq_false_iff_not]
  rintro rfl
  rw [hx] at h
  cases h

theorem isNameStart_iff {c : Nat} :
    isNameStart c = true ↔ c = 95 ∨ (97 ≤ c ∧ c ≤ 122) ∨ (65 ≤ c ∧ c ≤ 90) := by
  simp only [isNameStart, code, Char.reduceToNat, Bool.or_eq_true, Bool.and_eq_true,
    decide_eq_true_eq, or_assoc]

theorem isDigit_iff {c : Nat} : isDigit c = true ↔ 48 ≤ c ∧ c ≤ 57 := by
  simp only [isDigit, code, Char.reduceToNat, Bool.and_eq_true, decide_eq_true_eq]

/-- No name begins with a digit. -/
theorem isDigit_of_isNameStart {c : Nat} (h : isNameStart c = true) : isDigit c = false := by
  rw [isNameStart_iff] at h
  rw [Bool.eq_false_iff, ne_eq, isDigit_iff]
  omega

/-- The first code point stays if that of the part which is replaced does. -/
theorem head_take_append {cs y : Text} {n : Nat} (h : y.head? = (cs.drop n).head?) :
    (cs.take n ++ y).head? = cs.head? := by
  cases cs with
  | nil => simpa using h
  | cons c cs =>
    cases n with
    | zero => simpa using h
    | succ n => rfl

section
variable {p : Code → Bool}

theorem take_takeWhile (cs : Text) : cs.take (cs.takeWhile p).length = cs.takeWhile p :=
  (List.prefix_iff_eq_take.mp (List.takeWhile_prefix p)).symm

theorem drop_takeWhile (cs : Text) : cs.drop (cs.takeWhile p).length = cs.dropWhile p := by
  have hsplit := List.take_append_drop (cs.takeWhile p).length cs
  rw [take_takeWhile] at hsplit
  exact List.append_cancel_left (hsplit.trans List.takeWhile_append_dropWhile.symm)

/-- What follows the longest stretch of a class begins outside the class. -/
theorem head_drop_takeWhile (cs : Text) :
    ∀ c, (cs.drop (cs.takeWhile p).length).head? = some c → p c = false := by
  intro c hc
  have hnot := List.head?_dropWhile_not p cs
  rw [drop_takeWhile] at hc
  rw [hc] at hnot
  simpa using hnot

/-- A stretch of a class is the longest one if what follows does not begin inside the class. -/
theorem takeWhile_append_stop {a y : Text} (ha : a.all p = true)
    (hy : ∀ c, y.head? = some c → p c = false) : (a ++ y).takeWhile p = a := by
  have hstop : y.takeWhile p = [] := by
    cases y with
    | nil => rfl
    | cons c y => simp [hy c rfl]
  rw [List.takeWhile_append_of_pos (by simpa using ha), hstop, List.append_nil]

/-- The longest stretch of a class stays the longest if another text that begins outside the class
follows it. -/
theorem takeWhile_take_append {cs y : Text} (hy : ∀ c, y.head? = some c → p c = false) :
    (cs.take (cs.takeWhile p).length ++ y).takeWhile p = cs.takeWhile p := by
  rw [take_takeWhile]
  exact takeWhile_append_stop List.all_takeWhile hy

theorem length_takeWhile_le (cs : Text) : (cs.takeWhile p).length ≤ cs.length :=
  (List.takeWhile_prefix p).length_le

end

/-! ## 2. Gaps -/

/-- Whether a long bracket opens is seen before a name could begin. -/
theorem openerLevel?_alike {a b : Text} (h : Alike a b) : openerLevel? b = openerLevel? a := by
  have heq : ∀ c, isNameStart c = true → decide (c = code '=') = false :=
    fun _ => isNameStart_ne (by decide)
  cases h with
  | nil => rfl
  | cons h =>
    have hopen := (h.dropWhile heq).head_iff (x := code '[') (by decide)
    simp only [openerLevel?, hopen, h.takeWhile heq]
  | names hc hd =>
    have hc := isNameStart_ne (x := code '[') (by decide) hc
    have hd := isNameStart_ne (x := code '[') (by decide) hd
    simp only [decide_eq_false_iff_not] at hc hd
    simp [openerLevel?, hc, hd]

@[simp] theorem length_closer (level : Nat) : (closer level).length = level + 2 := by
  simp [closer]

theorem lineBreakSize_le (cs : Text) : lineBreakSize cs ≤ cs.length := by
  cases cs with
  | nil => exact Nat.le_refl 0
  | cons c cs =>
    simp only [lineBreakSize, List.length_cons]
    split
    · omega
    · split
      · split
        · next hd => cases cs <;> simp_all
        · omega
      · omega

/-- The line break in front of a text is decided by its first two code points. -/
theorem lineBreakSize_local {t x y : Text} (ht : 2 ≤ t.length) :
    lineBreakSize (t ++ x) = lineBreakSize (t ++ y) := by
  match t, ht with
  | c :: d :: t, _ => simp [lineBreakSize]

/-- A long bracket ends where it is closed, whatever follows. -/
theorem longBracket?_local {level n : Nat} {cs v : Text} (h : longBracket? level cs = some (v, n)) :
    2 ≤ n ∧ n ≤ cs.length ∧ ∀ x, longBracket? level (cs.take n ++ x) = some (v, n) := by
  rw [longBracket?] at h
  obtain ⟨⟨content, after⟩, hsplit, heq⟩ := Option.map_eq_some_iff.mp h
  simp only [Prod.mk.injEq] at heq
  obtain ⟨rfl, rfl⟩ := heq
  obtain ⟨b, hcontent, hrest, hlocal⟩ := splitAtFirstFrom_local hsplit
  simp only [List.reverse_nil, List.nil_append] at hcontent
  subst hcontent
  generalize hskip : lineBreakSize (cs.drop (level + 2)) = skip at *
  have hle := lineBreakSize_le (cs.drop (level + 2))
  rw [hskip, List.length_drop] at hle
  have hlen := congrArg List.length hrest
  simp only [List.length_drop, List.length_append, length_closer] at hlen
  have hopen : level + 2 ≤ cs.length := by omega
  -- opener, line break, content, closer, and what follows
  have hwhole : cs.drop (level + 2)
      = ((cs.drop (level + 2)).take skip ++ (content ++ closer level)) ++ after := by
    rw [List.append_assoc, ← hrest, List.take_append_drop]
  have htake : cs.take (level + 2 + skip + content.length + (level + 2))
      = cs.take (level + 2) ++ ((cs.drop (level + 2)).take skip ++ (content ++ closer level)) := by
    rw [Nat.add_assoc, Nat.add_assoc, List.take_add (i := level + 2)]
    congr 1
    conv => lhs; rw [hwhole]
    exact List.take_left' (by simp; omega)
  refine ⟨by omega, by omega, ?_⟩
  intro x
  have hdrop : (cs.take (level + 2 + skip + content.length + (level + 2)) ++ x).drop (level + 2)
      = ((cs.drop (level + 2)).take skip ++ (content ++ closer level)) ++ x := by
    rw [htake, List.append_assoc, List.drop_left' (by simp; omega)]
  have hskip' : lineBreakSize (((cs.drop (level + 2)).take skip ++ (content ++ closer level)) ++ x)
      = skip := by
    rw [lineBreakSize_local (y := after) (by simp; omega), ← hwhole, hskip]
  have hinner : (((cs.drop (level + 2)).take skip ++ (content ++ closer level)) ++ x).drop skip
      = content ++ closer level ++ x := by
    rw [List.append_assoc, List.drop_left' (by simp; omega)]
  have hfound : splitAtFirst? (closer level) (content ++ closer level ++ x) = some (content, x) := hlocal x
  simp only [longBracket?, hdrop, hskip', hinner, hfound, Option.map_some]

/-- A comment is told from the text up to its end. -/
theorem commentSize?_alike {cs y : Text} {n : Nat} (h : commentSize? cs = some n)
    (hy : Alike (cs.drop n) y) : n ≤ cs.length ∧ commentSize? (cs.take n ++ y) = some n := by
  rw [commentSize?] at h ⊢
  rw [openerLevel?_alike hy.take]
  split at h
  · obtain ⟨⟨v, m⟩, hlong, rfl⟩ := Option.map_eq_some_iff.mp h
    obtain ⟨-, hle, hlocal⟩ := longBracket?_local hlong
    exact ⟨hle, by simp [hlocal y]⟩
  · -- the comment ends at a newline or at the end of the text, and no name begins there
    cases h
    have hstop := head_drop_takeWhile (p := fun c => c != code '\n') cs
    have hname : ∀ c, (cs.drop (cs.takeWhile (· != code '\n')).length).head? = some c →
        isNameStart c = false := by
      intro c hc
      obtain rfl : c = code '\n' := by simpa using hstop c hc
      rfl
    refine ⟨length_takeWhile_le cs, ?_⟩
    rw [takeWhile_take_append (by rw [hy.head_eq hname]; exact hstop)]

/-- A gap goes on after a comment. -/
theorem gap_comment {r : Text} {n m : Nat} (hsize : commentSize? r = some n)
    (hgap : gap (r.drop n) = .ok m) : gap (code '-' :: code '-' :: r) = .ok (m + n + 2) := by
  have hblank : isBlank (code '-') = false := by decide
  rw [gap]
  simp [hblank, hsize, hgap]

/-- A gap ends where neither a blank nor a comment begins. -/
theorem gap_none {c : Code} {rest : Text} (hblank : isBlank c = false)
    (hdash : c ≠ code '-' ∨ rest.head? ≠ some (code '-')) : gap (c :: rest) = .ok 0 := by
  have hcomment : ¬(c = code '-' ∧ rest.head? = some (code '-')) := by
    rintro ⟨hc, hr⟩
    exact hdash.elim (absurd hc) (absurd hr)
  rw [gap]
  simp only [hblank, Bool.false_eq_true, if_false, if_neg hcomment]

theorem isBlank_iff {c : Nat} :
    isBlank c = true ↔ c = 32 ∨ c = 9 ∨ c = 13 ∨ c = 10 ∨ c = 12 ∨ c = 11 := by
  simp only [isBlank, code, Char.reduceToNat, Bool.or_eq_true, decide_eq_true_eq, or_assoc]

theorem isBlank_of_isNameStart {c : Nat} (h : isNameStart c = true) : isBlank c = false := by
  rw [isNameStart_iff] at h
  rw [Bool.eq_false_iff, ne_eq, isBlank_iff]
  omega

theorem isBlank_of_isDigit {c : Nat} (h : isDigit c = true) : isBlank c = false := by
  rw [isDigit_iff] at h
  rw [Bool.eq_false_iff, ne_eq, isBlank_iff]
  omega

/-- **A gap does not depend on the name that follows it.** -/
theorem gap_alike {cs y : Text} {k : Nat} (h : gap cs = .ok k) (hy : Alike (cs.drop k) y) :
    k ≤ cs.length ∧ gap (cs.take k ++ y) = .ok k := by
  fun_induction gap cs generalizing k y with
  | case1 =>
    cases h
    cases hy
    exact ⟨Nat.le_refl 0, by simp [gap]⟩
  | case2 c rest hc n hgap ih =>
    cases h
    obtain ⟨hle, hrest⟩ := ih hgap hy
    refine ⟨Nat.succ_le_succ hle, ?_⟩
    simp only [List.take_succ_cons, List.cons_append]
    rw [gap]
    simp [hc, hrest]
  | case3 => cases h
  | case4 => cases h
  | case5 c rest hc hcomment n hsize m hgap ih =>
    cases h
    obtain ⟨rfl, hhead⟩ := hcomment
    obtain ⟨r, rfl⟩ : ∃ r, rest = code '-' :: r := by cases rest <;> simp_all
    simp only [List.drop_succ_cons, List.drop_zero] at hsize hgap ih hy
    have hrest : Alike ((r.drop n).drop m) y := by
      rw [List.drop_drop, Nat.add_comm]
      exact hy
    obtain ⟨hle, hrest'⟩ := ih hgap hrest
    obtain ⟨hle', hsize'⟩ := commentSize?_alike hsize hrest.take
    have htake : (code '-' :: code '-' :: r).take (m + n + 2) ++ y
        = code '-' :: code '-' :: (r.take n ++ ((r.drop n).take m ++ y)) := by
      rw [Nat.add_comm m n, List.take_succ_cons, List.take_succ_cons, List.take_add]
      simp
    refine ⟨?_, ?_⟩
    · simp only [List.length_drop, List.length_cons] at hle ⊢
      omega
    · rw [htake]
      refine gap_comment hsize' ?_
      rwa [List.drop_left' (by simp [Nat.min_eq_left hle'])]
  | case6 => cases h
  | case7 c rest hc hcomment =>
    cases h
    refine ⟨Nat.zero_le _, ?_⟩
    cases hy with
    | cons hy =>
      refine gap_none (by simpa using hc) ?_
      rw [ne_eq, ne_eq, hy.head_iff (by decide)]
      exact Decidable.not_and_iff_or_not.mp hcomment
    | names _ hd =>
      have hdash := isNameStart_ne (x := code '-') (by decide) hd
      exact gap_none (isBlank_of_isNameStart hd) (.inl (by simpa using hdash))

/-! ## 3. Numbers -/

/-- The part of a number that is read digit by digit is decided by itself and by the next code
point. -/
theorem numberSize_local (digit mark : Code → Bool) (cs : Text) :
    (numberSize digit mark cs).1 ≤ cs.length ∧
      ∀ y : Text, y.head? = (cs.drop (numberSize digit mark cs).1).head? →
        numberSize digit mark (cs.take (numberSize digit mark cs).1 ++ y)
          = numberSize digit mark cs := by
  fun_induction numberSize digit mark cs with
  | case1 =>
    refine ⟨Nat.le_refl 0, ?_⟩
    intro y hy
    cases y with
    | nil => rfl
    | cons c y => cases hy
  | case2 digit c cs hdigit n float hsize ih =>
    rw [hsize] at ih
    refine ⟨Nat.succ_le_succ ih.1, ?_⟩
    intro y hy
    simp only [List.take_succ_cons, List.cons_append]
    rw [numberSize.eq_def]
    simp [hdigit, ih.2 y hy]
  | case3 digit cs hdigit ih =>
    refine ⟨Nat.succ_le_succ ih.1, ?_⟩
    intro y hy
    simp only [List.take_succ_cons, List.cons_append]
    rw [numberSize.eq_def]
    simp [hdigit, ih.2 y hy]
  | case4 digit c hdigit hpoint hmark =>
    refine ⟨Nat.le_refl 1, ?_⟩
    intro y hy
    cases y with
    | nil => simp [numberSize, hdigit, hpoint, hmark]
    | cons c y => cases hy
  | case5 digit c hdigit hpoint hmark d ds hsign ih =>
    refine ⟨Nat.succ_le_succ (Nat.succ_le_succ ih.1), ?_⟩
    intro y hy
    simp only [List.take_succ_cons, List.cons_append]
    rw [numberSize.eq_def]
    simp [hdigit, hpoint, hmark, hsign, ih.2 y hy]
  | case6 digit c hdigit hpoint hmark d ds hsign ih =>
    refine ⟨Nat.succ_le_succ ih.1, ?_⟩
    intro y hy
    -- the code point after the mark stays, also where it is not part of the number
    have hnext : ∃ z, (d :: ds).take (numberSize isDigit mark (d :: ds)).1 ++ y = d :: z :=
      List.head?_eq_some_iff.mp (head_take_append hy)
    obtain ⟨z, hz⟩ := hnext
    have hrest := ih.2 y hy
    simp only [List.take_succ_cons, List.cons_append]
    rw [hz] at hrest ⊢
    rw [numberSize.eq_def]
    simp [hdigit, hpoint, hmark, hsign, hrest]
  | case7 digit c cs hdigit hpoint hmark =>
    refine ⟨Nat.zero_le _, ?_⟩
    intro y hy
    cases y with
    | nil => cases hy
    | cons d y =>
      cases hy
      simp only [List.take_zero, List.nil_append]
      rw [numberSize.eq_def]
      simp [hdigit, hpoint, hmark]

/-- A hexadecimal number after its first two code points. -/
def hexadecimalSize (cs : Text) : Nat × Bool :=
  numberSize isHexDigit (fun c => c = code 'p' || c = code 'P') cs

/-- A decimal number. -/
def decimalSize (cs : Text) : Nat × Bool :=
  numberSize isDigit (fun c => c = code 'e' || c = code 'E') cs

/-- The number proper at the front of a text, without the name characters that may follow it. -/
def numberProper (cs : Text) : Nat × Bool :=
  if isHexadecimal cs then ((hexadecimalSize (cs.drop 2)).1 + 2, (hexadecimalSize (cs.drop 2)).2)
  else decimalSize cs

/-- A numeral extends over the letters and digits behind it, which make it malformed. -/
theorem numberExtent_eq (cs : Text) :
    numberExtent cs = ((numberProper cs).1
      + ((cs.drop (numberProper cs).1).takeWhile isNameChar).length, (numberProper cs).2) := by
  cases hhex : isHexadecimal cs with
  | true =>
    simp only [numberExtent, numberProper, hhex, if_true]
    rfl
  | false =>
    simp only [numberExtent, numberProper, hhex, Bool.false_eq_true, if_false]
    rfl

/-- Whether a numeral is hexadecimal is told by two code points. -/
theorem isHexadecimal_local {cs y : Text} {n : Nat} (hn : 1 ≤ n)
    (hy : y.head? = (cs.drop n).head?) : isHexadecimal (cs.take n ++ y) = isHexadecimal cs := by
  match cs, n, hn with
  | [], n, _ => cases y <;> simp_all [isHexadecimal]
  | [c], n + 1, _ => cases y <;> simp_all [isHexadecimal]
  | c :: d :: cs, 1, _ => cases y <;> simp_all [isHexadecimal]
  | c :: d :: cs, n + 2, _ => simp [isHexadecimal]

theorem length_of_isHexadecimal {cs : Text} (h : isHexadecimal cs = true) : 2 ≤ cs.length := by
  match cs with
  | [] => cases h
  | [c] => cases h
  | c :: d :: cs => simp

/-- Where a numeral ends is told by one code point behind it. -/
theorem numberProper_local {cs : Text} (hpos : 1 ≤ (numberProper cs).1) :
    (numberProper cs).1 ≤ cs.length ∧
      ∀ y : Text, y.head? = (cs.drop (numberProper cs).1).head? →
        numberProper (cs.take (numberProper cs).1 ++ y) = numberProper cs := by
  by_cases hhex : isHexadecimal cs = true
  · have hlen := length_of_isHexadecimal hhex
    have hproper : numberProper cs
        = ((hexadecimalSize (cs.drop 2)).1 + 2, (hexadecimalSize (cs.drop 2)).2) := if_pos hhex
    have hdigits : (hexadecimalSize (cs.drop 2)).1 ≤ (cs.drop 2).length ∧
        ∀ y : Text, y.head? = ((cs.drop 2).drop (hexadecimalSize (cs.drop 2)).1).head? →
          hexadecimalSize ((cs.drop 2).take (hexadecimalSize (cs.drop 2)).1 ++ y)
            = hexadecimalSize (cs.drop 2) := numberSize_local _ _ _
    obtain ⟨hle, hlocal⟩ := hdigits
    rw [List.length_drop] at hle
    rw [hproper] at hpos ⊢
    generalize hexadecimalSize (cs.drop 2) = size at *
    refine ⟨by dsimp only; omega, ?_⟩
    intro y hy
    have hhex' := (isHexadecimal_local hpos hy).trans hhex
    have hdrop : (cs.take (size.1 + 2) ++ y).drop 2 = (cs.drop 2).take size.1 ++ y := by
      rw [List.drop_append_of_le_length (by simp; omega), List.drop_take]
      rfl
    rw [List.drop_drop, Nat.add_comm] at hlocal
    rw [numberProper, if_pos hhex', hdrop, hlocal y hy]
  · have hproper : numberProper cs = decimalSize cs := if_neg hhex
    rw [hproper] at hpos ⊢
    obtain ⟨hle, hlocal⟩ : (decimalSize cs).1 ≤ cs.length ∧
        ∀ y : Text, y.head? = (cs.drop (decimalSize cs).1).head? →
          decimalSize (cs.take (decimalSize cs).1 ++ y) = decimalSize cs := numberSize_local _ _ _
    refine ⟨hle, ?_⟩
    intro y hy
    have hhex' : ¬isHexadecimal (cs.take (decimalSize cs).1 ++ y) = true := by
      rwa [isHexadecimal_local hpos hy]
    rw [numberProper, if_neg hhex', hlocal y hy]

/-- A number begins with a digit, or with a point and a digit. -/
theorem numberProper_pos {c : Code} {rest : Text}
    (h : (isDigit c || (c = code '.' && rest.head?.any isDigit)) = true) :
    1 ≤ (numberProper (c :: rest)).1 := by
  rw [numberProper]
  split
  · exact Nat.le_add_left 1 _
  · rw [decimalSize, numberSize.eq_def]
    by_cases hc : isDigit c = true
    · simp [hc]
    · have hpoint : c = code '.' := by simp_all
      subst hpoint
      simp [show isDigit (code '.') = false by decide]

/-- **A number does not depend on the name after the next code points.**  What follows it begins with
no name. -/
theorem numberExtent_alike {cs : Text} (hpos : 1 ≤ (numberProper cs).1) :
    1 ≤ (numberExtent cs).1 ∧ (numberExtent cs).1 ≤ cs.length ∧
      ∀ y : Text, Alike (cs.drop (numberExtent cs).1) y →
        numberExtent (cs.take (numberExtent cs).1 ++ y) = numberExtent cs := by
  obtain ⟨hle, hlocal⟩ := numberProper_local hpos
  rw [numberExtent_eq cs]
  generalize hn : (numberProper cs).1 = n at *
  generalize hk : ((cs.drop n).takeWhile isNameChar).length = k
  have hk' := length_takeWhile_le (p := isNameChar) (cs.drop n)
  rw [hk, List.length_drop] at hk'
  refine ⟨by dsimp only; omega, by dsimp only; omega, ?_⟩
  intro y hy
  have hstop := head_drop_takeWhile (p := isNameChar) (cs.drop n)
  rw [hk, List.drop_drop] at hstop
  have hhead : y.head? = (cs.drop (n + k)).head? := by
    refine hy.head_eq ?_
    intro c hc
    cases hs : isNameStart c with
    | false => rfl
    | true => rw [← hstop c hc, isNameChar_of_isNameStart hs]
  have htake : cs.take (n + k) ++ y = cs.take n ++ ((cs.drop n).take k ++ y) := by
    rw [List.take_add, List.append_assoc]
  have hnext : ((cs.drop n).take k ++ y).head? = (cs.drop n).head? := by
    refine head_take_append ?_
    rwa [List.drop_drop]
  have hproper := hlocal _ hnext
  have hname : (((cs.drop n).take k ++ y).takeWhile isNameChar).length = k := by
    rw [← hk, takeWhile_take_append (by rw [hhead]; exact hstop)]
  have hdrop : (cs.take n ++ ((cs.drop n).take k ++ y)).drop n = (cs.drop n).take k ++ y :=
    List.drop_left' (by simp; omega)
  rw [numberExtent_eq, htake, hproper, hn, hdrop, hname]


/-! ## 4. Strings -/

/-- The digits of a braced escape end before the next code point. -/
theorem escapeDigits_local : ∀ {cs : Text} {value v n : Nat}, escapeDigits value cs = .ok (v, n) →
    n ≤ cs.length ∧ ∀ y : Text, y.head? = (cs.drop n).head? →
      escapeDigits value (cs.take n ++ y) = .ok (v, n)
  | [], value, v, n, h => by
    cases h
    refine ⟨Nat.le_refl 0, ?_⟩
    intro y hy
    cases y with
    | nil => rfl
    | cons c y => cases hy
  | c :: cs, value, v, n, h => by
    rw [escapeDigits] at h
    split at h
    · next hc =>
      cases h
      refine ⟨Nat.zero_le _, ?_⟩
      intro y hy
      obtain ⟨z, rfl⟩ := List.head?_eq_some_iff.mp hy
      simp [escapeDigits, hc]
    · next d hc =>
      dsimp only at h
      split at h
      · cases h
      · next hsmall =>
        split at h
        · next v' n' hrest =>
          cases h
          obtain ⟨hle, hlocal⟩ := escapeDigits_local hrest
          refine ⟨Nat.succ_le_succ hle, ?_⟩
          intro y hy
          simp [escapeDigits, hc, hsmall, hlocal y hy]
        · cases h

/-- A braced escape has digits, as many as there are, and its brace behind them. -/
theorem codeEscape_iff {cs v : Text} {n : Nat} :
    codeEscape cs = .ok (v, n) ↔ ∃ value m, escapeDigits 0 cs = .ok (value, m) ∧ m ≠ 0 ∧
      (cs.drop m).head? = some (code '\x7d') ∧ v = [clampCode value] ∧ n = m + 1 := by
  constructor
  · intro h
    rw [codeEscape] at h
    split at h
    · cases h
    · next value m hdigits =>
      split at h
      · cases h
      · next hm =>
        split at h
        · next hclose =>
          cases h
          exact ⟨value, m, hdigits, hm, hclose, rfl, rfl⟩
        · cases h
  · rintro ⟨value, m, hdigits, hm, hclose, rfl, rfl⟩
    simp only [codeEscape, hdigits, if_neg hm, if_pos hclose]

/-- A code in braces is told up to the brace. -/
theorem codeEscape_local {cs v : Text} {n : Nat} (h : codeEscape cs = .ok (v, n)) :
    n ≤ cs.length ∧ ∀ y : Text, codeEscape (cs.take n ++ y) = .ok (v, n) := by
  obtain ⟨value, m, hdigits, hm, hclose, rfl, rfl⟩ := codeEscape_iff.mp h
  obtain ⟨hle, hlocal⟩ := escapeDigits_local hdigits
  obtain ⟨after, hafter⟩ := List.head?_eq_some_iff.mp hclose
  have hlen := congrArg List.length hafter
  simp only [List.length_drop, List.length_cons] at hlen
  refine ⟨by omega, ?_⟩
  intro y
  have htake : cs.take (m + 1) ++ y = cs.take m ++ code '\x7d' :: y := by
    rw [List.take_add, hafter]
    simp
  have hdigits' := hlocal (code '\x7d' :: y) (by rw [hafter]; rfl)
  have hdrop : (cs.take m ++ code '\x7d' :: y).drop m = code '\x7d' :: y :=
    List.drop_left' (by simp; omega)
  rw [htake]
  exact codeEscape_iff.mpr ⟨value, m, hdigits', hm, by rw [hdrop]; rfl, rfl, rfl⟩

/-- The forms of an escape that begins with `c` in front of `rest`: what it writes, and its size. -/
inductive Escape : Code → Text → Text → Nat → Prop
  | simple {c v : Code} {rest : Text} (hsimple : simpleEscape? c = some v) : Escape c rest [v] 1
  | skip (rest : Text) : Escape (code 'z') rest [] ((rest.takeWhile isBlank).length + 1)
  | hexadecimal {rest : Text} {a b : Nat} (hdigits : (rest.take 2).mapM hexDigit? = some [a, b]) :
      Escape (code 'x') rest [a * 16 + b] 3
  | decimal {c : Code} {rest ds : Text} (hc : isDigit c = true)
      (hds : (c :: rest.take 2).takeWhile isDigit = ds)
      (hsmall : ofDigits 10 (ds.filterMap decimalDigit?) ≤ 255) :
      Escape c rest [ofDigits 10 (ds.filterMap decimalDigit?)] ds.length
  | braced {rest v : Text} {n : Nat} (hcode : codeEscape rest = .ok (v, n)) :
      Escape (code 'u') (code '\x7b' :: rest) v (n + 2)

theorem escape_iff {c : Code} {rest v : Text} {n : Nat} :
    escape (c :: rest) = .ok (v, n) ↔ Escape c rest v n := by
  constructor
  · intro h
    rw [escape.eq_def] at h
    dsimp only at h
    split at h
    · next hsimple =>
      cases h
      exact .simple hsimple
    · split at h
      · next hz =>
        cases h
        exact hz ▸ .skip rest
      · split at h
        · next hx =>
          split at h
          · next hdigits =>
            cases h
            exact hx ▸ .hexadecimal hdigits
          · cases h
        · split at h
          · next hdigit =>
            split at h
            · cases h
            · next hsmall =>
              cases h
              exact .decimal hdigit rfl (Nat.le_of_not_lt hsmall)
          · split at h
            · next hu =>
              split at h
              · next hcode =>
                cases h
                obtain ⟨rfl, hbrace⟩ := hu
                obtain ⟨r, rfl⟩ := List.head?_eq_some_iff.mp hbrace
                exact .braced hcode
              · cases h
            · cases h
  · intro h
    cases h with
    | simple hsimple => simp only [escape, hsimple]
    | skip => rfl
    | hexadecimal hdigits =>
      have hsimple : simpleEscape? (code 'x') = none := by decide
      have hz : code 'x' ≠ code 'z' := by decide
      simp only [escape, hsimple, if_neg hz, if_true, hdigits]
    | decimal hc hds hsmall =>
      have hother : ∀ c < 58, 48 ≤ c → simpleEscape? c = none ∧ c ≠ code 'z' ∧ c ≠ code 'x' := by
        decide
      obtain ⟨hfirst, hlast⟩ := isDigit_iff.mp hc
      obtain ⟨hsimple, hz, hx⟩ := hother c (Nat.lt_succ_of_le hlast) hfirst
      simp only [escape, hsimple, if_neg hz, if_neg hx, if_pos hc, hds, if_neg (Nat.not_lt.mpr hsmall)]
    | braced hcode =>
      have hsimple : simpleEscape? (code 'u') = none := by decide
      have hz : code 'u' ≠ code 'z' := by decide
      have hx : code 'u' ≠ code 'x' := by decide
      have hdigit : ¬isDigit (code 'u') = true := by decide
      simp only [escape, hsimple, if_neg hz, if_neg hx, if_neg hdigit, List.head?_cons, and_self, if_true,
        List.drop_succ_cons, List.drop_zero, hcode]

/-- The digits of a decimal escape, at most three of them. -/
theorem decimalEscape_local {c : Code} {rest y : Text} (hc : isDigit c = true)
    (hy : y.head? = ((c :: rest).drop ((c :: rest.take 2).takeWhile isDigit).length).head?) :
    ((c :: rest).take ((c :: rest.take 2).takeWhile isDigit).length ++ y)
      = c :: (rest.take (((c :: rest.take 2).takeWhile isDigit).length - 1) ++ y) ∧
    (c :: (rest.take (((c :: rest.take 2).takeWhile isDigit).length - 1) ++ y).take 2).takeWhile isDigit
      = (c :: rest.take 2).takeWhile isDigit := by
  rw [List.takeWhile_cons_of_pos hc] at hy ⊢
  refine ⟨by simp, ?_⟩
  rw [List.takeWhile_cons_of_pos hc]
  match rest with
  | [] => cases y <;> simp_all
  | [d] =>
    by_cases hd : isDigit d = true
    · cases y <;> simp_all
    · cases y <;> simp_all
  | d :: e :: rest =>
    by_cases hd : isDigit d = true
    · by_cases he : isDigit e = true
      · simp [hd, he]
      · cases y <;> simp_all
    · cases y <;> simp_all

/-- An escape is decided by itself and by the next code point. -/
theorem escape_local {cs v : Text} {n : Nat} (h : escape cs = .ok (v, n)) :
    n ≤ cs.length ∧ ∀ y : Text, y.head? = (cs.drop n).head? →
      escape (cs.take n ++ y) = .ok (v, n) := by
  cases cs with
  | nil => cases h
  | cons c rest =>
    cases escape_iff.mp h with
    | simple hsimple => exact ⟨by simp, fun y _ => escape_iff.mpr (.simple hsimple)⟩
    | skip =>
      refine ⟨Nat.succ_le_succ (length_takeWhile_le rest), ?_⟩
      intro y hy
      have hstop : ∀ d, y.head? = some d → isBlank d = false := by
        rw [hy]
        exact head_drop_takeWhile rest
      have hskip := escape_iff.mpr (.skip (rest.take (rest.takeWhile isBlank).length ++ y))
      rwa [takeWhile_take_append hstop] at hskip
    | hexadecimal hdigits =>
      rcases rest with _ | ⟨d, _ | ⟨e, rest⟩⟩
      · cases hdigits
      · cases hd : hexDigit? d <;> simp [hd] at hdigits
      · exact ⟨by simp, fun y _ => escape_iff.mpr (.hexadecimal hdigits)⟩
    | decimal hc hds hsmall =>
      subst hds
      constructor
      · have hle := length_takeWhile_le (p := isDigit) (c :: rest.take 2)
        simp only [List.length_cons, List.length_take] at hle ⊢
        omega
      · intro y hy
        obtain ⟨htake, hsame⟩ := decimalEscape_local hc hy
        rw [htake]
        exact escape_iff.mpr (.decimal hc hsame hsmall)
    | braced hcode =>
      obtain ⟨hle, hlocal⟩ := codeEscape_local hcode
      exact ⟨Nat.succ_le_succ (Nat.succ_le_succ hle), fun y _ => escape_iff.mpr (.braced (hlocal y))⟩

/-- A quoted string ends at its closing quote, whatever follows. -/
theorem stringBody_local {quote : Code} {cs v : Text} {n : Nat}
    (h : stringBody quote cs = .ok (v, n)) :
    1 ≤ n ∧ n ≤ cs.length ∧ ∀ y : Text, stringBody quote (cs.take n ++ y) = .ok (v, n) := by
  fun_induction stringBody quote cs generalizing v n with
  | case1 => cases h
  | case2 => cases h
  | case3 rest hline =>
    cases h
    refine ⟨Nat.le_refl 1, by simp, ?_⟩
    intro y
    simp only [List.take_succ_cons, List.take_zero, List.cons_append]
    rw [stringBody]
    simp [hline]
  | case4 => cases h
  | case5 rest e k hescape w m hbody hline hquote ih =>
    cases h
    obtain ⟨hpos, hle, hlocal⟩ := ih hbody
    obtain ⟨hle', hlocal'⟩ := escape_local hescape
    rw [List.length_drop] at hle
    refine ⟨Nat.le_add_left 1 _, by simp only [List.length_cons]; omega, ?_⟩
    intro y
    -- the code point after the escape belongs to the string
    have hnext : ((rest.drop k).take m ++ y).head? = (rest.drop k).head? := by
      obtain ⟨d, ds, hd⟩ := List.exists_cons_of_length_pos (l := rest.drop k) (by simp; omega)
      obtain ⟨m, rfl⟩ := Nat.exists_eq_add_of_le hpos
      rw [hd, Nat.add_comm, List.take_succ_cons]
      rfl
    have htake : (code '\\' :: rest).take (m + k + 1) ++ y
        = code '\\' :: (rest.take k ++ ((rest.drop k).take m ++ y)) := by
      rw [List.take_succ_cons, Nat.add_comm m k, List.take_add]
      simp
    have hdrop : (rest.take k ++ ((rest.drop k).take m ++ y)).drop k = (rest.drop k).take m ++ y :=
      List.drop_left' (by simp; omega)
    rw [htake, stringBody]
    simp [hline, hquote, hlocal' _ hnext, hdrop, hlocal y]
  | case6 => cases h
  | case7 c rest hline hquote hback w m hbody ih =>
    cases h
    obtain ⟨hpos, hle, hlocal⟩ := ih hbody
    refine ⟨Nat.le_add_left 1 _, Nat.succ_le_succ hle, ?_⟩
    intro y
    simp only [List.take_succ_cons, List.cons_append]
    rw [stringBody]
    simp [hline, hquote, hback, hlocal y]
  | case8 => cases h

/-! ## 5. Tokens -/

theorem symbol_spelling (s : Symbol) :
    1 ≤ s.spelling.length ∧ ∀ c ∈ s.spelling, isNameStart c = false := by
  cases s <;> decide

/-- A sign is told from the text before a name, as no sign has a letter. -/
theorem symbol?_alike {a b : Text} (h : Alike a b) : symbol? b = symbol? a := by
  have hsame : ∀ s : Symbol, s.spelling.isPrefixOf b = s.spelling.isPrefixOf a :=
    fun s => h.isPrefixOf (symbol_spelling s).2
  simp only [symbol?, hsame]

/-- What follows a word begins with no name character. -/
theorem Alike.head_of_word {rest y : Text}
    (hy : Alike (rest.drop (rest.takeWhile isNameChar).length) y) :
    ∀ c, y.head? = some c → isNameChar c = false := by
  have hstop := head_drop_takeWhile (p := isNameChar) rest
  rw [hy.head_eq]
  · exact hstop
  · intro c hc
    cases hs : isNameStart c with
    | false => rfl
    | true => rw [← hstop c hc, isNameChar_of_isNameStart hs]

/-- **A token does not depend on the name that follows it.** -/
theorem lexeme_alike {start : Pos} {c : Code} {rest y : Text} {kind : Kind} {n : Nat}
    (h : lexeme start c rest = .ok (kind, n)) (hy : Alike (rest.drop n) y) (start' : Pos) :
    n ≤ rest.length ∧ lexeme start' c (rest.take n ++ y) = .ok (kind, n) := by
  have hdigit : (rest.take n ++ y).head?.any isDigit = rest.head?.any isDigit :=
    hy.take.head_any fun _ => isDigit_of_isNameStart
  have hwhole : Alike (c :: rest) (c :: (rest.take n ++ y)) := hy.take.cons
  cases lexeme_iff.mp h with
  | keyword hname hword | name hname hword =>
    refine ⟨length_takeWhile_le rest, ?_⟩
    simp only [lexeme, if_pos hname, takeWhile_take_append hy.head_of_word, word, hword]
  | number hname hnumber hv =>
    obtain ⟨hpos, hle, hlocal⟩ := numberExtent_alike (numberProper_pos hnumber)
    obtain ⟨m, hm⟩ := Nat.exists_eq_add_of_le' hpos
    rw [hm] at hle hlocal hv
    simp only [hm, Nat.add_sub_cancel] at hy hdigit ⊢
    refine ⟨Nat.le_of_succ_le_succ hle, ?_⟩
    have hextent := hlocal y hy
    simp only [List.take_succ_cons, List.cons_append] at hextent hv
    have htaken : (rest.take m ++ y).take m = rest.take m :=
      List.take_left' (by simp at hle; simp; omega)
    simp only [lexeme, if_neg hname, hdigit, if_pos hnumber, hextent, hm, List.take_succ_cons,
      htaken, hv, Nat.add_sub_cancel]
  | string hname hnumber hquote hbody =>
    obtain ⟨-, hle, hlocal⟩ := stringBody_local hbody
    refine ⟨hle, ?_⟩
    simp only [lexeme, if_neg hname, hdigit, if_neg hnumber, if_pos hquote, hlocal y]
  | long hname hnumber hquote hopen hlong =>
    obtain ⟨hpos, hle, hlocal⟩ := longBracket?_local hlong
    obtain ⟨k, rfl⟩ := Nat.exists_eq_add_of_le' (Nat.le_of_succ_le hpos)
    simp only [Nat.add_sub_cancel] at hwhole hdigit ⊢
    refine ⟨Nat.le_of_succ_le_succ hle, ?_⟩
    have hlong' := hlocal y
    simp only [List.take_succ_cons, List.cons_append] at hlong'
    simp only [lexeme, if_neg hname, hdigit, if_neg hnumber, if_neg hquote,
      openerLevel?_alike hwhole, hopen, hlong', Nat.add_sub_cancel]
  | @symbol s hname hnumber hquote hopen hsymbol =>
    refine ⟨?_, ?_⟩
    · have hfront : s.spelling.isPrefixOf (c :: rest) = true := by
        simpa using List.find?_some hsymbol
      have hle := (List.isPrefixOf_iff_prefix.mp hfront).length_le
      rw [List.length_cons] at hle
      omega
    · simp only [lexeme, if_neg hname, hdigit, if_neg hnumber, if_neg hquote,
        openerLevel?_alike hwhole, hopen, symbol?_alike hwhole, hsymbol]

end LuaServer.Lua
