/-
# The tokens of a text are all of it

A text is made of tokens and of what stands between them, white space and comments (`Filler`).  `Laid`
says that the tokens are slices of the text at certain offsets, one after the other, with nothing but
filler before, between and after them; `Token.Exact` says of one token that its place is that of its
offset, that no longer sign stands there, and that its text alone has this token and no other.

None of these notions mentions the scanners.  What they do is told by one lemma for each:
`openerLevel?_iff`, `longBracket?_eq`, `gap_filler`, `lexeme_alone` and `symbol?_longest`.

Main result: `tokenize_exact`.
-/
import LuaServer.Proofs.Edits
import LuaServer.Proofs.Searching

namespace LuaServer

/-! ## 1. Places -/

/-- The line of an offset: one more than the newlines before it. -/
def lineAt (source : Text) (k : Nat) : Nat := 1 + (source.take k).count (code '\n')

/-- The column of an offset: one more than the code points since the last newline. -/
def columnAt (source : Text) (k : Nat) : Nat :=
  1 + ((source.take k).reverse.takeWhile fun c => c ≠ code '\n').length

/-- The place after a text, told by the text read backwards. -/
theorem Pos.advance_reverse (t : Text) :
    Pos.start.advance t.reverse
      = ⟨1 + t.count (code '\n'), 1 + (t.takeWhile fun c => c ≠ code '\n').length⟩ := by
  induction t with
  | nil => rfl
  | cons c t ih =>
    rw [List.reverse_cons, Pos.advance_append, ih, Pos.advance_cons, Pos.advance_nil, Pos.step]
    by_cases hc : c = code '\n'
    · subst hc
      rw [if_pos rfl, List.count_cons_self, List.takeWhile_cons_of_neg (by simp)]
      rfl
    · rw [if_neg hc, List.count_cons_of_ne hc, List.takeWhile_cons_of_pos (by simpa using hc)]
      rfl

theorem Pos.advance_take (source : Text) (k : Nat) :
    Pos.start.advance (source.take k) = ⟨lineAt source k, columnAt source k⟩ := by
  have hreverse := Pos.advance_reverse (source.take k).reverse
  rw [List.reverse_reverse, List.count_reverse] at hreverse
  exact hreverse

namespace Lua

/-! ## 2. What stands between tokens -/

/-- What opens a long bracket of a level. -/
def opener (level : Nat) : Text := code '[' :: List.replicate level (code '=') ++ [code '[']

/-- The rest of a line comment after its two dashes: one line that does not open a long bracket. -/
structure LineBody (body : Text) : Prop where
  oneLine : ∀ c ∈ body, c ≠ code '\n'
  short : ∀ level, ¬opener level <+: body

/-- What stands in a long bracket: it is closed nowhere before its end. -/
def LongBody (level : Nat) (body : Text) : Prop :=
  ∀ k < body.length, ¬closer level <+: (body ++ closer level).drop k

/-- White space, line comments and long comments.  A line comment goes on to a newline; only at the end
of the text (`final`) may it go on to the end. -/
inductive Filler : (final : Bool) → Text → Prop
  | nil : Filler final []
  | blank : isBlank c = true → Filler final s → Filler final (c :: s)
  | line : LineBody body → Filler final (code '\n' :: s) →
      Filler final (code '-' :: code '-' :: (body ++ code '\n' :: s))
  | lastLine : LineBody body → Filler true (code '-' :: code '-' :: body)
  | long : LongBody level body → Filler final s →
      Filler final (code '-' :: code '-' :: (opener level ++ body ++ closer level ++ s))

theorem opener_append (level : Nat) (rest : Text) :
    opener level ++ rest = code '[' :: (List.replicate level (code '=') ++ code '[' :: rest) := by
  simp [opener]

@[simp] theorem length_opener (level : Nat) : (opener level).length = level + 2 := by
  simp [opener]

/-- The level of an opener is that of the one in front. -/
theorem openerLevel?_iff {t : Text} {level : Nat} :
    openerLevel? t = some level ↔ opener level <+: t := by
  cases t with
  | nil => simp [openerLevel?, opener]
  | cons c cs =>
    rw [openerLevel?]
    constructor
    · intro h
      split at h
      · next hopen =>
        obtain ⟨rfl, hhead⟩ := hopen
        obtain ⟨rest, hrest⟩ := List.head?_eq_some_iff.mp hhead
        have hsigns : cs.takeWhile (· = code '=')
            = List.replicate (cs.takeWhile (· = code '=')).length (code '=') := by
          refine List.eq_replicate_of_mem ?_
          intro d hd
          simpa using List.all_eq_true.mp List.all_takeWhile d hd
        rw [Option.some.injEq] at h
        refine ⟨rest, ?_⟩
        rw [opener_append, ← hrest, ← h, ← hsigns, List.takeWhile_append_dropWhile]
      · cases h
    · rintro ⟨rest, hrest⟩
      rw [opener_append] at hrest
      obtain ⟨rfl, rfl⟩ := List.cons.inj hrest
      have htake : (List.replicate level (code '=') ++ code '[' :: rest).takeWhile (· = code '=')
          = List.replicate level (code '=') :=
        takeWhile_append_stop (by simp) (by simp; decide)
      have hdrop : (List.replicate level (code '=') ++ code '[' :: rest).dropWhile (· = code '=')
          = code '[' :: rest := by
        rw [← drop_takeWhile, htake, List.drop_left' (by simp)]
      rw [hdrop, htake, if_pos ⟨rfl, rfl⟩, List.length_replicate]

theorem mem_lineBreak (cs : Text) : ∀ c ∈ cs.take (lineBreakSize cs), c ≠ code ']' := by
  intro c hc
  cases cs with
  | nil => cases hc
  | cons d ds =>
    rw [lineBreakSize] at hc
    split at hc
    · next hd =>
      subst hd
      rw [List.mem_singleton.mp hc]
      decide
    · split at hc
      · next hd =>
        subst hd
        split at hc
        · next hds =>
          obtain ⟨es, rfl⟩ := List.head?_eq_some_iff.mp hds
          simp only [List.take_succ_cons, List.take_zero, List.mem_cons, List.not_mem_nil, or_false]
            at hc
          rcases hc with rfl | rfl <;> decide
        · rw [List.mem_singleton.mp hc]
          decide
      · cases hc

/-- After its opener a long bracket has a line break that is dropped, then its content up to the first
closer. -/
theorem longBracket?_iff {level n : Nat} {inner v : Text} :
    longBracket? level (opener level ++ inner) = some (v, n) ↔
      ∃ after, inner.drop (lineBreakSize inner) = v ++ closer level ++ after ∧
        Delimits (closer level) v ∧
        n = level + 2 + lineBreakSize inner + v.length + (level + 2) := by
  rw [longBracket?, List.drop_left' (length_opener level), Option.map_eq_some_iff]
  constructor
  · rintro ⟨⟨content, after⟩, hsplit, heq⟩
    obtain ⟨rfl, rfl⟩ := Prod.mk.inj heq
    obtain ⟨hrest, hends⟩ := splitAtFirst?_iff.mp hsplit
    exact ⟨after, hrest, hends, rfl⟩
  · rintro ⟨after, hrest, hends, rfl⟩
    exact ⟨(v, after), splitAtFirst?_iff.mpr ⟨hrest, hends⟩, rfl⟩

/-- A long bracket is its opener, a body and its closer. -/
theorem longBracket?_eq {cs v : Text} {level n : Nat} (hopen : opener level <+: cs)
    (h : longBracket? level cs = some (v, n)) :
    ∃ body rest, cs = opener level ++ body ++ closer level ++ rest ∧ LongBody level body ∧
      n = (opener level ++ body ++ closer level).length := by
  obtain ⟨inner, rfl⟩ := hopen
  obtain ⟨after, hrest, hends, rfl⟩ := longBracket?_iff.mp h
  have hbreak := mem_lineBreak inner
  have hsize := lineBreakSize_le inner
  generalize lineBreakSize inner = skip at *
  have hinner : inner = inner.take skip ++ v ++ closer level ++ after := by
    conv => lhs; rw [← List.take_append_drop skip inner, hrest]
    simp
  have hskip : (inner.take skip).length = skip := List.length_take_of_le hsize
  refine ⟨inner.take skip ++ v, after, ?_, ?_, ?_⟩
  · conv => lhs; rw [hinner]
    simp
  · intro k hk hclose
    by_cases hks : k < skip
    · -- a line break does not begin a closer
      have hget : ((inner.take skip ++ v ++ closer level).drop k).head?
          = some ((inner.take skip).get ⟨k, by omega⟩) := by
        rw [List.head?_drop, List.append_assoc, List.getElem?_append_left (by omega),
          List.getElem?_eq_getElem (by omega)]
        rfl
      obtain ⟨x, hx⟩ := hclose
      rw [← hx] at hget
      have hbracket : (inner.take skip).get ⟨k, by omega⟩ = code ']' := by
        simpa [closer] using hget.symm
      exact hbreak _ (List.get_mem _ _) hbracket
    · refine hends (k - skip) ?_ ?_
      · simp only [List.length_append, hskip] at hk
        omega
      · have hdrop : (inner.take skip ++ v ++ closer level).drop k
            = (v ++ closer level).drop (k - skip) := by
          rw [List.append_assoc, List.drop_append, hskip, List.drop_eq_nil_of_le (by omega),
            List.nil_append]
        rwa [hdrop] at hclose
  · simp only [List.length_append, length_opener, length_closer, hskip]
    omega

/-- **What is skipped is filler.** -/
theorem gap_filler {cs : Text} {k : Nat} (h : gap cs = .ok k) :
    Filler (cs.drop k).isEmpty (cs.take k) := by
  fun_induction gap cs generalizing k with
  | case1 =>
    cases h
    exact .nil
  | case2 c rest hc n hgap ih =>
    cases h
    exact .blank hc (ih hgap)
  | case3 => cases h
  | case4 => cases h
  | case5 c rest hc hcomment n hsize m hgap ih =>
    cases h
    obtain ⟨rfl, hhead⟩ := hcomment
    obtain ⟨r, rfl⟩ := List.head?_eq_some_iff.mp hhead
    simp only [List.drop_succ_cons, List.drop_zero] at hsize hgap ih
    have hrest := ih hgap
    have htake : (code '-' :: code '-' :: r).take (m + n + 2)
        = code '-' :: code '-' :: (r.take n ++ (r.drop n).take m) := by
      rw [Nat.add_comm m n, List.take_succ_cons, List.take_succ_cons, List.take_add]
    have hdrop : (code '-' :: code '-' :: r).drop (m + n + 2) = (r.drop n).drop m := by
      rw [List.drop_succ_cons, List.drop_succ_cons, List.drop_drop, Nat.add_comm]
    rw [htake, hdrop]
    rw [commentSize?] at hsize
    split at hsize
    · next level hopen =>
      obtain ⟨⟨v, n'⟩, hlong, rfl⟩ := Option.map_eq_some_iff.mp hsize
      obtain ⟨body, after, hr, hbody, hn⟩ := longBracket?_eq (openerLevel?_iff.mp hopen) hlong
      dsimp only at hn hrest ⊢
      have hfront : r.take n' = opener level ++ body ++ closer level := by
        rw [hr]
        exact List.take_left' hn.symm
      rw [hfront]
      exact .long hbody hrest
    · next hopen =>
      cases hsize
      have hbody : LineBody (r.takeWhile (· != code '\n')) := by
        refine ⟨?_, ?_⟩
        · intro c hc
          simpa using List.all_eq_true.mp List.all_takeWhile c hc
        · intro level hlevel
          have hopen' := openerLevel?_iff.mpr (hlevel.trans (List.takeWhile_prefix _))
          rw [hopen] at hopen'
          cases hopen'
      rw [take_takeWhile]
      cases hafter : r.drop (r.takeWhile (· != code '\n')).length with
      | nil =>
        rw [hafter, gap] at hgap
        cases hgap
        rw [List.take_nil, List.append_nil]
        exact .lastLine hbody
      | cons d s =>
        -- the comment ends before a newline, which is white space itself
        obtain rfl : d = code '\n' := by
          have hstop := head_drop_takeWhile (p := fun c => c != code '\n') r d (by rw [hafter]; rfl)
          simpa using hstop
        rw [hafter] at hgap hrest
        have hblank : isBlank (code '\n') = true := by decide
        rw [gap, if_pos hblank] at hgap
        split at hgap
        · cases hgap
          exact .line hbody hrest
        · cases hgap
  | case6 => cases h
  | case7 =>
    cases h
    exact .nil

/-! ## 3. Tokens by themselves -/

/-- The part of a number that is read digit by digit, with nothing after it. -/
theorem numberSize_take (digit mark : Code → Bool) (cs : Text) :
    numberSize digit mark (cs.take (numberSize digit mark cs).1) = numberSize digit mark cs := by
  fun_induction numberSize digit mark cs with
  | case1 => rfl
  | case2 digit c cs hdigit n float hsize ih =>
    rw [hsize] at ih
    rw [List.take_succ_cons, numberSize.eq_def]
    simp [hdigit, ih]
  | case3 digit cs hdigit ih =>
    rw [List.take_succ_cons, numberSize.eq_def]
    simp [hdigit, ih]
  | case4 digit c hdigit hpoint hmark =>
    simp [numberSize, hdigit, hpoint, hmark]
  | case5 digit c hdigit hpoint hmark d ds hsign ih =>
    rw [List.take_succ_cons, List.take_succ_cons, numberSize.eq_def]
    simp [hdigit, hpoint, hmark, hsign, ih]
  | case6 digit c hdigit hpoint hmark d ds hsign ih =>
    rw [List.take_succ_cons, numberSize.eq_def]
    cases htake : (d :: ds).take (numberSize isDigit mark (d :: ds)).1 with
    | nil =>
      rw [htake] at ih
      simp [hdigit, hpoint, hmark, ← ih, numberSize]
    | cons d' ds' =>
      -- the code point after the mark is the same if it belongs to the number
      obtain rfl : d' = d := by
        have hhead := congrArg List.head? htake
        cases hn : (numberSize isDigit mark (d :: ds)).1 with
        | zero => simp [hn] at htake
        | succ n => simp [hn] at hhead; exact hhead.symm
      rw [htake] at ih
      simp [hdigit, hpoint, hmark, hsign, ih]
  | case7 digit c cs hdigit hpoint hmark => simp [numberSize]

theorem isHexadecimal_of_take {cs : Text} {n : Nat} (h : isHexadecimal (cs.take n) = true) :
    isHexadecimal cs = true := by
  match cs, n with
  | [], _ => simp [isHexadecimal] at h
  | c :: cs, 0 => simp [isHexadecimal] at h
  | [c], n + 1 => simp [isHexadecimal] at h
  | c :: d :: cs, 1 => simp [isHexadecimal] at h
  | c :: d :: cs, n + 2 => simpa [isHexadecimal] using h

theorem numberProper_take (cs : Text) :
    numberProper (cs.take (numberProper cs).1) = numberProper cs := by
  by_cases hhex : isHexadecimal cs = true
  · have hproper : numberProper cs
        = ((hexadecimalSize (cs.drop 2)).1 + 2, (hexadecimalSize (cs.drop 2)).2) := if_pos hhex
    have hsize : hexadecimalSize ((cs.drop 2).take (hexadecimalSize (cs.drop 2)).1)
        = hexadecimalSize (cs.drop 2) := numberSize_take _ _ _
    rw [hproper]
    generalize hexadecimalSize (cs.drop 2) = size at *
    have hhex' : isHexadecimal (cs.take (size.1 + 2)) = true := by
      match cs, hhex with
      | c :: d :: cs, hhex => simpa [isHexadecimal] using hhex
    have hdrop : (cs.take (size.1 + 2)).drop 2 = (cs.drop 2).take size.1 := List.drop_take
    rw [numberProper, if_pos hhex', hdrop, hsize]
  · have hproper : numberProper cs = decimalSize cs := if_neg hhex
    have hsize : decimalSize (cs.take (decimalSize cs).1) = decimalSize cs := numberSize_take _ _ _
    rw [hproper, numberProper, if_neg (mt isHexadecimal_of_take hhex), hsize]

/-- **A number is the same with nothing after it.** -/
theorem numberExtent_take {cs : Text} (hpos : 1 ≤ (numberProper cs).1) :
    numberExtent (cs.take (numberExtent cs).1) = numberExtent cs := by
  obtain ⟨hle, hlocal⟩ := numberProper_local hpos
  have htake := numberProper_take cs
  rw [numberExtent_eq cs]
  dsimp only
  generalize hn : (numberProper cs).1 = n at *
  generalize hnames : (cs.drop n).takeWhile isNameChar = names
  have hall : names.all isNameChar = true := hnames ▸ List.all_takeWhile
  have hfront : cs.take (n + names.length) = cs.take n ++ names := by
    rw [List.take_add, ← hnames, take_takeWhile]
  have hproper : numberProper (cs.take n ++ names) = numberProper cs := by
    cases names with
    | nil => rw [List.append_nil, htake]
    | cons c names =>
      refine hlocal _ ?_
      have hprefix : c :: names <+: cs.drop n := hnames ▸ List.takeWhile_prefix _
      obtain ⟨x, hx⟩ := hprefix
      rw [← hx]
      rfl
  have hdrop : (cs.take n ++ names).drop n = names := List.drop_left' (List.length_take_of_le hle)
  have hstay : names.takeWhile isNameChar = names := by
    have hstop := takeWhile_append_stop hall (y := []) (by simp)
    rwa [List.append_nil] at hstop
  rw [hfront, numberExtent_eq, hproper, hn, hdrop, hstay]

/-- A sign by itself is that sign. -/
theorem lexeme_symbol (s : Symbol) (start : Pos) :
    ∃ c rest, s.spelling = c :: rest ∧ lexeme start c rest = .ok (.symbol s, rest.length) := by
  cases s <;> exact ⟨_, _, rfl, rfl⟩

theorem symbol?_eq {cs : Text} {s : Symbol} (h : symbol? cs = some s) : s.spelling <+: cs := by
  have hfront := List.find?_some h
  exact List.isPrefixOf_iff_prefix.mp (by simpa using hfront)

/-- A number that begins with a point has a digit after it. -/
theorem numberProper_point {d : Code} (ds : Text) (hd : isDigit d = true) :
    2 ≤ (numberProper (code '.' :: d :: ds)).1 := by
  have hpoint : isDigit (code '.') = false := by decide
  have hzero : code '.' ≠ code '0' := by decide
  rw [numberProper, if_neg (by simp [isHexadecimal, hzero]), decimalSize, numberSize.eq_def]
  simp only [hpoint, Bool.false_eq_true, if_false, if_true]
  rw [numberSize.eq_def]
  simp [hd]

theorem startsNumber_take {c : Code} {rest : Text}
    (h : (isDigit c || (c = code '.' && rest.head?.any isDigit)) = true) :
    (isDigit c || (c = code '.'
      && (rest.take ((numberExtent (c :: rest)).1 - 1)).head?.any isDigit)) = true := by
  by_cases hc : isDigit c = true
  · rw [hc, Bool.true_or]
  · obtain ⟨rfl, hdigit⟩ : c = code '.' ∧ rest.head?.any isDigit = true := by simpa [hc] using h
    cases rest with
    | nil => cases hdigit
    | cons d ds =>
      have hpoint := numberProper_point ds (show isDigit d = true from hdigit)
      have hextent : 2 ≤ (numberExtent (code '.' :: d :: ds)).1 := by
        rw [numberExtent_eq]
        exact Nat.le_add_right_of_le hpoint
      obtain ⟨m, hm⟩ := Nat.exists_eq_add_of_le' hextent
      have hsize : m + 2 - 1 = m + 1 := rfl
      rw [hm, hsize, List.take_succ_cons]
      simpa using .inr hdigit

theorem not_startsNumber {c : Code} (hdigit : isDigit c = false) (hpoint : c ≠ code '.')
    (t : Text) : ¬(isDigit c || (c = code '.' && t.head?.any isDigit)) = true := by
  simp [hdigit, hpoint]

theorem eq_of_opener {level : Nat} {c : Code} {rest : Text} (h : opener level <+: c :: rest) :
    c = code '[' := by
  obtain ⟨t, ht⟩ := h
  rw [opener_append] at ht
  exact (List.cons.inj ht).1.symm

/-- **A token is the same with nothing after it.** -/
theorem lexeme_alone {start : Pos} {c : Code} {rest : Text} {kind : Kind} {n : Nat}
    (h : lexeme start c rest = .ok (kind, n)) (start' : Pos) :
    lexeme start' c (rest.take n) = .ok (kind, n) := by
  cases lexeme_iff.mp h with
  | keyword hname hword | name hname hword =>
    have hrun : (rest.take (rest.takeWhile isNameChar).length).takeWhile isNameChar
        = rest.takeWhile isNameChar := by
      rw [← List.append_nil (rest.take _)]
      exact takeWhile_take_append (by simp)
    simp only [lexeme, if_pos hname, word, hrun, hword]
  | number hname hnumber hv =>
    have hpos := numberProper_pos hnumber
    obtain ⟨m, hm⟩ := Nat.exists_eq_add_of_le' (numberExtent_alike hpos).1
    have hextent := numberExtent_take hpos
    have hstart := startsNumber_take hnumber
    rw [hm] at hv hextent hstart ⊢
    rw [List.take_succ_cons] at hv hextent
    rw [Nat.add_sub_cancel] at hstart ⊢
    have htaken : (rest.take m).take m = rest.take m := by rw [List.take_take, Nat.min_self]
    simp only [lexeme, if_neg hname, if_pos hstart, hextent, hm, List.take_succ_cons, htaken, hv,
      Nat.add_sub_cancel]
  | string hname _ hquote hbody =>
    have hquoted := (stringBody_local hbody).2.2 []
    rw [List.append_nil] at hquoted
    have hnumber := fun t => not_startsNumber (c := c) (t := t)
      (by rcases hquote with rfl | rfl <;> decide) (by rcases hquote with rfl | rfl <;> decide)
    simp only [lexeme, if_neg hname, if_neg (hnumber _), if_pos hquote, hquoted]
  | @long level v m hname _ hquote hopen hlong =>
    have hlocal := longBracket?_local hlong
    have hlong' := hlocal.2.2 []
    rw [List.append_nil] at hlong'
    have hopens := openerLevel?_iff.mp hopen
    obtain ⟨body, after, hcs, -, hm⟩ := longBracket?_eq hopens hlong
    have hfront : opener level <+: (c :: rest).take m := by
      rw [hcs, List.take_left' hm.symm, List.append_assoc]
      exact List.prefix_append _ _
    obtain rfl := eq_of_opener hopens
    obtain ⟨k, rfl⟩ := Nat.exists_eq_add_of_le' (Nat.le_of_succ_le hlocal.1)
    rw [List.take_succ_cons] at hlong' hfront
    have hnumber := not_startsNumber (c := code '[') (t := rest.take k) (by decide) (by decide)
    simp only [lexeme, if_neg hname, Nat.add_sub_cancel, if_neg hnumber, if_neg hquote,
      openerLevel?_iff.mpr hfront, hlong']
  | @symbol s _ _ _ _ hsymbol =>
    obtain ⟨d, ds, hs, hlexeme⟩ := lexeme_symbol s start'
    obtain ⟨x, hx⟩ := symbol?_eq hsymbol
    rw [hs, List.cons_append] at hx
    obtain ⟨rfl, rfl⟩ := List.cons.inj hx
    have hsize : s.spelling.length - 1 = ds.length := by simp [hs]
    rw [hsize, List.take_left' rfl]
    exact hlexeme

/-- A number is as long as it can be, and its text has its value. -/
theorem lexeme_number {start : Pos} {c : Code} {rest : Text} {v : Numeral} {n : Nat}
    (h : lexeme start c rest = .ok (.number v, n)) :
    (isDigit c || (c = code '.' && rest.head?.any isDigit)) = true ∧
      c :: rest.take n = (c :: rest).take (numberExtent (c :: rest)).1 ∧
      numeral? (c :: rest.take n) (numberExtent (c :: rest)).2 = some v := by
  cases lexeme_iff.mp h with
  | number _ hnumber hv =>
    obtain ⟨m, hm⟩ := Nat.exists_eq_add_of_le' (numberExtent_alike (numberProper_pos hnumber)).1
    have htext : c :: rest.take ((numberExtent (c :: rest)).1 - 1)
        = (c :: rest).take (numberExtent (c :: rest)).1 := by
      rw [hm, Nat.add_sub_cancel, List.take_succ_cons]
    exact ⟨hnumber, htext, htext ▸ hv⟩

/-- **The sign at the front of a text is the longest one.** -/
theorem symbol?_longest {cs : Text} {s s' : Symbol} (h : symbol? cs = some s)
    (h' : s'.spelling <+: cs) : s'.spelling.length ≤ s.spelling.length := by
  have hfront := symbol?_eq h
  obtain ⟨-, before, after, hall, hbefore⟩ := List.find?_eq_some_iff_append.mp h
  -- no sign is the beginning of one that comes later in the list
  have horder : Symbol.all.Pairwise fun a b => ¬a.spelling <+: b.spelling := by decide
  have hmem : s' ∈ before ++ s :: after := hall ▸ s'.mem_all
  rcases List.mem_append.mp hmem with hmem | hmem
  · have hnot := hbefore s' hmem
    rw [List.isPrefixOf_iff_prefix.mpr h'] at hnot
    cases hnot
  · rcases List.mem_cons.mp hmem with rfl | hmem
    · exact Nat.le_refl _
    · rw [hall] at horder
      have hnot := List.rel_of_pairwise_cons (List.pairwise_append.mp horder).2.1 hmem
      rcases List.prefix_or_prefix_of_prefix hfront h' with hp | hp
      · exact absurd hp hnot
      · exact hp.length_le

/-! ## 4. Texts and their tokens -/

/-- A gap ends before something that is no white space and begins no comment. -/
theorem gap_stops {cs : Text} {k : Nat} (h : gap cs = .ok k) {c : Code} {rest : Text}
    (hdrop : cs.drop k = c :: rest) :
    isBlank c = false ∧ (c ≠ code '-' ∨ rest.head? ≠ some (code '-')) := by
  fun_induction gap cs generalizing k with
  | case1 => simp at hdrop
  | case2 d ds hd n hgap ih =>
    cases h
    exact ih hgap hdrop
  | case3 => cases h
  | case4 => cases h
  | case5 d ds hd hcomment n hsize m hgap ih =>
    cases h
    refine ih hgap ?_
    rw [← hdrop, List.drop_drop, List.drop_drop, ← List.drop_succ_cons (a := d)]
    congr 1
    omega
  | case6 => cases h
  | case7 d ds hd hcomment =>
    cases h
    cases hdrop
    exact ⟨by simpa using hd, Decidable.not_and_iff_or_not.mp hcomment⟩

/-- A text that is one lexeme is one token. -/
theorem tokenize_one {c : Code} {tail : Text} {kind : Kind} (hgap : gap (c :: tail) = .ok 0)
    (hlexeme : lexeme .start c tail = .ok (kind, tail.length)) :
    tokenize (c :: tail)
      = .ok [⟨kind, .start, c :: tail⟩, ⟨.eof, Pos.start.advance (c :: tail), []⟩] := by
  have hgap' : gap ([] ++ (c :: tail ++ [])) = .ok 0 := by rwa [List.nil_append, List.append_nil]
  have hlexeme' : lexeme (Pos.start.advance []) c (tail ++ []) = .ok (kind, tail.length) := by
    rwa [List.append_nil]
  have hlexes := Lexes.piece hgap' hlexeme' (.rest (by rw [gap]; rfl))
  rw [List.nil_append, List.append_nil] at hlexes
  exact tokensFrom_iff.mpr hlexes

/-- The text of a token has that token and no other. -/
theorem tokenize_alone {cs : Text} {k : Nat} (hgap : gap cs = .ok k) {c : Code} {rest : Text}
    (hdrop : cs.drop k = c :: rest) {start : Pos} {kind : Kind} {n : Nat}
    (hlexeme : lexeme start c rest = .ok (kind, n)) :
    ∃ stop, tokenize (c :: rest.take n)
      = .ok [⟨kind, .start, c :: rest.take n⟩, ⟨.eof, stop, []⟩] := by
  obtain ⟨hblank, hdash⟩ := gap_stops hgap hdrop
  have hgap' : gap (c :: rest.take n) = .ok 0 := by
    refine gap_none hblank (hdash.imp_right ?_)
    cases rest <;> cases n <;> simp
  have hn := (lexeme_alike hlexeme (.refl _) start).1
  refine ⟨_, tokenize_one hgap' ?_⟩
  rw [List.length_take_of_le hn]
  exact lexeme_alone hlexeme _

/-- The source from the offset `k` on: filler, and tokens that each are the slice at an offset. -/
inductive Laid (source : Text) : (k : Nat) → List (Nat × Token) → Prop
  | finish : k ≤ source.length → Filler true (source.drop k) → e.kind = .eof → e.text = [] →
      Laid source k [(source.length, e)]
  | token : k ≤ i → Filler false ((source.take i).drop k) → t.kind ≠ .eof → t.text ≠ [] →
      t.text <+: source.drop i → Laid source (i + t.text.length) ts → Laid source k ((i, t) :: ts)

/-- What is exact about a token at an offset of the source. -/
structure Token.Exact (source : Text) (i : Nat) (t : Token) : Prop where
  line : t.pos.line = lineAt source i
  column : t.pos.column = columnAt source i
  /-- A sign is written out, and no longer one stands there. -/
  longest : ∀ s, t.kind = .symbol s → t.text = s.spelling ∧
    ∀ s' : Symbol, s'.spelling <+: source.drop i → s'.spelling.length ≤ s.spelling.length
  /-- By itself, the text of the token is this token. -/
  alone : t.kind ≠ .eof → ∃ stop, tokenize t.text = .ok [⟨t.kind, .start, t.text⟩, ⟨.eof, stop, []⟩]

/-- A sign that is read is written out, and the longest one. -/
theorem lexeme_eq_symbol {start : Pos} {c : Code} {rest : Text} {s : Symbol} {n : Nat}
    (h : lexeme start c rest = .ok (.symbol s, n)) :
    symbol? (c :: rest) = some s ∧ n + 1 = s.spelling.length := by
  cases lexeme_iff.mp h with
  | symbol _ _ _ _ hsymbol => exact ⟨hsymbol, Nat.sub_add_cancel (symbol_spelling s).1⟩

/-- The first token of a text that stands after `before`. -/
theorem Token.exact_piece {before g tail after : Text} {d : Code} {kind : Kind}
    (hgap : gap (g ++ (d :: tail ++ after)) = .ok g.length)
    (hlexeme : lexeme (Pos.start.advance (before ++ g)) d (tail ++ after) = .ok (kind, tail.length)) :
    Token.Exact (before ++ (g ++ (d :: tail ++ after))) (before ++ g).length
      ⟨kind, Pos.start.advance (before ++ g), d :: tail⟩ := by
  have hsource : before ++ (g ++ (d :: tail ++ after)) = (before ++ g) ++ (d :: (tail ++ after)) := by
    simp
  have hplace := Pos.advance_take (before ++ (g ++ (d :: tail ++ after))) (before ++ g).length
  rw [hsource, List.take_left' rfl, ← hsource] at hplace
  have hdrop : (before ++ (g ++ (d :: tail ++ after))).drop (before ++ g).length
      = d :: (tail ++ after) := by
    rw [hsource, List.drop_left' rfl]
  refine ⟨congrArg Pos.line hplace, congrArg Pos.column hplace, ?_, ?_⟩
  · rintro s hs
    cases hs
    obtain ⟨hsymbol, hsize⟩ := lexeme_eq_symbol hlexeme
    refine ⟨?_, fun s' hs' => symbol?_longest hsymbol (hdrop ▸ hs')⟩
    have hfront : d :: tail <+: d :: (tail ++ after) := ⟨after, rfl⟩
    have hprefix : d :: tail <+: s.spelling :=
      List.prefix_of_prefix_length_le hfront (symbol?_eq hsymbol) (Nat.le_of_eq hsize)
    exact hprefix.eq_of_length hsize
  · intro _
    have hrest : (g ++ (d :: tail ++ after)).drop g.length = d :: (tail ++ after) :=
      List.drop_left' rfl
    have halone := tokenize_alone hgap hrest hlexeme
    rwa [List.take_left' rfl] at halone

/-- A text that stands after `before`. -/
theorem Lexes.laid {pos : Pos} {cs : Text} {ts : List Token} (h : Lexes pos cs ts) (before : Text)
    (hpos : pos = Pos.start.advance before) :
    ∃ offsets : List Nat, offsets.length = ts.length ∧
      Laid (before ++ cs) before.length (offsets.zip ts) ∧
      ∀ p ∈ offsets.zip ts, p.2.Exact (before ++ cs) p.1 := by
  induction h using Lexes.induction_pieces generalizing before with
  | finish pos g hgap =>
    subst hpos
    have hfiller := gap_filler hgap
    rw [List.take_length, List.drop_length, List.isEmpty_nil] at hfiller
    have hplace := Pos.advance_take (before ++ g) (before ++ g).length
    rw [List.take_length, Pos.advance_append] at hplace
    refine ⟨[(before ++ g).length], rfl, ?_, ?_⟩
    · exact .finish (by simp) (by rwa [List.drop_left' rfl]) rfl rfl
    · intro p hp
      obtain rfl := List.mem_singleton.mp hp
      exact ⟨congrArg Pos.line hplace, congrArg Pos.column hplace, by simp, by simp⟩
  | piece pos g d tail after kind ts hgap hlexeme _ ih =>
    subst hpos
    rw [← Pos.advance_append] at hlexeme ih
    obtain ⟨offsets, hlength, hlaid, hexact⟩ :=
      ih (before ++ g ++ (d :: tail)) (by simp [Pos.advance_append])
    have hsource : before ++ g ++ (d :: tail) ++ after = before ++ (g ++ (d :: tail ++ after)) := by
      simp
    have hsize : (before ++ g ++ (d :: tail)).length = (before ++ g).length + (d :: tail).length :=
      List.length_append
    rw [hsource, hsize] at hlaid
    rw [hsource] at hexact
    have hfiller := gap_filler hgap
    rw [List.take_left' rfl, List.drop_left' rfl] at hfiller
    rw [← Pos.advance_append]
    refine ⟨(before ++ g).length :: offsets, congrArg Nat.succ hlength, ?_, ?_⟩
    · refine .token (by simp) ?_ (lexeme_kind_ne_eof hlexeme) (by simp) ?_ hlaid
      · rw [← hsource, List.append_assoc (before ++ g), List.take_left' rfl, List.drop_left' rfl]
        exact hfiller
      · rw [← hsource, List.append_assoc (before ++ g), List.drop_left' rfl]
        exact List.prefix_append _ _
    · intro p hp
      rcases List.mem_cons.mp hp with rfl | hp
      · exact Token.exact_piece hgap hlexeme
      · exact hexact p hp

/-- **Lexing loses nothing.**  The tokens of a text are slices of it at offsets that go up, with nothing
but white space and comments before, between and after them; the end of the text is the last token.
Every token stands on the line and in the column of its offset, a sign is the longest one that stands
there, and the text of a token by itself has that token only. -/
theorem tokenize_exact {source : Text} {tokens : List Token} (h : tokenize source = .ok tokens) :
    ∃ offsets : List Nat, offsets.length = tokens.length ∧ Laid source 0 (offsets.zip tokens) ∧
      ∀ p ∈ offsets.zip tokens, p.2.Exact source p.1 :=
  (tokensFrom_iff.mp h).laid [] rfl

/-- The text `a...--[[⏎]]"b"` has a name, the sign of three points and, on the second line, a string. -/
theorem tokenize_exact_comment :
    ∃ tokens, tokenize (text "a...--[[\n]]\"b\"") = .ok tokens ∧
      tokens.map (fun t => (t.text, t.pos.line, t.pos.column))
        = [(text "a", 1, 1), (text "...", 1, 2), (text "\"b\"", 2, 3), ([], 2, 6)] ∧
      ∃ offsets : List Nat, offsets.length = tokens.length ∧
        Laid (text "a...--[[\n]]\"b\"") 0 (offsets.zip tokens) ∧
        ∀ p ∈ offsets.zip tokens, p.2.Exact (text "a...--[[\n]]\"b\"") p.1 := by
  have hrun : (tokenize (text "a...--[[\n]]\"b\"")).toOption.map
      (fun ts => ts.map (fun t => (t.text, t.pos.line, t.pos.column)))
      = some [(text "a", 1, 1), (text "...", 1, 2), (text "\"b\"", 2, 3), ([], 2, 6)] := by
    decide +kernel
  cases h : tokenize (text "a...--[[\n]]\"b\"") with
  | error e =>
    rw [h] at hrun
    cases hrun
  | ok tokens =>
    rw [h] at hrun
    exact ⟨tokens, rfl, Option.some.inj hrun, tokenize_exact h⟩

end Lua

end LuaServer
