/-
# Strings that go on in the next line

Behind a backslash in a quoted string a newline is an escape and a carriage return is none.  This is the
one place where the scanners tell a text from the same text with line breaks of two code points: a string
with such a break is refused, and every other token is as long as its text.

Main results: `lexeme_crlf`, `lexeme_continued`; `Lexes.crlf`, `Lexes.continued`.
-/
import LuaServer.Proofs.DigitRuns
import LuaServer.Proofs.LineBreaks

namespace LuaServer.Lua

/-! ## 1. Escapes -/

/-- The hexadecimal digits, told by their values. -/
theorem inline_hexDigit? : Inline fun c => (hexDigit? c).isSome := by decide

/-- The digits of a braced escape are on one line. -/
theorem escapeDigits_crlf (value : Nat) (cs : Text) :
    escapeDigits value (crlf cs) = escapeDigits value cs ∧
      ∀ v n, escapeDigits value cs = .ok (v, n) →
        (cs.take n).all (fun c => (hexDigit? c).isSome) = true := by
  induction cs generalizing value with
  | nil => simp
  | cons c cs ih =>
    cases hdigit : hexDigit? c with
    | none =>
      constructor
      · by_cases hc : c = code '\n'
        · subst hc
          rfl
        · simp [crlf_cons hc, escapeDigits, hdigit]
      · intro v n h
        simp only [escapeDigits, hdigit, Except.ok.injEq, Prod.mk.injEq] at h
        simp [← h.2]
    | some d =>
      have hc := inline_hexDigit?.ne (c := c) (by simp [hdigit])
      obtain ⟨hsame, htaken⟩ := ih (value * 16 + d)
      constructor
      · simp [crlf_cons hc.1, escapeDigits, hdigit, hsame]
      · intro v n h
        simp only [escapeDigits, hdigit] at h
        split at h
        · cases h
        · split at h
          · next hrest =>
            cases h
            simpa [hdigit] using htaken _ _ hrest
          · cases h

theorem codeEscape_crlf {cs v : Text} {n : Nat} (h : codeEscape cs = .ok (v, n)) :
    codeEscape (crlf cs) = .ok (v, n) ∧ Unbroken (cs.take n) ∧ code '\\' ∉ cs.take n := by
  obtain ⟨hsame, htaken⟩ := escapeDigits_crlf 0 cs
  obtain ⟨value, m, hdigits, hm, hclose, rfl, rfl⟩ := codeEscape_iff.mp h
  have hall := htaken _ _ hdigits
  have hunbroken := unbroken_of_all inline_hexDigit? hall
  obtain ⟨hle, -⟩ := escapeDigits_local hdigits
  obtain ⟨after, hafter⟩ := List.head?_eq_some_iff.mp hclose
  have htake : cs.take (m + 1) = cs.take m ++ [code '\x7d'] := by
    rw [List.take_add, hafter]
    rfl
  have hclose' : ((crlf cs).drop m).head? = some (code '\x7d') := by
    rwa [drop_crlf_of_unbroken hle hunbroken, head_crlf_iff (by decide) (by decide)]
  refine ⟨codeEscape_iff.mpr ⟨value, m, hsame.trans hdigits, hm, hclose', rfl, rfl⟩, ?_⟩
  rw [htake]
  constructor
  · exact hunbroken.append (.cons (by decide) (by decide) (by simp [Unbroken]))
  · simp only [List.mem_append, List.mem_singleton, not_or]
    refine ⟨fun hmem => ?_, by decide⟩
    exact absurd (List.all_eq_true.mp hall _ hmem) (by decide)

/-- The two digits of a hexadecimal escape. -/
theorem hexEscape_crlf {rest : Text} {a b : Nat} (h : (rest.take 2).mapM hexDigit? = some [a, b]) :
    (crlf rest).take 2 = rest.take 2 ∧ crlf (rest.take 2) = rest.take 2 ∧ (rest.take 2).length = 2 ∧
      code '\\' ∉ rest.take 2 := by
  obtain ⟨hall, hvalues⟩ := mapM_eq_some_iff.mp h
  have hunbroken : Unbroken (rest.take 2) :=
    unbroken_of_all inline_hexDigit? (List.all_eq_true.mpr hall)
  have htwo : (rest.take 2).length = 2 := by
    rw [← length_filterMap_digits hall, hvalues]
    rfl
  have hle : 2 ≤ rest.length := htwo ▸ List.length_take_le' 2 rest
  refine ⟨take_crlf_of_unbroken hle hunbroken, crlf_of_unbroken hunbroken, htwo, ?_⟩
  exact fun hmem => absurd (hall _ hmem) (by decide)

/-- The digits of a decimal escape, at most three of them. -/
theorem decimalEscape_crlf {c : Code} (hc : isDigit c = true) (rest : Text) :
    (c :: (crlf rest).take 2).takeWhile isDigit = (c :: rest.take 2).takeWhile isDigit ∧
      (c :: rest).take ((c :: rest.take 2).takeWhile isDigit).length
        = (c :: rest.take 2).takeWhile isDigit := by
  constructor
  · rw [List.takeWhile_cons_of_pos hc, List.takeWhile_cons_of_pos hc, ← List.take_takeWhile,
      ← List.take_takeWhile, takeWhile_crlf inline_isDigit]
  · have hprefix : (c :: rest.take 2).takeWhile isDigit <+: c :: rest :=
      (List.takeWhile_prefix _).trans (List.take_prefix 3 (c :: rest))
    exact (List.prefix_iff_eq_take.mp hprefix).symm

/-- An escaped line break is an escape; with the carriage return it is none. -/
theorem escape_break (rest : Text) :
    escape (crlf (code '\n' :: rest)) = .error (.unknownEscape (some (code '\r')), 0) := rfl

/-- Every other escape is as long as its text, in which a backslash only stands alone. -/
theorem escape_crlf {cs v : Text} {n : Nat} (hhead : cs.head? ≠ some (code '\n'))
    (h : escape cs = .ok (v, n)) :
    escape (crlf cs) = .ok (v, (crlf (cs.take n)).length) ∧ (n = 1 ∨ code '\\' ∉ cs.take n) := by
  cases cs with
  | nil => cases h
  | cons c rest =>
    have hc : c ≠ code '\n' := fun heq => hhead (congrArg some heq)
    rw [crlf_cons hc]
    cases escape_iff.mp h with
    | simple hsimple =>
      rw [List.take_succ_cons, List.take_zero, crlf_cons hc]
      exact ⟨escape_iff.mpr (.simple hsimple), .inl rfl⟩
    | skip =>
      have hskip := escape_iff.mpr (.skip (crlf rest))
      rw [takeWhile_crlf_of_breaks (by decide) (by decide)] at hskip
      rw [List.take_succ_cons, take_takeWhile, crlf_cons hc]
      refine ⟨hskip, .inr ?_⟩
      rw [List.mem_cons, not_or]
      refine ⟨by decide, fun hmem => ?_⟩
      exact absurd (List.all_eq_true.mp List.all_takeWhile _ hmem) (by decide)
    | hexadecimal hdigits =>
      obtain ⟨hsame, hcrlf, hlength, hnone⟩ := hexEscape_crlf hdigits
      rw [List.take_succ_cons, crlf_cons hc, hcrlf, List.length_cons, hlength]
      refine ⟨escape_iff.mpr (.hexadecimal (hsame.symm ▸ hdigits)), .inr ?_⟩
      rw [List.mem_cons, not_or]
      exact ⟨by decide, hnone⟩
    | decimal hdigit hds hsmall =>
      subst hds
      obtain ⟨hsame, htake⟩ := decimalEscape_crlf hdigit rest
      have hall : ((c :: rest.take 2).takeWhile isDigit).all isDigit = true := List.all_takeWhile
      rw [htake, crlf_of_unbroken (unbroken_of_all inline_isDigit hall)]
      refine ⟨escape_iff.mpr (.decimal hdigit hsame hsmall), .inr fun hmem => ?_⟩
      exact absurd (List.all_eq_true.mp hall _ hmem) (by decide)
    | braced hcode =>
      obtain ⟨hcode', hunbroken, hnone⟩ := codeEscape_crlf hcode
      obtain ⟨hle, -⟩ := codeEscape_local hcode
      have hbrace : code '\x7b' ≠ code '\n' := by decide
      rw [crlf_cons hbrace, List.take_succ_cons, List.take_succ_cons, crlf_cons hc, crlf_cons hbrace,
        crlf_of_unbroken hunbroken, List.length_cons, List.length_cons, List.length_take_of_le hle]
      refine ⟨escape_iff.mpr (.braced hcode'), .inr ?_⟩
      simp only [List.mem_cons, not_or]
      exact ⟨by decide, by decide, hnone⟩

/-! ## 2. Strings -/

/-- A line break behind a backslash. -/
def EscapesBreak (t : Text) : Prop := [code '\\', code '\n'] <:+: t

instance (t : Text) : Decidable (EscapesBreak t) := inferInstanceAs (Decidable (_ <:+: t))

theorem escapesBreak_cons {c : Code} {t : Text} :
    EscapesBreak (c :: t) ↔ (c = code '\\' ∧ t.head? = some (code '\n')) ∨ EscapesBreak t := by
  unfold EscapesBreak
  rw [List.infix_cons_iff, List.cons_prefix_cons]
  cases t with
  | nil => simp
  | cons d t => simp [List.cons_prefix_cons, eq_comm]

theorem escapesBreak_append {s t : Text} (hs : code '\\' ∉ s) :
    EscapesBreak (s ++ t) ↔ EscapesBreak t := by
  induction s with
  | nil => rfl
  | cons c s ih =>
    simp only [List.mem_cons, not_or] at hs
    rw [List.cons_append, escapesBreak_cons, ih hs.2]
    exact or_iff_right fun h => hs.1 h.1.symm

/-- Another escape in front of a text that does not begin with a line break. -/
theorem escapesBreak_escape {cs t v : Text} {n : Nat} (hhead : cs.head? ≠ some (code '\n'))
    (h : escape cs = .ok (v, n)) (ht : t.head? ≠ some (code '\n')) :
    EscapesBreak (code '\\' :: (cs.take n ++ t)) ↔ EscapesBreak t := by
  cases cs with
  | nil => cases h
  | cons c cs =>
    rcases (escape_crlf hhead h).2 with rfl | hnone
    · rw [List.take_succ_cons, List.take_zero, List.singleton_append, escapesBreak_cons, escapesBreak_cons]
      simp only [List.head?_cons, ht, and_false, false_or]
      exact or_iff_right fun hd => hhead hd.2
    · cases n with
      | zero =>
        rw [List.take_zero, List.nil_append, escapesBreak_cons]
        exact or_iff_right (fun hd => ht hd.2)
      | succ n =>
        rw [escapesBreak_cons, escapesBreak_append hnone, List.take_succ_cons]
        exact or_iff_right fun hd => hhead hd.2

/-- A quoted string does not begin with a line break. -/
theorem stringBody_head {quote : Code} {cs v : Text} {n : Nat}
    (h : stringBody quote cs = .ok (v, n)) : cs.head? ≠ some (code '\n') := by
  rintro hhead
  obtain ⟨rest, rfl⟩ := List.head?_eq_some_iff.mp hhead
  rw [stringBody, if_pos rfl] at h
  cases h

/-- What is taken from a text does not begin with a code point that the text does not begin with. -/
theorem head?_ne_of_prefix {s t : Text} {c : Code} (hst : s <+: t) (ht : t.head? ≠ some c) :
    s.head? ≠ some c := by
  cases s with
  | nil => simp
  | cons d s =>
    obtain ⟨x, rfl⟩ := hst
    exact ht

/-- **A quoted string without a line break behind a backslash is as long as its text, and its value
stays.** -/
theorem stringBody_crlf {quote : Code} {cs v : Text} {n : Nat}
    (h : stringBody quote cs = .ok (v, n)) (hbreak : ¬EscapesBreak (cs.take n)) :
    stringBody quote (crlf cs) = .ok (v, (crlf (cs.take n)).length) := by
  fun_induction stringBody quote cs generalizing v n with
  | case1 => cases h
  | case2 => cases h
  | case3 rest hline =>
    cases h
    rw [crlf_cons hline, stringBody, if_neg hline, if_pos rfl, List.take_succ_cons, List.take_zero,
      crlf_cons hline]
    rfl
  | case4 => cases h
  | case5 rest e k hescape w m hbody hline hquote ih =>
    cases h
    rw [List.take_succ_cons, Nat.add_comm m k, List.take_add] at hbreak ⊢
    have hhead : rest.head? ≠ some (code '\n') := by
      intro hhead
      obtain ⟨r, rfl⟩ := List.head?_eq_some_iff.mp hhead
      cases hescape
      exact hbreak (escapesBreak_cons.mpr (.inl ⟨rfl, rfl⟩))
    have htail := head?_ne_of_prefix (List.take_prefix m _) (stringBody_head hbody)
    rw [escapesBreak_escape hhead hescape htail] at hbreak
    have hrest := ih hbody hbreak
    rw [← drop_crlf] at hrest
    rw [crlf_cons hline, stringBody, if_neg hline, if_neg hquote, if_pos rfl,
      (escape_crlf hhead hescape).1]
    dsimp only
    rw [hrest, crlf_cons hline, crlf_append, List.length_cons, List.length_append,
      Nat.add_comm (crlf (rest.take k)).length]
  | case6 => cases h
  | case7 c rest hline hquote hback w m hbody ih =>
    cases h
    rw [List.take_succ_cons, escapesBreak_cons] at hbreak
    have hrest := ih hbody (fun hmore => hbreak (.inr hmore))
    rw [crlf_cons hline, stringBody, if_neg hline, if_neg hquote, if_neg hback, hrest,
      List.take_succ_cons, crlf_cons hline]
    rfl
  | case8 => cases h

/-- **A quoted string is refused at the carriage return behind its first backslash in front of a line
break.** -/
theorem stringBody_continued {quote : Code} {cs v : Text} {n : Nat}
    (h : stringBody quote cs = .ok (v, n)) (hbreak : EscapesBreak (cs.take n)) :
    ∃ before after, cs.take n = before ++ code '\\' :: code '\n' :: after ∧ ¬EscapesBreak before ∧
      stringBody quote (crlf cs)
        = .error (.badEscape (.unknownEscape (some (code '\r'))), (crlf before).length + 1) := by
  fun_induction stringBody quote cs generalizing v n with
  | case1 => cases h
  | case2 => cases h
  | case3 rest hline =>
    cases h
    rw [List.take_succ_cons, List.take_zero, escapesBreak_cons] at hbreak
    exact absurd hbreak (by simp [EscapesBreak])
  | case4 => cases h
  | case5 rest e k hescape w m hbody hline hquote ih =>
    cases h
    rw [List.take_succ_cons, Nat.add_comm m k, List.take_add] at hbreak ⊢
    by_cases hhead : rest.head? = some (code '\n')
    · obtain ⟨r, rfl⟩ := List.head?_eq_some_iff.mp hhead
      cases hescape
      refine ⟨[], r.take m, rfl, by decide, ?_⟩
      rw [crlf_cons hline, stringBody, if_neg hline, if_neg hquote, if_pos rfl, escape_break]
      rfl
    · have htail := stringBody_head hbody
      have htaken := head?_ne_of_prefix (List.take_prefix m _) htail
      rw [escapesBreak_escape hhead hescape htaken] at hbreak
      obtain ⟨before, after, hsplit, hfirst, hrest⟩ := ih hbody hbreak
      have hbefore : before.head? ≠ some (code '\n') :=
        head?_ne_of_prefix ⟨_, hsplit.symm⟩ htaken
      refine ⟨code '\\' :: (rest.take k ++ before), after, ?_, ?_, ?_⟩
      · rw [hsplit]
        simp
      · rwa [escapesBreak_escape hhead hescape hbefore]
      · rw [← drop_crlf] at hrest
        rw [crlf_cons hline, stringBody, if_neg hline, if_neg hquote, if_pos rfl,
          (escape_crlf hhead hescape).1]
        dsimp only
        rw [hrest, crlf_cons hline, crlf_append, List.length_cons, List.length_append]
        dsimp only
        congr 2
        omega
  | case6 => cases h
  | case7 c rest hline hquote hback w m hbody ih =>
    cases h
    rw [List.take_succ_cons, escapesBreak_cons, or_iff_right (fun hc => hback hc.1)] at hbreak
    obtain ⟨before, after, hsplit, hfirst, hrest⟩ := ih hbody hbreak
    refine ⟨c :: before, after, ?_, ?_, ?_⟩
    · rw [List.take_succ_cons, hsplit, List.cons_append]
    · rwa [escapesBreak_cons, or_iff_right (fun hc => hback hc.1)]
    · rw [crlf_cons hline, stringBody, if_neg hline, if_neg hquote, if_neg hback, hrest,
        crlf_cons hline]
      rfl
  | case8 => cases h

/-! ## 3. Tokens -/

theorem unbroken_spelling (s : Symbol) : Unbroken s.spelling := by
  cases s <;> decide

theorem symbol?_crlf (cs : Text) : symbol? (crlf cs) = symbol? cs := by
  have hsame : ∀ s : Symbol, s.spelling.isPrefixOf (crlf cs) = s.spelling.isPrefixOf cs := by
    intro s
    rw [Bool.eq_iff_iff, List.isPrefixOf_iff_prefix, List.isPrefixOf_iff_prefix,
      prefix_crlf (unbroken_spelling s)]
  simp only [symbol?, hsame]

/-- The token is a string in a long bracket. -/
def Token.isLong (t : Token) : Bool :=
  match t.kind with
  | .string _ => t.text.head? = some (code '[')
  | _ => false

/-- The token is a quoted string that goes on in the next line, behind a backslash. -/
def Token.IsContinued (t : Token) : Prop :=
  (t.text.head? = some (code '"') ∨ t.text.head? = some (code '\'')) ∧ EscapesBreak t.text

instance (t : Token) : Decidable t.IsContinued := inferInstanceAs (Decidable (_ ∧ _))

/-- A token of a text whose newlines are rewritten: the value of a long bracket is rewritten too. -/
def Token.crlf (t : Token) : Token where
  kind :=
    match t.kind with
    | .string v => .string (if t.isLong then LuaServer.crlf v else v)
    | k => k
  pos := t.pos
  text := LuaServer.crlf t.text

/-- A token on one line is as long as before. -/
theorem length_crlf_tail {c : Code} {rest : Text} {n : Nat} (hpos : 1 ≤ n) (hn : n - 1 ≤ rest.length)
    (h : Unbroken ((c :: rest).take n)) : (crlf (rest.take (n - 1))).length = n - 1 := by
  obtain ⟨m, rfl⟩ := Nat.exists_eq_add_of_le' hpos
  rw [List.take_succ_cons] at h
  rw [Nat.add_sub_cancel] at hn ⊢
  rw [crlf_of_unbroken (h.mono (List.subset_cons_self _ _)), List.length_take_of_le hn]

/-- **A token that is not continued is as long as its text.** -/
theorem lexeme_crlf {start : Pos} {c : Code} {rest : Text} {kind : Kind} {n : Nat}
    (hc : c ≠ code '\n') (hcr : code '\r' ∉ c :: rest) (h : lexeme start c rest = .ok (kind, n))
    (hbreak : ¬Token.IsContinued ⟨kind, start, c :: rest.take n⟩) :
    lexeme start c (crlf rest)
      = .ok ((Token.mk kind start (c :: rest.take n)).crlf.kind, (crlf (rest.take n)).length) := by
  have hlength := congrArg List.length (crlf_cons hc (rest.take n))
  have hn := (lexeme_alike h (.refl _) start).1
  have hdigit : (crlf rest).head?.any isDigit = rest.head?.any isDigit := head_any_crlf rfl
  cases lexeme_iff.mp h with
  | keyword hname hword | name hname hword =>
    rw [lexeme, if_pos hname, takeWhile_crlf inline_isNameChar, take_takeWhile,
      crlf_of_unbroken (unbroken_takeWhile inline_isNameChar)]
    dsimp only [word]
    rw [hword]
    rfl
  | number hname hnumber hv =>
    have hpos := numberProper_pos hnumber
    obtain ⟨hone, hle, -⟩ := numberExtent_alike hpos
    obtain ⟨hsame, hunbroken⟩ := numberExtent_crlf hpos
    rw [lexeme, if_neg hname, hdigit, if_pos hnumber, ← crlf_cons hc]
    dsimp only
    rw [hsame, take_crlf_of_unbroken hle hunbroken, hv, length_crlf_tail hone hn hunbroken]
    rfl
  | string hname hnumber hquote hbody =>
    have hshort : c ≠ code '[' := by
      rcases hquote with rfl | rfl <;> decide
    have hplain : ¬EscapesBreak (rest.take n) := by
      intro hmore
      refine hbreak ⟨?_, escapesBreak_cons.mpr (.inr hmore)⟩
      simpa using hquote
    rw [lexeme, if_neg hname, hdigit, if_neg hnumber, if_pos hquote, stringBody_crlf hbody hplain]
    simp [Token.crlf, Token.isLong, hshort]
  | long hname hnumber hquote hopen hlong =>
    obtain ⟨hpos, -⟩ := longBracket?_local hlong
    have hopen' := openerLevel?_iff.mp hopen
    obtain rfl := eq_of_opener hopen'
    obtain ⟨k, rfl⟩ := Nat.exists_eq_add_of_le' (Nat.le_of_succ_le hpos)
    rw [Nat.add_sub_cancel] at hlength ⊢
    rw [lexeme, if_neg hname, hdigit, if_neg hnumber, if_neg hquote, ← crlf_cons hc, openerLevel?_crlf,
      hopen]
    dsimp only
    rw [longBracket?_crlf hopen' hcr hlong, List.take_succ_cons]
    simp [hlength, Token.crlf, Token.isLong]
  | @symbol s hname hnumber hquote hopen hsymbol =>
    obtain ⟨hpos, -⟩ := symbol_spelling s
    have hunbroken : Unbroken ((c :: rest).take s.spelling.length) := by
      rw [← List.prefix_iff_eq_take.mp (symbol?_eq hsymbol)]
      exact unbroken_spelling s
    rw [lexeme, if_neg hname, hdigit, if_neg hnumber, if_neg hquote, ← crlf_cons hc, openerLevel?_crlf,
      hopen, symbol?_crlf, hsymbol]
    dsimp only
    rw [length_crlf_tail hpos hn hunbroken]
    rfl

/-- **A continued string is refused** at the carriage return that now stands behind its first backslash in
front of a line break. -/
theorem lexeme_continued {start : Pos} {c : Code} {rest : Text} {kind : Kind} {n : Nat}
    (h : lexeme start c rest = .ok (kind, n))
    (hbreak : Token.IsContinued ⟨kind, start, c :: rest.take n⟩) :
    ∃ before after, c :: rest.take n = before ++ code '\\' :: code '\n' :: after ∧
      ¬EscapesBreak before ∧ lexeme start c (crlf rest)
        = .error ⟨start.advance (before ++ [code '\\']), .unknownEscape (some (code '\r'))⟩ := by
  obtain ⟨hquote, hmore⟩ := hbreak
  replace hquote : c = code '"' ∨ c = code '\'' := by simpa using hquote
  obtain ⟨hname, hback, hdigit, hpoint⟩ : ¬isNameStart c = true ∧ c ≠ code '\\' ∧
      isDigit c = false ∧ c ≠ code '.' := by
    rcases hquote with rfl | rfl <;> decide
  rw [lexeme, if_neg hname, if_neg (not_startsNumber hdigit hpoint _), if_pos hquote] at h ⊢
  rw [escapesBreak_cons, or_iff_right (fun hc => hback hc.1)] at hmore
  split at h
  · next v m hbody =>
    cases h
    obtain ⟨before, after, hsplit, hfirst, hrefused⟩ := stringBody_continued hbody hmore
    refine ⟨c :: before, after, congrArg (c :: ·) hsplit, ?_, ?_⟩
    · rwa [escapesBreak_cons, or_iff_right (fun hc => hback hc.1)]
    · -- the reader has come as far as the backslash
      have hsize : rest = before ++ code '\\' :: (code '\n' :: after ++ rest.drop n) := by
        conv => lhs; rw [← List.take_append_drop n rest, hsplit]
        simp
      have htaken : (crlf rest).take ((crlf before).length + 1) = crlf before ++ [code '\\'] := by
        rw [hsize, crlf_append, crlf_cons (by decide), List.take_length_add_append]
        rfl
      rw [hrefused]
      dsimp only
      rw [htaken, List.cons_append, Pos.advance_cons, Pos.advance_cons, Pos.advance_append,
        Pos.advance_append, Pos.advance_crlf]
  · cases h
  · cases h

/-! ## 4. Texts -/

section
variable {pos : Pos} {g tail after : Text} {d : Code} {kind : Kind} {e : SyntaxError}

/-- The gap in front of a token. -/
theorem gap_piece_crlf (hcr : code '\r' ∉ g ++ (d :: tail ++ after))
    (h : gap (g ++ (d :: tail ++ after)) = .ok g.length) :
    d ≠ code '\n' ∧ code '\r' ∉ d :: (tail ++ after) ∧ code '\r' ∉ after ∧
      crlf (g ++ (d :: tail ++ after)) = crlf g ++ (d :: crlf tail ++ crlf after) ∧
      gap (crlf g ++ (d :: crlf tail ++ crlf after)) = .ok (crlf g).length := by
  have hd : d ≠ code '\n' := by
    rintro rfl
    exact absurd (gap_stops h (List.drop_left' rfl)).1 (by decide)
  have hwhole : crlf (g ++ (d :: tail ++ after)) = crlf g ++ (d :: crlf tail ++ crlf after) := by
    rw [crlf_append, crlf_append, crlf_cons hd]
  have hgap := gap_crlf hcr h
  rw [hwhole, List.take_left] at hgap
  rw [List.cons_append, List.mem_append, not_or] at hcr
  refine ⟨hd, hcr.2, ?_, hwhole, hgap⟩
  exact fun hmem => hcr.2 (List.mem_cons_of_mem d (List.mem_append_right tail hmem))

theorem tokensFrom_refused {rest : Text} (hgap : gap (g ++ d :: rest) = .ok g.length)
    (h : lexeme (pos.advance g) d rest = .error e) : tokensFrom pos (g ++ d :: rest) = .error e := by
  rw [tokensFrom]
  simp only [hgap, List.take_left]
  split
  · next heq => simp at heq
  · next heq =>
    rw [List.drop_left] at heq
    obtain ⟨rfl, rfl⟩ := List.cons.inj heq
    simp only [h]

theorem tokensFrom_later (hgap : gap (g ++ (d :: tail ++ after)) = .ok g.length)
    (hlexeme : lexeme (pos.advance g) d (tail ++ after) = .ok (kind, tail.length))
    (h : tokensFrom ((pos.advance g).advance (d :: tail)) after = .error e) :
    tokensFrom pos (g ++ (d :: tail ++ after)) = .error e := by
  rw [tokensFrom]
  simp only [hgap, List.take_left]
  split
  · next heq => simp at heq
  · next heq =>
    rw [List.drop_left, List.cons_append] at heq
    obtain ⟨rfl, rfl⟩ := List.cons.inj heq
    simp only [hlexeme, List.take_left, List.drop_left, h]

end

/-- **The tokens of a text without a continued string.** -/
theorem Lexes.crlf {pos : Pos} {cs : Text} {ts : List Token} (h : Lexes pos cs ts)
    (hcr : code '\r' ∉ cs) (hplain : ∀ t ∈ ts, ¬t.IsContinued) :
    Lexes pos (LuaServer.crlf cs) (ts.map Token.crlf) := by
  induction h using Lexes.induction_pieces with
  | finish pos g hgap =>
    have hgap' := gap_crlf hcr hgap
    rw [List.take_length] at hgap'
    have hrest : Lexes pos (LuaServer.crlf g) [⟨.eof, pos.advance (LuaServer.crlf g), []⟩] := .rest hgap'
    rwa [Pos.advance_crlf] at hrest
  | piece pos g d tail after kind ts hgap hlexeme _ ih =>
    obtain ⟨hd, hown, hafter, hwhole, hgap'⟩ := gap_piece_crlf hcr hgap
    obtain ⟨hfirst, hlater⟩ := List.forall_mem_cons.mp hplain
    have hlexeme' := lexeme_crlf hd hown hlexeme (by rwa [List.take_left])
    rw [List.take_left, crlf_append] at hlexeme'
    have hrest := ih hafter hlater
    rw [← Pos.advance_crlf pos g] at hlexeme' hrest
    rw [← Pos.advance_crlf _ (d :: tail), crlf_cons hd] at hrest
    have hlexes := Lexes.piece hgap' hlexeme' hrest
    rw [Pos.advance_crlf, ← crlf_cons hd] at hlexes
    rwa [hwhole, ← crlf_cons hd]

/-- **A text with a continued string is refused** at the first one, where its first such line break is. -/
theorem Lexes.continued {pos : Pos} {cs : Text} {ts : List Token} (h : Lexes pos cs ts)
    (hcr : code '\r' ∉ cs) (hbreak : ∃ t ∈ ts, t.IsContinued) :
    ∃ earlier t later, ts = earlier ++ t :: later ∧ (∀ u ∈ earlier, ¬u.IsContinued) ∧
      ∃ before after, t.text = before ++ code '\\' :: code '\n' :: after ∧ ¬EscapesBreak before ∧
        tokensFrom pos (LuaServer.crlf cs)
          = .error ⟨t.pos.advance (before ++ [code '\\']), .unknownEscape (some (code '\r'))⟩ := by
  induction h using Lexes.induction_pieces with
  | finish pos g hgap =>
    obtain ⟨t, ht, -, hmore⟩ := hbreak
    rw [List.mem_singleton.mp ht] at hmore
    have hnone : ¬EscapesBreak [] := by decide
    exact absurd hmore hnone
  | piece pos g d tail after kind ts hgap hlexeme _ ih =>
    obtain ⟨hd, hown, hafter, hwhole, hgap'⟩ := gap_piece_crlf hcr hgap
    rw [hwhole]
    by_cases hfirst : Token.IsContinued ⟨kind, pos.advance g, d :: tail⟩
    · obtain ⟨before, behind, hsplit, hnone, hrefused⟩ :=
        lexeme_continued hlexeme (by rwa [List.take_left])
      rw [List.take_left] at hsplit
      rw [crlf_append] at hrefused
      refine ⟨[], _, ts, rfl, by simp, before, behind, hsplit, hnone, ?_⟩
      refine tokensFrom_refused hgap' ?_
      rwa [Pos.advance_crlf]
    · have hlexeme' := lexeme_crlf hd hown hlexeme (by rwa [List.take_left])
      rw [List.take_left, crlf_append] at hlexeme'
      have hlater : ∃ t ∈ ts, t.IsContinued := by
        obtain ⟨t, ht, hmore⟩ := hbreak
        rcases List.mem_cons.mp ht with rfl | ht
        · exact absurd hmore hfirst
        · exact ⟨t, ht, hmore⟩
      obtain ⟨earlier, t, later, rfl, hplain, before, behind, hsplit, hnone, hrest⟩ :=
        ih hafter hlater
      refine ⟨_ :: earlier, t, later, rfl, List.forall_mem_cons.mpr ⟨hfirst, hplain⟩, before, behind,
        hsplit, hnone, ?_⟩
      rw [← Pos.advance_crlf pos g] at hlexeme' hrest
      rw [← Pos.advance_crlf _ (d :: tail), crlf_cons hd] at hrest
      exact tokensFrom_later hgap' hlexeme' hrest

end LuaServer.Lua
