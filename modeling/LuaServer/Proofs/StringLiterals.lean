/-
# String literals decode what was written

`Quoted s t` says that `t`, between double quotes, writes the text `s`: code point by code point, each in
one of the forms of `Spells`, with skipped white space at any places in between.  `Delimits (closer level) s`
says that `s` may stand as it is in a long bracket of that level.  Neither notion mentions the scanners.

An escape of variable length ends where its own form ends, so each form is read the same whatever comes
after it; only skipped white space must not run into white space that is meant.

Main result: `tokenize_literals`.
-/
import LuaServer.Proofs.DigitRuns
import LuaServer.Proofs.Lexemes

namespace LuaServer.Lua

/-! ## 1. Ways to write a text -/

/-- The ways to write a code point between double quotes. -/
inductive Spells : Code → Text → Prop
  /-- As it is. -/
  | plain : c ≠ code '\\' → c ≠ code '"' → c ≠ code '\n' → Spells c [c]
  /-- With a backslash in front. -/
  | escaped : c = code '\\' ∨ c = code '"' ∨ c = code '\n' → Spells c [code '\\', c]
  | newline : Spells (code '\n') [code '\\', code 'n']
  /-- By three decimal digits. -/
  | decimal : ds.length = 3 → ds.mapM decimalDigit? = some vs → ofDigits 10 vs = c → c ≤ 255 →
      Spells c (code '\\' :: ds)
  /-- By two hexadecimal digits. -/
  | hexadecimal : ds.length = 2 → ds.mapM hexDigit? = some vs → ofDigits 16 vs = c →
      Spells c (code '\\' :: code 'x' :: ds)
  /-- By any number of hexadecimal digits in braces. -/
  | braced : ds ≠ [] → ds.mapM hexDigit? = some vs → ofDigits 16 vs = c → c ≤ maxCode →
      Spells c (code '\\' :: code 'u' :: code '\x7b' :: (ds ++ [code '\x7d']))

/-- The ways to write a text between double quotes.  Skipped white space ends before something that is not
white space. -/
inductive Quoted : Text → Text → Prop
  | nil : Quoted [] []
  | code : Spells c w → Quoted s t → Quoted (c :: s) (w ++ t)
  | skip : (∀ b ∈ blanks, isBlank b = true) → (∀ b, t.head? = some b → isBlank b = false) →
      Quoted s t → Quoted s (LuaServer.code '\\' :: LuaServer.code 'z' :: (blanks ++ t))

/-- Every text can be written. -/
theorem exists_quoted (s : Text) : ∃ t, Quoted s t := by
  induction s with
  | nil => exact ⟨[], .nil⟩
  | cons c s ih =>
    obtain ⟨t, ht⟩ := ih
    by_cases hspecial : c = code '\\' ∨ c = code '"' ∨ c = code '\n'
    · exact ⟨_, .code (.escaped hspecial) ht⟩
    · obtain ⟨hbackslash, hquote, hnewline⟩ : c ≠ code '\\' ∧ c ≠ code '"' ∧ c ≠ code '\n' := by
        simpa using hspecial
      exact ⟨_, .code (.plain hbackslash hquote hnewline) ht⟩

/-! ## 2. Escapes are read -/

section
variable {c v : Code} {value : Nat} {ds rest : Text} {vs : List Nat}

theorem escape_decimal (hlength : ds.length = 3) (hds : ds.mapM decimalDigit? = some vs)
    (hsmall : ofDigits 10 vs ≤ 255) (rest : Text) :
    escape (ds ++ rest) = .ok ([ofDigits 10 vs], ds.length) := by
  obtain ⟨hdigits, hvalues⟩ := mapM_eq_some_iff.mp hds
  match ds, hlength with
  | [a, b, d], _ =>
    have hall : isDigit a = true ∧ isDigit b = true ∧ isDigit d = true := by
      simpa [isDigit_eq_isSome] using hdigits
    obtain ⟨ha, hb, hd⟩ := hall
    have hrun : (a :: (b :: d :: rest).take 2).takeWhile isDigit = [a, b, d] := by simp [ha, hb, hd]
    rw [← hvalues] at hsmall ⊢
    exact escape_iff.mpr (.decimal ha hrun hsmall)

theorem escape_hexadecimal (hlength : ds.length = 2) (hds : ds.mapM hexDigit? = some vs)
    (rest : Text) : escape (code 'x' :: (ds ++ rest)) = .ok ([ofDigits 16 vs], ds.length + 1) := by
  obtain ⟨hdigits, hvalues⟩ := mapM_eq_some_iff.mp hds
  have htake : (ds ++ rest).take 2 = ds := List.take_left' hlength
  have hvs : vs.length = 2 := by rw [← hvalues, length_filterMap_digits hdigits, hlength]
  match vs, hvs with
  | [a, b], _ =>
    have hread := escape_iff.mpr (.hexadecimal (htake.symm ▸ hds))
    simpa [ofDigits, hlength] using hread

/-- The digits of a braced escape are read up to what is no digit. -/
theorem escapeDigits_digits (hds : ds.mapM hexDigit? = some vs)
    (hvalue : vs.foldl (fun n d => n * 16 + d) value ≤ maxEscape)
    (hrest : ∀ c, rest.head? = some c → hexDigit? c = none) :
    escapeDigits value (ds ++ rest) = .ok (vs.foldl (fun n d => n * 16 + d) value, ds.length) := by
  induction ds generalizing value vs with
  | nil =>
    cases hds
    cases rest with
    | nil => rfl
    | cons c rest => simp [escapeDigits, hrest c rfl]
  | cons c ds ih =>
    obtain ⟨hc, -⟩ := List.forall_mem_cons.mp (mapM_eq_some_iff.mp hds).1
    obtain ⟨v, hv⟩ := Option.isSome_iff_exists.mp hc
    rw [mapM_cons_eq_some hv] at hds
    obtain ⟨ws, hws, rfl⟩ := Option.map_eq_some_iff.mp hds
    rw [List.foldl_cons] at hvalue ⊢
    -- no number on the way is greater than the last one
    have hsmall : ¬maxEscape < value * 16 + v :=
      Nat.not_lt.mpr (Nat.le_trans (le_foldl_digits (by decide) _ ws) hvalue)
    rw [List.cons_append, escapeDigits]
    simp only [hv, if_neg hsmall, ih hws hvalue]
    rfl

theorem escape_braced (hne : ds ≠ []) (hds : ds.mapM hexDigit? = some vs)
    (hsmall : ofDigits 16 vs ≤ maxCode) (rest : Text) :
    escape (code 'u' :: code '\x7b' :: (ds ++ code '\x7d' :: rest))
      = .ok ([ofDigits 16 vs], ds.length + 3) := by
  have hread : escapeDigits 0 (ds ++ code '\x7d' :: rest) = .ok (ofDigits 16 vs, ds.length) := by
    refine escapeDigits_digits hds (Nat.le_trans hsmall (by decide)) ?_
    intro c hc
    cases hc
    decide
  have hpos : ds.length ≠ 0 := mt List.length_eq_zero_iff.mp hne
  have hclamp : clampCode (ofDigits 16 vs) = ofDigits 16 vs := if_pos hsmall
  have hcode : codeEscape (ds ++ code '\x7d' :: rest) = .ok ([ofDigits 16 vs], ds.length + 1) :=
    codeEscape_iff.mpr ⟨_, _, hread, hpos, by rw [List.drop_left]; rfl, by rw [hclamp], rfl⟩
  exact escape_iff.mpr (.braced hcode)

end

/-- **A code point is read in each of its forms,** whatever follows. -/
theorem Spells.reads {c : Code} {w : Text} (h : Spells c w) :
    (w = [c] ∧ c ≠ code '\\' ∧ c ≠ code '"' ∧ c ≠ code '\n') ∨
    ∃ e, w = code '\\' :: e ∧ ∀ rest, escape (e ++ rest) = .ok ([c], e.length) := by
  cases h with
  | plain hbackslash hquote hnewline => exact .inl ⟨rfl, hbackslash, hquote, hnewline⟩
  | escaped hc =>
    refine .inr ⟨[c], rfl, fun rest => escape_iff.mpr (.simple ?_)⟩
    rcases hc with rfl | rfl | rfl <;> rfl
  | newline => exact .inr ⟨_, rfl, fun rest => escape_iff.mpr (.simple rfl)⟩
  | decimal hlength hds hvalue hsmall =>
    subst hvalue
    exact .inr ⟨_, rfl, escape_decimal hlength hds hsmall⟩
  | hexadecimal hlength hds hvalue =>
    subst hvalue
    exact .inr ⟨_, rfl, escape_hexadecimal hlength hds⟩
  | braced hne hds hvalue hsmall =>
    subst hvalue
    refine .inr ⟨_, rfl, fun rest => ?_⟩
    simpa using escape_braced hne hds hsmall rest

/-! ## 3. Literals are read -/

/-- An escape in a string is followed by the rest of the string. -/
theorem stringBody_escape {e v rest w : Text} {m : Nat}
    (he : escape (e ++ rest) = .ok (v, e.length)) (hrest : stringBody (code '"') rest = .ok (w, m)) :
    stringBody (code '"') (code '\\' :: (e ++ rest)) = .ok (v ++ w, m + e.length + 1) := by
  have hnewline : code '\\' ≠ code '\n' := by decide
  have hquote : code '\\' ≠ code '"' := by decide
  rw [stringBody]
  simp only [if_neg hnewline, if_neg hquote, if_true, he, List.drop_left, hrest]

/-- **What is written between quotes is read.** -/
theorem stringBody_quoted {s t : Text} (h : Quoted s t) (rest : Text) :
    stringBody (code '"') (t ++ code '"' :: rest) = .ok (s, t.length + 1) := by
  induction h with
  | nil =>
    have hnewline : code '"' ≠ code '\n' := by decide
    rw [List.nil_append, stringBody, if_neg hnewline, if_pos rfl]
    rfl
  | code hspells _ ih =>
    rcases hspells.reads with ⟨rfl, hbackslash, hquote, hnewline⟩ | ⟨e, rfl, hescape⟩
    · rw [List.singleton_append, List.cons_append, stringBody, if_neg hnewline, if_neg hquote,
        if_neg hbackslash, ih]
      rfl
    · rw [List.append_assoc, List.cons_append, stringBody_escape (hescape _) ih]
      simp [Nat.add_assoc, Nat.add_comm, Nat.add_left_comm]
  | @skip blanks s t hblanks hstop _ ih =>
    have hskip : escape ((code 'z' :: blanks) ++ (t ++ code '"' :: rest))
        = .ok ([], (code 'z' :: blanks).length) := by
      have hrun : (blanks ++ (t ++ code '"' :: rest)).takeWhile isBlank = blanks := by
        refine takeWhile_append_stop (List.all_eq_true.mpr hblanks) ?_
        cases t with
        | nil =>
          intro c hc
          cases hc
          decide
        | cons d t => exact hstop
      have hsimple : simpleEscape? (code 'z') = none := by decide
      simp only [List.cons_append, escape, hsimple, if_true, hrun, List.length_cons]
    have hwhole := stringBody_escape hskip ih
    simpa [Nat.add_assoc, Nat.add_comm, Nat.add_left_comm] using hwhole

/-- **A quoted literal is one string.** -/
theorem tokenize_quoted {s t : Text} (h : Quoted s t) :
    tokenize (code '"' :: (t ++ [code '"']))
      = .ok [⟨.string s, .start, code '"' :: (t ++ [code '"'])⟩,
          ⟨.eof, Pos.start.advance (code '"' :: (t ++ [code '"'])), []⟩] := by
  refine tokenize_one (gap_none (by decide) (.inl (by decide))) ?_
  have hname : ¬isNameStart (code '"') = true := by decide
  have hnumber := not_startsNumber (c := code '"') (by decide) (by decide) (t ++ [code '"'])
  simp only [lexeme, if_neg hname, if_neg hnumber, true_or, if_true, stringBody_quoted h,
    List.length_append, List.length_singleton]

/-- **A long bracket is one string.**  The line break behind its opener is no part of it. -/
theorem tokenize_long {level : Nat} {s : Text} (h : Delimits (closer level) s) :
    tokenize (opener level ++ (code '\n' :: s) ++ closer level)
      = .ok [⟨.string s, .start, opener level ++ (code '\n' :: s) ++ closer level⟩,
          ⟨.eof, Pos.start.advance (opener level ++ (code '\n' :: s) ++ closer level), []⟩] := by
  have hopen : openerLevel? (opener level ++ (code '\n' :: s) ++ closer level) = some level :=
    openerLevel?_iff.mpr (by rw [List.append_assoc]; exact List.prefix_append _ _)
  have hlong : longBracket? level (opener level ++ (code '\n' :: s) ++ closer level)
      = some (s, (opener level ++ (code '\n' :: s) ++ closer level).length) := by
    have hinner : (opener level ++ (code '\n' :: s) ++ closer level).drop (level + 2)
        = code '\n' :: (s ++ closer level) := by
      rw [List.append_assoc, List.drop_left' (length_opener level), List.cons_append]
    have hbreak : lineBreakSize (code '\n' :: (s ++ closer level)) = 1 := rfl
    have hfirst : splitAtFirst? (closer level) (s ++ closer level) = some (s, []) :=
      splitAtFirst?_iff.mpr ⟨by simp, h⟩
    simp only [longBracket?, hinner, hbreak, List.drop_succ_cons, List.drop_zero, hfirst,
      Option.map_some, List.length_append, length_opener, length_closer, List.length_cons]
    congr 2
    omega
  obtain ⟨tail, htail⟩ : ∃ tail, opener level ++ (code '\n' :: s) ++ closer level = code '[' :: tail := by
    rw [List.append_assoc, opener_append]
    exact ⟨_, rfl⟩
  rw [htail] at hopen hlong ⊢
  refine tokenize_one (gap_none (by decide) (.inl (by decide))) ?_
  have hname : ¬isNameStart (code '[') = true := by decide
  have hnumber := not_startsNumber (c := code '[') (by decide) (by decide) tail
  have hquote : ¬(code '[' = code '"' ∨ code '[' = code '\'') := by decide
  simp only [lexeme, if_neg hname, if_neg hnumber, if_neg hquote, hopen, hlong, List.length_cons,
    Nat.add_sub_cancel]

/-- **String literals decode what was written.**  Every text can be written between double quotes, and
however it is written, the literal is one string token whose value is that text.  If the text may stand in
a long bracket of some level, then so it is with the long bracket that holds a newline and the text. -/
theorem tokenize_literals (s : Text) :
    (∃ t, Quoted s t) ∧
    (∀ t, Quoted s t → tokenize (code '"' :: (t ++ [code '"']))
      = .ok [⟨.string s, .start, code '"' :: (t ++ [code '"'])⟩,
          ⟨.eof, Pos.start.advance (code '"' :: (t ++ [code '"'])), []⟩]) ∧
    ∀ level, Delimits (closer level) s → tokenize (opener level ++ (code '\n' :: s) ++ closer level)
      = .ok [⟨.string s, .start, opener level ++ (code '\n' :: s) ++ closer level⟩,
          ⟨.eof, Pos.start.advance (opener level ++ (code '\n' :: s) ++ closer level), []⟩] :=
  ⟨exists_quoted s, fun _ => tokenize_quoted, fun _ => tokenize_long⟩

/-- One code point in each form, with white space skipped in front of an escaped newline; and a long bracket
of the first level around a shorter closer and the beginning of its own. -/
theorem tokenize_literals_mixed :
    tokenize (text "\"A\\z \n\\\n\\065\\\\\\xfF \\u\x7b0010fFfF\x7d\"")
      = .ok [⟨.string [65, 10, 65, 92, 255, 32, 0x10FFFF], .start,
            text "\"A\\z \n\\\n\\065\\\\\\xfF \\u\x7b0010fFfF\x7d\""⟩,
          ⟨.eof, ⟨3, 25⟩, []⟩] ∧
    tokenize (text "[=[\n]]\n]==]=]") = .ok [⟨.string (text "]]\n]=="), .start, text "[=[\n]]\n]==]=]"⟩,
      ⟨.eof, ⟨3, 7⟩, []⟩] := by
  constructor
  · have hquoted : Quoted [65, 10, 65, 92, 255, 32, 0x10FFFF]
        (text "A" ++ (code '\\' :: code 'z' :: (text " \n" ++ (text "\\\n" ++ (text "\\065"
          ++ (text "\\\\" ++ (text "\\xfF" ++ (text " " ++ (text "\\u\x7b0010fFfF\x7d" ++ []))))))))) := by
      refine .code (.plain (by decide) (by decide) (by decide)) (.skip (by decide) (by decide) ?_)
      refine .code (.escaped (by decide)) (.code (.decimal rfl rfl rfl (by decide)) ?_)
      refine .code (.escaped (by decide)) (.code (.hexadecimal rfl rfl rfl) ?_)
      refine .code (.plain (by decide) (by decide) (by decide)) (.code ?_ .nil)
      have hdigits : (text "0010fFfF").mapM hexDigit? = some [0, 0, 1, 0, 15, 15, 15, 15] := rfl
      exact .braced (by decide) hdigits rfl (by decide)
    exact (tokenize_literals _).2.1 _ hquoted
  · exact (tokenize_literals (text "]]\n]==")).2.2 1 (by decide)

end LuaServer.Lua
