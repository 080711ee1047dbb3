/-
# Texts with the two kinds of line ends

A text without carriage returns and the same text with a carriage return in front of every newline have
the same tokens at the same places, as long as no string goes on in the next line behind a backslash; only
the values of long brackets hold the line breaks as they were written.  So either both texts are programs
or neither is, and the programs are the same with the same variables.  A text with such a string is
refused once its line ends are rewritten.

Main result: `tokenize_crlf`.
-/
import Mathlib.Data.List.Nodup
import LuaServer.Proofs.Acts
import LuaServer.Proofs.ContinuedStrings
import LuaServer.Proofs.StringValues

namespace LuaServer.Lua

/-! ## 1. Tokens by their places -/

/-- The token that stands at a place. -/
def tokenAt (tokens : List Token) (p : Pos) : Option Token := tokens.find? fun t => t.pos = p

/-- The value of a string at a place, rewritten if it is a long bracket. -/
def crlfAt (tokens : List Token) (p : Pos) (v : Text) : Text :=
  if (tokenAt tokens p).any Token.isLong then crlf v else v

/-- The value of the token at a place. -/
def valueAt (tokens : List Token) (p : Pos) (v : Text) : Text := ((tokenAt tokens p).map Token.value).getD v

/-- How the token at the place of another is written. -/
def textAt (tokens : List Token) (t : Token) : Text := ((tokenAt tokens t.pos).getD t).text

/-- The text of a number is on one line. -/
theorem Lexes.number_unbroken {pos : Pos} {cs : Text} {ts : List Token} (h : Lexes pos cs ts) :
    ∀ t ∈ ts, ∀ v, t.kind = .number v → LuaServer.crlf t.text = t.text := by
  intro t ht v hv
  obtain ⟨c, rest, n, hlexeme, htext⟩ := h.lexed t ht (by simp [hv])
  rw [hv] at hlexeme
  obtain ⟨hnumber, hextent, -⟩ := lexeme_number hlexeme
  rw [htext, hextent]
  exact crlf_of_unbroken (numberExtent_crlf (numberProper_pos hnumber)).2

section
variable {tokens : List Token} {t : Token}

theorem tokenAt_pos (hnodup : (tokens.map (·.pos)).Nodup) (ht : t ∈ tokens) :
    tokenAt tokens t.pos = some t := by
  have hsome : (tokenAt tokens t.pos).isSome := List.find?_isSome.mpr ⟨t, ht, by simp⟩
  obtain ⟨k, hk⟩ := Option.isSome_iff_exists.mp hsome
  have hpos : k.pos = t.pos := by simpa using List.find?_some hk
  rw [hk, List.inj_on_of_nodup_map hnodup (List.mem_of_find?_eq_some hk) ht hpos]

/-- The tokens after the line breaks are rewritten, told by their places. -/
theorem crlf_eq_revalue (hnodup : (tokens.map (·.pos)).Nodup) (ht : t ∈ tokens) :
    t.crlf = t.revalue (crlfAt tokens) fun t => crlf t.text := by
  obtain ⟨kind, pos, s⟩ := t
  have hat := tokenAt_pos hnodup ht
  cases kind <;> simp_all [Token.crlf, Token.revalue, Respelling.token, Token.respell, Kind.respell,
    Respelling.revaluing, crlfAt]

theorem keeps_crlfAt (hnodup : (tokens.map (·.pos)).Nodup)
    (hnumber : ∀ t ∈ tokens, ∀ v, t.kind = .number v → crlf t.text = t.text) (ht : t ∈ tokens) :
    t.Keeps (crlfAt tokens) fun t => crlf t.text where
  name x hx := by
    rw [crlfAt, tokenAt_pos hnodup ht]
    simp [Token.isLong, hx]
  number v hv := hnumber t ht v hv

/-- The tokens before the line breaks were rewritten, told by their places. -/
theorem revalue_crlf (hnodup : (tokens.map (·.pos)).Nodup) (ht : t ∈ tokens) :
    t.crlf.revalue (valueAt tokens) (textAt tokens) = t := by
  obtain ⟨kind, pos, s⟩ := t
  have hat := tokenAt_pos hnodup ht
  cases kind <;> simp_all [Token.crlf, Token.revalue, Respelling.token, Token.respell, Kind.respell,
    Respelling.revaluing, valueAt, textAt, Token.value]

theorem keeps_valueAt (hnodup : (tokens.map (·.pos)).Nodup)
    (hnumber : ∀ t ∈ tokens, ∀ v, t.kind = .number v → crlf t.text = t.text) (ht : t ∈ tokens) :
    t.crlf.Keeps (valueAt tokens) (textAt tokens) := by
  obtain ⟨kind, pos, s⟩ := t
  have hat := tokenAt_pos hnodup ht
  constructor
  · intro x hx
    cases kind <;> simp_all [Token.crlf, valueAt, Token.value]
  · intro v hv
    have hsame := hnumber _ ht
    cases kind <;> simp_all [Token.crlf, textAt]

end

/-! ## 2. Programs -/

/-- A text whose line ends are rewritten is the program with the values of its long brackets rewritten,
if the text is a program. -/
theorem parse_crlf {t uri : Text} {tokens : List Token} (h : tokenize t = .ok tokens)
    (h' : tokenize (crlf t) = .ok (tokens.map Token.crlf)) :
    (∀ c, parse t uri = .ok c →
      parse (crlf t) uri = .ok { c with body := revalueBlock (crlfAt tokens) c.body }) ∧
    ∀ e, parse t uri = .error e → ∃ e', parse (crlf t) uri = .error e' := by
  have hlexes := tokensFrom_iff.mp h
  have hnodup := hlexes.nodup_pos
  have hnumber := hlexes.number_unbroken
  simp only [parse, h, h']
  constructor
  · intro c hc
    rw [List.map_congr_left fun t ht => crlf_eq_revalue hnodup ht]
    exact parseTokens_revalue (tokenize_ended h) hc fun t ht => keeps_crlfAt hnodup hnumber ht
  · intro e he
    cases hc : parseTokens (tokens.map Token.crlf) uri with
    | error e' => exact ⟨e', rfl⟩
    | ok c =>
      -- the other way round, the values are those of the tokens before
      have hback : (tokens.map Token.crlf).map (Token.revalue (valueAt tokens) (textAt tokens))
          = tokens := by
        rw [List.map_map]
        exact (List.map_congr_left fun t ht => revalue_crlf hnodup ht).trans (List.map_id' tokens)
      have hkeeps : ∀ t ∈ tokens.map Token.crlf, t.Keeps (valueAt tokens) (textAt tokens) := by
        intro k hk
        obtain ⟨t, ht, rfl⟩ := List.mem_map.mp hk
        exact keeps_valueAt hnodup hnumber ht
      have hparse := parseTokens_revalue (tokenize_ended h') hc hkeeps
      rw [hback, he] at hparse
      cases hparse

/-- **Line ends make no difference, except behind a backslash.**  Let a text without carriage returns have
tokens.  If none of them is a string that goes on in the next line behind a backslash, then the text with a
carriage return in front of every newline has the same tokens at the same places, where only the values of
long brackets have their line breaks rewritten; and it is a program if and only if the text is one, the
same program with the same places and variables and with these values.  If there is such a string, then it
is no text of the language any more: it is refused for an unknown escape, the carriage return behind the
first such backslash. -/
theorem tokenize_crlf {t : Text} {tokens : List Token} (hcr : code '\r' ∉ t)
    (h : tokenize t = .ok tokens) :
    ((∀ k ∈ tokens, ¬k.IsContinued) →
      tokenize (crlf t) = .ok (tokens.map Token.crlf) ∧
      ∀ uri, (∀ c, parse t uri = .ok c →
          parse (crlf t) uri = .ok { c with body := revalueBlock (crlfAt tokens) c.body }) ∧
        ∀ e, parse t uri = .error e → ∃ e', parse (crlf t) uri = .error e') ∧
    ((∃ k ∈ tokens, k.IsContinued) →
      ∃ earlier k later, tokens = earlier ++ k :: later ∧ (∀ u ∈ earlier, ¬u.IsContinued) ∧
        ∃ before after, k.text = before ++ code '\\' :: code '\n' :: after ∧ ¬EscapesBreak before ∧
          let e : SyntaxError :=
            ⟨k.pos.advance (before ++ [code '\\']), .unknownEscape (some (code '\r'))⟩
          tokenize (crlf t) = .error e ∧ ∀ uri, parse (crlf t) uri = .error e) := by
  have hlexes := tokensFrom_iff.mp h
  constructor
  · intro hplain
    have h' : tokenize (crlf t) = .ok (tokens.map Token.crlf) :=
      tokensFrom_iff.mpr (hlexes.crlf hcr hplain)
    exact ⟨h', fun uri => parse_crlf h h'⟩
  · intro hbreak
    obtain ⟨earlier, k, later, hsplit, hplain, before, after, htext, hfirst, hrefused⟩ :=
      hlexes.continued hcr hbreak
    have hrefused' : tokenize (crlf t)
        = .error ⟨k.pos.advance (before ++ [code '\\']), .unknownEscape (some (code '\r'))⟩ := hrefused
    refine ⟨earlier, k, later, hsplit, hplain, before, after, htext, hfirst, hrefused', fun uri => ?_⟩
    rw [parse, hrefused']

/-- A call with a long bracket over three lines and a comment; and a string that goes on in the next line. -/
theorem tokenize_crlf_examples :
    tokenize (text "f[[\r\na\r\nb]] --c\r\n")
      = .ok [⟨.name (text "f"), ⟨1, 1⟩, text "f"⟩,
          ⟨.string (text "a\r\nb"), ⟨1, 2⟩, text "[[\r\na\r\nb]]"⟩, ⟨.eof, ⟨4, 1⟩, []⟩] ∧
    tokenize (text "\"a\\\r\nb\"") = .error ⟨⟨1, 4⟩, .unknownEscape (some (code '\r'))⟩ := by
  constructor
  · have hrun : tokenize (text "f[[\na\nb]] --c\n")
        = .ok [⟨.name (text "f"), ⟨1, 1⟩, text "f"⟩, ⟨.string (text "a\nb"), ⟨1, 2⟩, text "[[\na\nb]]"⟩,
          ⟨.eof, ⟨4, 1⟩, []⟩] := ok_of_toOption (by decide +kernel)
    exact ((tokenize_crlf (by decide) hrun).1 (by decide)).1
  · have hrun : tokenize (text "\"a\\\nb\"")
        = .ok [⟨.string (text "a\nb"), ⟨1, 1⟩, text "\"a\\\nb\""⟩, ⟨.eof, ⟨2, 3⟩, []⟩] :=
      ok_of_toOption (by decide +kernel)
    obtain ⟨earlier, k, later, hsplit, -, before, after, htext, -, hrefused, -⟩ :=
      (tokenize_crlf (by decide) hrun).2 (by decide)
    -- the end of the text holds no backslash, so it is the string, and its third code point
    obtain rfl : earlier = [] := by
      rcases earlier with _ | ⟨u, _ | ⟨v, earlier⟩⟩
      · rfl
      · simp only [List.cons_append, List.nil_append, List.cons.injEq] at hsplit
        rw [← hsplit.2.1] at htext
        simp at htext
      · simp at hsplit
    obtain ⟨rfl, -⟩ := List.cons.inj hsplit
    obtain rfl : before = text "\"a" := by
      rcases before with _ | ⟨a, _ | ⟨b, _ | ⟨c, before⟩⟩⟩ <;>
        simp only [text, List.cons_append, List.nil_append, List.cons.injEq, String.reduceToList,
          List.map_cons] at htext
      · exact absurd htext.1 (by decide)
      · exact absurd htext.2.1 (by decide)
      · rw [← htext.1, ← htext.2.1]
        rfl
      · have hmem := congrArg (code '\\' ∈ ·) htext.2.2.2
        simp [code] at hmem
    exact hrefused

/-- The string `"a\⏎b"` is a token, and with a carriage return in front of its newline it is none. -/
theorem tokenize_crlf_refused :
    code '\r' ∉ text "\"a\\\nb\"" ∧ (tokenize (text "\"a\\\nb\"")).toOption.isSome ∧
      (tokenize (crlf (text "\"a\\\nb\""))).toOption = none := by
  decide +kernel

end LuaServer.Lua
