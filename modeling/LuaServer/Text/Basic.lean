/-
# Texts as sequences of code points

A document that reaches the server is a sequence of Unicode code points, and everything the
server counts (columns, lengths, offsets) it counts in code points.  A JSON string may hold a
surrogate that has no partner, which is a code point but not a character, so a text is a list
of numbers and not a `String`.

* `Text`: the list of code points; `text` writes a literal one.
* `Pos`: a line and a column, both counted from 1; `Pos.advance` moves over a text.
* `splitAtFirst?`: the first occurrence of a pattern.
* `decimal`: the decimal digits of a number.
-/

namespace LuaServer

/-! ## 1. Code points and literals -/

/-- A Unicode code point, surrogates included. -/
abbrev Code := Nat

/-- A sequence of code points. -/
abbrev Text := List Code

/-- The code point of a character. -/
abbrev code (c : Char) : Code := c.toNat

/-- The text that a string literal spells. -/
def text (s : String) : Text := s.toList.map Char.toNat

@[simp] theorem text_append (s t : String) : text (s ++ t) = text s ++ text t := by
  simp [text]

/-- The code point that stands in for what cannot be represented. -/
def replacement : Code := 0xFFFD

/-- The largest code point. -/
def maxCode : Code := 0x10FFFF

/-- A surrogate: a code point that no encoding of a text can carry alone. -/
def isSurrogate (c : Code) : Bool := 0xD800 ≤ c && c ≤ 0xDFFF

/-- A quoted text, `'x'`, as messages show what they stopped at. -/
def quoted (t : Text) : Text := code '\'' :: t ++ [code '\'']

/-- The decimal digits of a number. -/
def decimal (n : Nat) : Text := (Nat.toDigits 10 n).map Char.toNat

/-- The decimal digits of an integer, with a minus sign in front of a negative one. -/
def decimalInt : Int → Text
  | .ofNat n => decimal n
  | .negSucc n => code '-' :: decimal (n + 1)

/-- Texts joined by a separator. -/
def join (sep : Text) : List Text → Text
  | [] => []
  | [t] => t
  | t :: ts => t ++ sep ++ join sep ts

/-- The parts between the occurrences of a separator.  There is always at least one. -/
def splitOn {α : Type} [DecidableEq α] (sep : α) : List α → List (List α)
  | [] => [[]]
  | c :: cs =>
    if c = sep then [] :: splitOn sep cs
    else match splitOn sep cs with
      | [] => [[c]]
      | t :: ts => (c :: t) :: ts

/-! ## 2. Searching -/

/-- The first occurrence of `pat`, with what was passed so far in reverse. -/
def splitAtFirstFrom {α : Type} [DecidableEq α] (pat acc : List α) :
    List α → Option (List α × List α)
  | [] => if pat = [] then some (acc.reverse, []) else none
  | c :: cs =>
    if pat.isPrefixOf (c :: cs) then some (acc.reverse, (c :: cs).drop pat.length)
    else splitAtFirstFrom pat (c :: acc) cs

/-- What stands before and after the first occurrence of `pat`. -/
def splitAtFirst? {α : Type} [DecidableEq α] (pat cs : List α) : Option (List α × List α) :=
  splitAtFirstFrom pat [] cs

theorem splitAtFirstFrom_eq_append {α : Type} [DecidableEq α] {pat : List α} :
    ∀ {cs acc before after : List α}, splitAtFirstFrom pat acc cs = some (before, after) →
      acc.reverse ++ cs = before ++ pat ++ after
  | [], acc, before, after, h => by
    unfold splitAtFirstFrom at h
    split at h
    · next hp => cases h; simp [hp]
    · cases h
  | c :: cs, acc, before, after, h => by
    unfold splitAtFirstFrom at h
    split at h
    · next hp =>
      cases h
      obtain ⟨t, ht⟩ := List.isPrefixOf_iff_prefix.mp hp
      simp [← ht]
    · simpa using splitAtFirstFrom_eq_append h

/-- The two parts around the first occurrence make up the whole. -/
theorem splitAtFirst?_eq_append {α : Type} [DecidableEq α] {pat cs before after : List α}
    (h : splitAtFirst? pat cs = some (before, after)) : cs = before ++ pat ++ after := by
  simpa using splitAtFirstFrom_eq_append h

/-- The first occurrence of a pattern is the first one whatever follows it. -/
theorem splitAtFirstFrom_local {α : Type} [DecidableEq α] {pat : List α} :
    ∀ {cs acc before after : List α},
    splitAtFirstFrom pat acc cs = some (before, after) →
    ∃ b, before = acc.reverse ++ b ∧ cs = b ++ pat ++ after ∧
      ∀ x, splitAtFirstFrom pat acc (b ++ pat ++ x) = some (before, x)
  | [], acc, before, after, h => by
    unfold splitAtFirstFrom at h
    split at h
    · next hpat =>
      cases h
      refine ⟨[], by simp, by simp [hpat], ?_⟩
      intro x
      cases x <;> simp [splitAtFirstFrom, hpat]
    · cases h
  | c :: cs, acc, before, after, h => by
    unfold splitAtFirstFrom at h
    split at h
    · next hpat =>
      cases h
      obtain ⟨t, ht⟩ := List.isPrefixOf_iff_prefix.mp hpat
      refine ⟨[], by simp, by simp [← ht], ?_⟩
      intro x
      have hfront : pat.isPrefixOf (pat ++ x) = true :=
        List.isPrefixOf_iff_prefix.mpr (List.prefix_append pat x)
      rw [List.nil_append]
      unfold splitAtFirstFrom
      split
      · next hnil => simp_all
      · next heq => rw [← heq, hfront]; simp
    · next hpat =>
      obtain ⟨b, hbefore, hcs, hlocal⟩ := splitAtFirstFrom_local h
      refine ⟨c :: b, by simpa using hbefore, by simp [hcs], ?_⟩
      intro x
      -- an earlier occurrence would lie within what both texts share
      have hfront : ¬ pat.isPrefixOf (c :: (b ++ pat ++ x)) = true := by
        intro hx
        have hshared : pat <+: c :: (b ++ pat) := by
          refine List.prefix_of_prefix_length_le (List.isPrefixOf_iff_prefix.mp hx) ?_ ?_
          · exact ⟨x, by simp⟩
          · simp; omega
        exact hpat (List.isPrefixOf_iff_prefix.mpr (hcs ▸ hshared.trans ⟨after, by simp⟩))
      simp only [List.cons_append]
      rw [splitAtFirstFrom, if_neg hfront]
      exact hlocal x

/-! ## 3. Positions -/

/-- A place in a text: line and column, both counted from 1. -/
structure Pos where
  line : Nat
  column : Nat
deriving DecidableEq, Repr, Inhabited

namespace Pos

/-- The first place of every text. -/
def start : Pos := ⟨1, 1⟩

/-- The place after one more code point: a newline starts the next line. -/
def step (p : Pos) (c : Code) : Pos :=
  if c = code '\n' then ⟨p.line + 1, 1⟩ else ⟨p.line, p.column + 1⟩

/-- The place after a stretch of text. -/
def advance (p : Pos) (cs : Text) : Pos := cs.foldl step p

@[simp] theorem advance_nil (p : Pos) : p.advance [] = p := rfl

@[simp] theorem advance_cons (p : Pos) (c : Code) (cs : Text) :
    p.advance (c :: cs) = (p.step c).advance cs := rfl

theorem advance_append (p : Pos) (s t : Text) : p.advance (s ++ t) = (p.advance s).advance t :=
  List.foldl_append

/-- Document order of places. -/
def le (p q : Pos) : Bool := p.line < q.line || (p.line == q.line && p.column ≤ q.column)

end Pos

end LuaServer
