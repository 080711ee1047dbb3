/-
# Headers

A header is one line or more, with CR LF between them, and the first line that gives a length tells how
long the body is.  The name `Content-Length` may be written in either case, and white space at the ends of
name and value does not count.

The notions of the first two sections say this without the functions that search and cut; the rest shows
that those functions decide them.

Main results: `contentLength_eq_ok`, `contentLength_eq_error`, `announces_lengthHeader`.
-/
import Mathlib.Algebra.Group.Nat.Defs
import LuaServer.Proofs.Framing
import LuaServer.Proofs.Rendering
import LuaServer.Proofs.Searching

namespace LuaServer

/-! ## 1. The lines of a header -/

/-- The lines of a header.  No line break stands in a line. -/
inductive LinesOf : Bytes → List Bytes → Prop
  | last : ¬bytes "\r\n" <:+: line → LinesOf line [line]
  | more : ¬bytes "\r\n" <:+: line → LinesOf rest lines →
      LinesOf (line ++ bytes "\r\n" ++ rest) (line :: lines)

/-- `core` is `bs` without the white space at its ends. -/
structure Trimmed (bs core : Bytes) : Prop where
  padded : ∃ front back, bs = front ++ core ++ back ∧ (∀ b ∈ front, isHeaderSpace b = true) ∧
    ∀ b ∈ back, isHeaderSpace b = true
  head : ∀ b, core.head? = some b → isHeaderSpace b = false
  last : ∀ b, core.getLast? = some b → isHeaderSpace b = false

/-- A line that gives a length: a name, a colon, and the value.  The name ends at the first colon. -/
def GivesLength (line value : Bytes) : Prop :=
  ∃ name rest core, line = name ++ bytes ":" ++ rest ∧ 58 ∉ name ∧ Trimmed name core ∧
    core.map lowerByte = bytes "content-length" ∧ Trimmed rest value

/-- The value of the first line of a header that gives a length. -/
def FirstLength (header value : Bytes) : Prop :=
  ∃ before line after, LinesOf header (before ++ line :: after) ∧
    (∀ l ∈ before, ∀ v, ¬GivesLength l v) ∧ GivesLength line value

/-! ## 2. What a header announces -/

/-- ASCII digits, at least one. -/
def DigitRun (value : Bytes) : Prop := value ≠ [] ∧ ∀ b ∈ value, isDigitByte b = true

instance (value : Bytes) : Decidable (DigitRun value) :=
  inferInstanceAs (Decidable (value ≠ [] ∧ ∀ b ∈ value, isDigitByte b = true))

/-- The header announces a body of `n` bytes. -/
def Announces (header : Bytes) (n : Nat) : Prop :=
  ∃ value, FirstLength header value ∧ DigitRun value ∧ value.length ≤ maxDigits ∧
    n = ofDigits 10 (value.map fun b => b.toNat - 48)

/-- What is wrong with a header that announces nothing. -/
inductive Refused (header : Bytes) : FrameError → Prop
  | missing : LinesOf header lines → (∀ line ∈ lines, ∀ v, ¬GivesLength line v) →
      Refused header .missingLength
  | notANumber : FirstLength header value → ¬DigitRun value →
      Refused header (.notANumber (value.map fun b => if b < 128 then b.toNat else replacement))
  | tooManyDigits : FirstLength header value → DigitRun value → maxDigits < value.length →
      Refused header (.tooManyDigits value.length)

/-! ## 3. Lines are found -/

section
variable {header line rest value : Bytes} {lines : List Bytes}

/-- A line without a line break ends at the first one. -/
theorem delimits_lineBreak (h : ¬bytes "\r\n" <:+: line) : Delimits (bytes "\r\n") line := by
  intro k hk hbreak
  by_cases hlast : k + 1 < line.length
  · -- the line break would lie within the line
    refine h (List.IsInfix.trans ?_ (List.drop_suffix k line).isInfix)
    rw [List.drop_append_of_le_length (Nat.le_of_lt hk)] at hbreak
    refine (List.prefix_of_prefix_length_le hbreak (List.prefix_append _ _) ?_).isInfix
    have htwo : (bytes "\r\n").length = 2 := by decide
    rw [htwo, List.length_drop]
    omega
  · -- its second byte would be the first one of the line break that ends the line
    obtain ⟨b, hone⟩ : ∃ b, line.drop k = [b] := by
      refine ⟨line.get ⟨k, hk⟩, ?_⟩
      rw [List.drop_eq_getElem_cons hk, List.drop_eq_nil_of_le (by omega)]
      rfl
    rw [List.drop_append_of_le_length (Nat.le_of_lt hk), hone] at hbreak
    exact absurd (List.cons_prefix_cons.mp hbreak).2 (by decide)

theorem headerLines_last (h : splitAtFirst? (bytes "\r\n") header = none) :
    headerLines header = [header] := by
  rw [headerLines]
  split
  · rfl
  · next hsome => rw [h] at hsome; cases hsome

theorem headerLines_more (h : splitAtFirst? (bytes "\r\n") header = some (line, rest)) :
    headerLines header = line :: headerLines rest := by
  rw [headerLines]
  split
  · next hnone => rw [h] at hnone; cases hnone
  · next hsome =>
    rw [h] at hsome
    cases hsome
    rfl

/-- **The lines of a header.** -/
theorem headerLines_eq : headerLines header = lines ↔ LinesOf header lines := by
  constructor
  · rintro rfl
    induction header using headerLines.induct with
    | case1 header h =>
      rw [headerLines_last h]
      exact .last (splitAtFirst?_eq_none.mp h)
    | case2 header line rest h ih =>
      obtain ⟨rfl, hends⟩ := splitAtFirst?_iff.mp h
      rw [headerLines_more h]
      exact .more (hends.not_infix (by decide)) ih
  · intro h
    induction h with
    | last h => exact headerLines_last (splitAtFirst?_eq_none.mpr h)
    | more h _ ih => rw [headerLines_more (splitAtFirst?_iff.mpr ⟨rfl, delimits_lineBreak h⟩), ih]

/-! ## 4. Values are found -/

theorem trimBytes_eq {bs core : Bytes} : trimBytes bs = core ↔ Trimmed bs core := by
  constructor
  · rintro rfl
    have hfront := List.takeWhile_append_dropWhile (p := isHeaderSpace) (l := bs)
    have hback := List.takeWhile_append_dropWhile (p := isHeaderSpace)
      (l := (bs.dropWhile isHeaderSpace).reverse)
    have hinner : bs.dropWhile isHeaderSpace = trimBytes bs
        ++ ((bs.dropWhile isHeaderSpace).reverse.takeWhile isHeaderSpace).reverse := by
      rw [trimBytes, ← List.reverse_append, hback, List.reverse_reverse]
    refine ⟨⟨bs.takeWhile isHeaderSpace,
      ((bs.dropWhile isHeaderSpace).reverse.takeWhile isHeaderSpace).reverse, ?_, ?_, ?_⟩, ?_, ?_⟩
    · rw [List.append_assoc, ← hinner, hfront]
    · exact fun b hb => List.all_eq_true.mp List.all_takeWhile b hb
    · exact fun b hb => List.all_eq_true.mp List.all_takeWhile b (List.mem_reverse.mp hb)
    · intro b hb
      have hhead : (bs.dropWhile isHeaderSpace).head? = some b := by
        rw [hinner, List.head?_append, hb]
        rfl
      simpa [hhead] using List.head?_dropWhile_not isHeaderSpace bs
    · intro b hb
      rw [trimBytes, List.getLast?_reverse] at hb
      simpa [hb] using List.head?_dropWhile_not isHeaderSpace (bs.dropWhile isHeaderSpace).reverse
  · rintro ⟨⟨front, back, rfl, hfront, hback⟩, hhead, hlast⟩
    rw [trimBytes, List.append_assoc, List.dropWhile_append_of_pos hfront]
    cases core with
    | nil =>
      have hnone : (back ++ []).dropWhile isHeaderSpace = [] := List.dropWhile_append_of_pos hback
      rw [List.nil_append, ← List.append_nil back, hnone]
      rfl
    | cons c cs =>
      rw [List.cons_append, List.dropWhile_cons_of_neg (by simp [hhead c rfl]), ← List.cons_append,
        List.reverse_append, List.dropWhile_append_of_pos (by simpa using hback)]
      have hstop : (c :: cs).reverse.dropWhile isHeaderSpace = (c :: cs).reverse := by
        obtain ⟨b, bs, hreverse⟩ := List.exists_cons_of_ne_nil (l := (c :: cs).reverse) (by simp)
        have hb := hlast b (by rw [← List.head?_reverse, hreverse]; rfl)
        rw [hreverse, List.dropWhile_cons_of_neg (by simp [hb])]
      rw [hstop, List.reverse_reverse]

/-- **The value of a line.** -/
theorem headerValue?_eq_some :
    headerValue? (bytes "content-length") line = some value ↔ GivesLength line value := by
  have hcolon : bytes ":" = [58] := by decide
  rw [headerValue?]
  constructor
  · intro h
    split at h
    · next name rest hsplit =>
      split at h
      · next hname =>
        cases h
        obtain ⟨rfl, hends⟩ := splitAtFirst?_iff.mp hsplit
        refine ⟨name, rest, _, rfl, ?_, trimBytes_eq.mp rfl, hname, trimBytes_eq.mp rfl⟩
        intro hmem
        obtain ⟨s, t, rfl⟩ := List.append_of_mem hmem
        exact hends.not_infix (by decide) ⟨s, t, by simp [hcolon]⟩
      · cases h
    · cases h
  · rintro ⟨name, rest, core, rfl, hname, hcore, hlower, hvalue⟩
    have hsplit : splitAtFirst? (bytes ":") (name ++ bytes ":" ++ rest) = some (name, rest) :=
      splitAtFirst?_iff.mpr ⟨rfl, hcolon ▸ delimits_of_not_mem hname⟩
    simp only [hsplit, trimBytes_eq.mpr hcore, if_pos hlower, trimBytes_eq.mpr hvalue]

theorem headerValue?_eq_none :
    headerValue? (bytes "content-length") line = none ↔ ∀ v, ¬GivesLength line v := by
  simp only [Option.eq_none_iff_forall_ne_some, ne_eq, headerValue?_eq_some]

/-- **The first line that gives a length.** -/
theorem findSome?_headerLines_eq_some :
    (headerLines header).findSome? (headerValue? (bytes "content-length")) = some value
      ↔ FirstLength header value := by
  rw [List.findSome?_eq_some_iff]
  simp only [headerValue?_eq_some, headerValue?_eq_none, headerLines_eq]
  constructor
  · rintro ⟨before, line, after, hlines, hvalue, hbefore⟩
    exact ⟨before, line, after, hlines, hbefore, hvalue⟩
  · rintro ⟨before, line, after, hlines, hbefore, hvalue⟩
    exact ⟨before, line, after, hlines, hvalue, hbefore⟩

theorem findSome?_headerLines_eq_none :
    (headerLines header).findSome? (headerValue? (bytes "content-length")) = none
      ↔ ∃ lines, LinesOf header lines ∧ ∀ line ∈ lines, ∀ v, ¬GivesLength line v := by
  rw [List.findSome?_eq_none_iff]
  simp only [headerValue?_eq_none]
  constructor
  · exact fun h => ⟨_, headerLines_eq.mp rfl, h⟩
  · rintro ⟨lines, hlines, h⟩
    rwa [headerLines_eq.mpr hlines]

/-! ## 5. Lengths are read -/

theorem not_digitRun : (value = [] ∨ (!value.all isDigitByte) = true) ↔ ¬DigitRun value := by
  rw [DigitRun, Decidable.not_and_iff_or_not, Decidable.not_not, Bool.not_eq_true', ← Bool.not_eq_true,
    List.all_eq_true]

theorem lengthValue_eq_ok {n : Nat} : lengthValue value = .ok n ↔
    DigitRun value ∧ value.length ≤ maxDigits ∧ n = ofDigits 10 (value.map fun b => b.toNat - 48) := by
  rw [lengthValue]
  split
  · next h => simp [not_digitRun.mp h]
  · next h =>
    have hrun : DigitRun value := Decidable.not_not.mp (mt not_digitRun.mpr h)
    split
    · next hlong => simp [Nat.not_le.mpr hlong]
    · next hlong => simp [hrun, Nat.not_lt.mp hlong, eq_comm]

/-- **What a header announces is read.** -/
theorem contentLength_eq_ok {n : Nat} : contentLength header = .ok n ↔ Announces header n := by
  rw [contentLength]
  constructor
  · intro h
    split at h
    · next value hvalue =>
      exact ⟨value, findSome?_headerLines_eq_some.mp hvalue, lengthValue_eq_ok.mp h⟩
    · cases h
  · rintro ⟨value, hvalue, h⟩
    rw [findSome?_headerLines_eq_some.mpr hvalue]
    exact lengthValue_eq_ok.mpr h

/-- **A header that announces nothing is refused,** for what is wrong with it. -/
theorem contentLength_eq_error {e : FrameError} :
    contentLength header = .error e ↔ Refused header e := by
  rw [contentLength]
  constructor
  · intro h
    split at h
    · next value hvalue =>
      have hfirst := findSome?_headerLines_eq_some.mp hvalue
      rw [lengthValue] at h
      split at h
      · next hrun =>
        cases h
        exact .notANumber hfirst (not_digitRun.mp hrun)
      · next hrun =>
        split at h
        · next hlong =>
          cases h
          exact .tooManyDigits hfirst (Decidable.not_not.mp (mt not_digitRun.mpr hrun)) hlong
        · cases h
    · next hnone =>
      cases h
      obtain ⟨lines, hlines, hmissing⟩ := findSome?_headerLines_eq_none.mp hnone
      exact .missing hlines hmissing
  · intro h
    cases h with
    | missing hlines hmissing => rw [findSome?_headerLines_eq_none.mpr ⟨_, hlines, hmissing⟩]
    | notANumber hfirst hrun =>
      rw [findSome?_headerLines_eq_some.mpr hfirst]
      simp only [lengthValue, if_pos (not_digitRun.mpr hrun)]
    | tooManyDigits hfirst hrun hlong =>
      rw [findSome?_headerLines_eq_some.mpr hfirst]
      have hrun' := mt not_digitRun.mp (fun h => h hrun)
      simp only [lengthValue, if_neg hrun', if_pos hlong]

end

/-! ## 6. The header that is written -/

/-- The header of the frame of a body with `n` bytes. -/
def lengthHeader (n : Nat) : Bytes := bytes "Content-Length: " ++ asciiBytes (decimal n)

theorem encodeFrame_eq (body : Bytes) :
    encodeFrame body = lengthHeader body.length ++ headerEnd ++ body := rfl

theorem toUInt8_of_isDigit {c : Nat} (h : isDigit c = true) :
    isDigitByte c.toUInt8 = true ∧ c.toUInt8.toNat = c := by
  have hrange : 48 ≤ c ∧ c ≤ 57 := Lua.isDigit_iff.mp h
  have hvalue : c.toUInt8.toNat = c := Nat.mod_eq_of_lt (by omega)
  refine ⟨?_, hvalue⟩
  simp [isDigitByte, UInt8.le_iff_toNat_le, hvalue, hrange]

theorem digitRun_decimal (n : Nat) : DigitRun (asciiBytes (decimal n)) := by
  refine ⟨by simp [asciiBytes, Json.decimal_ne_nil], ?_⟩
  intro b hb
  obtain ⟨c, hc, rfl⟩ := List.mem_map.mp hb
  exact (toUInt8_of_isDigit (Json.isDigit_decimal c hc)).1

/-- The bytes of digits have the values of the digits. -/
theorem map_asciiBytes {t : Text} (h : ∀ c ∈ t, isDigit c = true) :
    (asciiBytes t).map (fun b => b.toNat - 48) = t.filterMap decimalDigit? := by
  induction t with
  | nil => rfl
  | cons c t ih =>
    obtain ⟨hc, ht⟩ := List.forall_mem_cons.mp h
    have hdigit : decimalDigit? c = some (c - 48) := if_pos (Lua.isDigit_iff.mp hc)
    rw [List.filterMap_cons_some hdigit, ← ih ht, asciiBytes, List.map_cons, List.map_cons,
      (toUInt8_of_isDigit hc).2]
    rfl

theorem not_mem_lengthHeader {b : UInt8} (hname : b ∉ bytes "Content-Length: ")
    (hdigit : isDigitByte b = false) (n : Nat) : b ∉ lengthHeader n := by
  intro hmem
  rcases List.mem_append.mp hmem with hmem | hmem
  · exact hname hmem
  · have htrue := (digitRun_decimal n).2 b hmem
    rw [hdigit] at htrue
    cases htrue

/-- Around digits stands no white space. -/
theorem trimmed_digitRun {value : Bytes} (h : ∀ b ∈ value, isDigitByte b = true) :
    Trimmed (bytes " " ++ value) value := by
  have hspace : ∀ b ∈ value, isHeaderSpace b = false := by
    intro b hb
    have hrange := h b hb
    simp only [isDigitByte, Bool.and_eq_true, decide_eq_true_eq, UInt8.le_iff_toNat_le] at hrange
    have h48 : (48 : UInt8).toNat = 48 := rfl
    have h13 : (13 : UInt8).toNat = 13 := rfl
    have h32 : (32 : UInt8).toNat = 32 := rfl
    simp only [isHeaderSpace, Bool.or_eq_false_iff, Bool.and_eq_false_iff, decide_eq_false_iff_not,
      UInt8.le_iff_toNat_le, ← UInt8.toNat_inj]
    omega
  have hblank : (bytes " ").all isHeaderSpace = true := by decide
  refine ⟨⟨bytes " ", [], by simp, List.all_eq_true.mp hblank, by simp⟩, ?_, ?_⟩
  · exact fun b hb => hspace b (List.mem_of_mem_head? hb)
  · exact fun b hb => hspace b (List.mem_of_getLast? hb)

/-- **The header that is written announces the length.** -/
theorem announces_lengthHeader {n : Nat} (h : n < 10 ^ maxDigits) : Announces (lengthHeader n) n := by
  have hlines : LinesOf (lengthHeader n) [lengthHeader n] := by
    refine .last fun hbreak => ?_
    have hmem : (13 : UInt8) ∈ lengthHeader n := hbreak.subset (by decide)
    exact not_mem_lengthHeader (by decide) (by decide) n hmem
  have hgives : GivesLength (lengthHeader n) (asciiBytes (decimal n)) := by
    refine ⟨bytes "Content-Length", bytes " " ++ asciiBytes (decimal n), bytes "Content-Length", ?_,
      by decide, ?_, by decide, trimmed_digitRun (digitRun_decimal n).2⟩
    · rw [← List.append_assoc]
      rfl
    · exact trimBytes_eq.mp (by decide)
  refine ⟨asciiBytes (decimal n), ⟨[], _, [], hlines, by simp, hgives⟩, digitRun_decimal n, ?_, ?_⟩
  · rw [asciiBytes, List.length_map, decimal, List.length_map,
      Nat.length_toDigits_le_iff (by decide) (by decide)]
    exact h
  · rw [map_asciiBytes Json.isDigit_decimal, Json.ofDigits_decimal]

/-- It ends where it is closed. -/
theorem delimits_lengthHeader (n : Nat) : Delimits headerEnd (lengthHeader n) :=
  delimits_of_not_mem (not_mem_lengthHeader (by decide) (by decide) n)

end LuaServer
