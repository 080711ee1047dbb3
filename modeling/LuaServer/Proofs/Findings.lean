/-
# The diagnostics of a text

`diagnosticsIn` is what should be published about a text: for a text that is refused one diagnostic at
the place of the fault, for any other one diagnostic for each report of the checker, in order.  `treeIn`
is its tree, if none of them is an error.

An analysis finds exactly these (`inspect_eq`).  Neither the place in the wording of a refusal, which is
written out and read back, nor any stretch is lost, as long as all places of the text can be sent.

Main results: `inspect_eq`, `publish_encodes`.
-/
import LuaServer.Proofs.Inspection
import LuaServer.Proofs.ReaderFaults
import LuaServer.Proofs.Reports

namespace LuaServer

/-! ## 1. Diagnostics -/

/-- The stretch of one line from a place on, counted from 0. -/
def spanFrom (p : Pos) (length : Nat) : Span :=
  ⟨⟨p.line - 1, p.column - 1⟩, ⟨p.line - 1, p.column - 1 + length⟩⟩

/-- The diagnostic of a text that is refused: one code point at the place of the fault. -/
def Diagnostic.ofFault (e : Lua.SyntaxError) : Diagnostic :=
  ⟨spanFrom e.pos 1, e.fault.message, .error, diagnosticSource (text "syntax")⟩

/-- The diagnostic of a report, which is at least one code point long. -/
def Diagnostic.ofMessage (m : Lua.Message) : Diagnostic :=
  ⟨spanFrom m.pos (max m.length 1), m.issue.message, severityOf (text m.issue.tag),
    diagnosticSource (text m.issue.tag)⟩

/-- The diagnostics of a text. -/
def diagnosticsIn (settings : Lua.CheckSettings) (source uri : Text) : List Diagnostic :=
  match Lua.parse source uri with
  | .error e => [.ofFault e]
  | .ok c => (Lua.check settings c).messages.map .ofMessage

/-- The tree of a text, if none of its diagnostics is an error. -/
def treeIn (settings : Lua.CheckSettings) (source uri : Text) : Option LuaTree :=
  match Lua.parse source uri with
  | .error _ => none
  | .ok c =>
    if (diagnosticsIn settings source uri).any Diagnostic.isError then none
    else some ⟨c, (Lua.check settings c).types⟩

/-! ## 2. Places in messages -/

theorem digitValue?_of_isDigit {c : Char} (h : c.isDigit = true) :
    digitValue? c.toNat = some (c.toNat - '0'.toNat) := by
  have hrange : 0x30 ≤ c.toNat ∧ c.toNat ≤ 0x30 + 9 := by
    simpa [Char.isDigit, UInt32.le_iff_toNat_le] using h
  rw [digitValue?, zeros, List.find?_cons_of_pos]
  · rfl
  · simpa using hrange

/-- The digits of a number in front of something else. -/
theorem leadingDigits?_decimal (n : Nat) (rest : Text)
    (hrest : ∀ c, rest.head? = some c → isDecimal c = false) :
    leadingDigits? (decimal n ++ rest) = some (decimal n, rest) := by
  have hdigits : (decimal n).all isDecimal = true := by
    rw [List.all_eq_true]
    intro c hc
    obtain ⟨d, hd, rfl⟩ := List.mem_map.mp hc
    rw [isDecimal, digitValue?_of_isDigit (Nat.isDigit_of_mem_toDigits (by decide) (by decide) hd)]
    rfl
  have htake := Lua.takeWhile_append_stop hdigits hrest
  have hdrop : (decimal n ++ rest).dropWhile isDecimal = rest := by
    rw [← Lua.drop_takeWhile, htake, List.drop_left' rfl]
  have hne : decimal n ≠ [] := by simp [decimal]
  rw [leadingDigits?, htake, hdrop]
  split
  · next h => exact absurd h hne
  · rfl

/-- The number that is written is read back. -/
theorem placeNumber_decimal {n : Nat} (h : n ≤ maxCoordinate + 1) : placeNumber (decimal n) = .ok n := by
  have hlength : (decimal n).length ≤ 10 := by
    rw [decimal, List.length_map, Nat.length_toDigits_le_iff (by decide) (by decide)]
    have hmax : maxCoordinate = 2147483647 := rfl
    omega
  have hvalues : ∀ cs : List Char, (∀ c ∈ cs, c.isDigit = true) → ∀ init : Nat,
      ((cs.map Char.toNat).filterMap digitValue?).foldl (fun n d => n * 10 + d) init
        = Nat.ofDigitChars 10 cs init := by
    intro cs hcs
    induction cs with
    | nil => intro init; rfl
    | cons c cs ih =>
      intro init
      have hc := digitValue?_of_isDigit (hcs c List.mem_cons_self)
      rw [List.map_cons, List.filterMap_cons_some hc, List.foldl_cons,
        ih fun d hd => hcs d (List.mem_cons_of_mem c hd), Nat.mul_comm]
      rfl
  have hdigits : ∀ c ∈ Nat.toDigits 10 n, c.isDigit = true :=
    fun c hc => Nat.isDigit_of_mem_toDigits (by decide) (by decide) hc
  have hread := hvalues _ hdigits 0
  rw [Nat.ofDigitChars_toDigits (by decide) (by decide)] at hread
  rw [placeNumber, if_neg (by rw [maxDigits]; omega)]
  exact congrArg (fun n : Nat => Except.ok (n : Int)) hread

/-- The place in the message of a syntax error is read back. -/
theorem splitPlace?_message (e : Lua.SyntaxError) :
    splitPlace? e.message = some (decimal e.pos.line, decimal e.pos.column, e.fault.message) := by
  have hcolon : isDecimal (code ':') = false := by decide
  have hsign : text ": " = [code ':', code ' '] := by decide
  have hmessage : e.message = decimal e.pos.line
      ++ (code ':' :: (decimal e.pos.column ++ (code ':' :: code ' ' :: e.fault.message))) := by
    simp [Lua.SyntaxError.message, hsign]
  have hline := leadingDigits?_decimal e.pos.line
    (code ':' :: (decimal e.pos.column ++ (code ':' :: code ' ' :: e.fault.message))) (by simp [hcolon])
  have hcolumn := leadingDigits?_decimal e.pos.column (code ':' :: code ' ' :: e.fault.message)
    (by simp [hcolon])
  simp [hmessage, splitPlace?, hline, hcolumn, hsign]

/-! ## 3. Stretches -/

/-- A stretch of a place that can be sent. -/
theorem spanAt_eq {p : Pos} (length : Nat) (hp : 1 ≤ p.line ∧ 1 ≤ p.column)
    (hline : p.line ≤ maxCoordinate + 1) (hcolumn : p.column - 1 + max length 1 ≤ maxCoordinate) :
    spanAt p.line p.column length = .ok (spanFrom p (max length 1)) := by
  have hl : max ((p.line : Int) - 1) 0 = ((p.line - 1 : Nat) : Int) := by omega
  have hc : max ((p.column : Int) - 1) 0 = ((p.column - 1 : Nat) : Int) := by omega
  have hlength : max (length : Int) 1 = ((max length 1 : Nat) : Int) := by omega
  have hcoordinate : ∀ (c : Coordinate) (n : Nat), n ≤ maxCoordinate → coordinate c n = .ok n := by
    intro c n hn
    rw [coordinate, if_pos ⟨by omega, by omega⟩]
    rfl
  have hend := hcoordinate .character _ hcolumn
  rw [Int.natCast_add] at hend
  rw [spanAt, hl, hc, hlength, Span.make, Position.make, Position.make,
    hcoordinate .line _ (by omega), hcoordinate .character _ (by omega), hend]
  rfl

/-- A refusal at a place that can be sent has its diagnostic. -/
theorem ofRefusal_message {e : Lua.SyntaxError} (hp : 1 ≤ e.pos.line ∧ 1 ≤ e.pos.column)
    (hline : e.pos.line ≤ maxCoordinate + 1) (hcolumn : e.pos.column ≤ maxCoordinate) :
    Diagnostic.ofRefusal e.message = .ok (some (.ofFault e)) := by
  have hspan := spanAt_eq 1 hp hline (by omega)
  simp only [Diagnostic.ofRefusal, splitPlace?_message, placeNumber_decimal hline,
    placeNumber_decimal (Nat.le_succ_of_le hcolumn)]
  rw [show ((1 : Int)) = ((1 : Nat) : Int) from rfl, hspan]
  rfl

/-- The report of a checker at a place that can be sent has its diagnostic. -/
theorem diagnosticsOf_messages {ms : List Lua.Message}
    (h : ∀ m ∈ ms, (1 ≤ m.pos.line ∧ 1 ≤ m.pos.column) ∧ m.pos.line ≤ maxCoordinate + 1 ∧
      m.pos.column - 1 + max m.length 1 ≤ maxCoordinate) :
    diagnosticsOf (ms.map Finding.ofMessage) = .ok (ms.map .ofMessage) := by
  induction ms with
  | nil => rfl
  | cons m ms ih =>
    obtain ⟨hp, hline, hcolumn⟩ := h m List.mem_cons_self
    have hspan := spanAt_eq m.length hp hline hcolumn
    have hfirst : Diagnostic.ofFinding (Finding.ofMessage m) = .ok (.ofMessage m) := by
      rw [Diagnostic.ofFinding, Finding.ofMessage, hspan]
      rfl
    rw [List.map_cons, diagnosticsOf, hfirst, ih fun k hk => h k (List.mem_cons_of_mem m hk)]
    rfl

/-! ## 4. Whole texts -/

section
variable {settings : Lua.CheckSettings} {source uri : Text}

/-- A part of a token has places that can be sent, if those of the text can. -/
theorem Sendable.token (hsend : Sendable source) {ts : List Lua.Token}
    (hlex : Lua.Lexes .start source ts) {t : Lua.Token} (ht : t ∈ ts) {p : Pos} (hpos : t.pos = p)
    {length : Nat} (hlength : length ≤ t.text.length) :
    (1 ≤ p.line ∧ 1 ≤ p.column) ∧ p.line ≤ maxCoordinate + 1 ∧
      p.column - 1 + max length 1 ≤ maxCoordinate := by
  obtain ⟨k, hk⟩ := hlex.located t ht
  obtain ⟨hline, hcolumn⟩ := hsend.placeAt_le k
  have hone := one_le_placeAt source k
  have hle := LuaServer.placeAt_le source k
  have hfit := hk.fits
  have hlt := hsend.1
  have hmax : maxCoordinate = 2147483647 := rfl
  rw [← hpos, hk.pos]
  omega

/-- **An analysis finds the diagnostics of a text,** and its tree if none of them is an error. -/
theorem inspect_eq (hclean : Clean source) (hsend : Sendable source) :
    inspect settings source uri
      = .ok ⟨diagnosticsIn settings source uri, treeIn settings source uri⟩ := by
  cases hparse : Lua.parse source uri with
  | error e =>
    obtain ⟨⟨k, hk⟩, -⟩ := Lua.parse_error hparse
    obtain ⟨hline, hcolumn⟩ := hsend.placeAt_le k
    have hone := one_le_placeAt source k
    rw [← hk] at hline hcolumn hone
    simp only [inspect, treeIn, diagnosticsIn, hparse, inspectRefusal,
      ofRefusal_message hone hline hcolumn, Option.toList_some]
  | ok c =>
    obtain ⟨ts, hlex, hfits⟩ := Lua.check_fits hparse hclean settings
    have hplaces : ∀ m ∈ (Lua.check settings c).messages,
        (1 ≤ m.pos.line ∧ 1 ≤ m.pos.column) ∧ m.pos.line ≤ maxCoordinate + 1 ∧
          m.pos.column - 1 + max m.length 1 ≤ maxCoordinate := by
      intro m hm
      obtain ⟨t, ht, hpos, hlength⟩ := (hfits m hm).stands
      exact hsend.token hlex ht hpos hlength
    simp only [inspect, treeIn, diagnosticsIn, hparse, inspectChunk, diagnosticsOf_messages hplaces]

theorem clean_diagnosticSource (tag : String) : Clean (diagnosticSource (text tag)) := by
  simp [diagnosticSource]

/-- Everything in the diagnostics of a text can be shown if the text can. -/
theorem clean_diagnosticsIn (hclean : Clean source) :
    ∀ d ∈ diagnosticsIn settings source uri, Clean d.message ∧ Clean d.source := by
  intro d hd
  unfold diagnosticsIn at hd
  split at hd
  · next e hparse =>
    obtain rfl := List.mem_singleton.mp hd
    exact ⟨(Lua.parse_error hparse).2 hclean, clean_diagnosticSource _⟩
  · next c hparse =>
    obtain ⟨ts, hlex, hfits⟩ := Lua.check_fits hparse hclean settings
    obtain ⟨m, hm, rfl⟩ := List.mem_map.mp hd
    exact ⟨(hfits m hm).clean, clean_diagnosticSource _⟩

end

theorem clean_diagnostic {d : Diagnostic} : d.toJson.Clean ↔ Clean d.message ∧ Clean d.source := by
  simp [Diagnostic.toJson, Span.toJson, Position.toJson]

/-- A publication shows the URI and what the diagnostics say. -/
theorem clean_publishJson {uri : Text} {ds : List Diagnostic} (version : Option Int) :
    (publishJson uri ds version).Clean ↔
      Clean uri ∧ ∀ d ∈ ds, Clean d.message ∧ Clean d.source := by
  have hdiagnostics : (Json.arr (ds.map Diagnostic.toJson)).Clean ↔
      ∀ d ∈ ds, Clean d.message ∧ Clean d.source := by
    simp only [Json.clean_arr, List.forall_mem_map, clean_diagnostic]
  cases version <;>
    simp only [publishJson, notification, Json.clean_obj, List.cons_append, List.nil_append,
      List.append_nil, List.forall_mem_cons, List.not_mem_nil, false_implies, implies_true, clean_text,
      Json.clean_str, Json.clean_string, Json.clean_int, hdiagnostics, true_and, and_true]

/-- A publication can be written if the URI and the diagnostics can be shown. -/
theorem publish_encodes {uri : Text} {ds : List Diagnostic} (version : Option Int) (huri : Clean uri)
    (hds : ∀ d ∈ ds, Clean d.message ∧ Clean d.source) :
    ∃ body, encode (publishJson uri ds version) = .ok body :=
  encode_of_clean ((clean_publishJson version).mpr ⟨huri, hds⟩)

end LuaServer
