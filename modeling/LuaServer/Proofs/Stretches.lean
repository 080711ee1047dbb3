/-
# Stretches that can be sent

The members of a position have a largest value, and a stretch outside the range is not made: a crash says
which member it was.  The same holds of all that is made of stretches, which are the diagnostics of
findings and of refusals and the lists of identifiers, and nothing else goes wrong with these.

Main results: `span_make_cases`, `diagnosticsOf_ok`, `diagnosticsOf_misplaced`, `ofRefusal_misplaced`.
-/
import Mathlib.Data.List.Forall2
import LuaServer.Session.Analysis

namespace LuaServer

/-! ## 1. Stretches -/

theorem coordinate_cases (c : Coordinate) (v : Int) :
    0 ≤ v ∧ v ≤ maxCoordinate ∧ coordinate c v = .ok v.toNat ∨
      ¬(0 ≤ v ∧ v ≤ maxCoordinate) ∧ coordinate c v = .error (.outOfRange c v) := by
  rw [coordinate]
  split
  · next h => exact .inl ⟨h.1, h.2, rfl⟩
  · next h => exact .inr ⟨h, rfl⟩

/-- The members of a stretch can be sent. -/
structure InRange (line character length : Int) : Prop where
  line : 0 ≤ line ∧ line ≤ maxCoordinate
  start : 0 ≤ character ∧ character ≤ maxCoordinate
  stop : 0 ≤ character + length ∧ character + length ≤ maxCoordinate

/-- A stretch is made where all its members are in range. -/
theorem span_make_cases (line character length : Int) :
    (InRange line character length ∧ Span.make line character length
      = .ok ⟨⟨line.toNat, character.toNat⟩, ⟨line.toNat, (character + length).toNat⟩⟩) ∨
    (¬InRange line character length ∧
      ∃ c v, Span.make line character length = .error (.outOfRange c v)) := by
  rcases coordinate_cases .line line with ⟨hl, hl', hline⟩ | ⟨hl, hline⟩
  · rcases coordinate_cases .character character with ⟨hc, hc', hcharacter⟩ | ⟨hc, hcharacter⟩
    · rcases coordinate_cases .character (character + length) with ⟨he, he', hend⟩ | ⟨he, hend⟩
      · exact .inl ⟨⟨⟨hl, hl'⟩, ⟨hc, hc'⟩, ⟨he, he'⟩⟩, by
          simp [Span.make, Position.make, hline, hcharacter, hend]⟩
      · exact .inr ⟨fun h => he h.stop, .character, character + length, by
          simp [Span.make, Position.make, hline, hcharacter, hend]⟩
    · exact .inr ⟨fun h => hc h.start, .character, character, by
        simp [Span.make, Position.make, hline, hcharacter]⟩
  · exact .inr ⟨fun h => hl h.line, .line, line, by simp [Span.make, Position.make, hline]⟩

/-! ## 2. Diagnostics that are made -/

section
variable {f : Finding} {fs : List Finding} {d : Diagnostic} {ds : List Diagnostic}

theorem ofFinding_ok (h : Diagnostic.ofFinding f = .ok d) :
    ∃ span, spanAt f.line f.column f.length = .ok span ∧
      d = ⟨span, f.message, severityOf f.tag, diagnosticSource f.tag⟩ := by
  rw [Diagnostic.ofFinding] at h
  split at h
  · cases h
  · next span hspan =>
    cases h
    exact ⟨span, hspan, rfl⟩

/-- Each finding has its diagnostic. -/
theorem diagnosticsOf_ok (h : diagnosticsOf fs = .ok ds) :
    List.Forall₂ (fun f d => Diagnostic.ofFinding f = .ok d) fs ds := by
  induction fs generalizing ds with
  | nil =>
    cases h
    exact .nil
  | cons f fs ih =>
    rw [diagnosticsOf] at h
    split at h
    · cases h
    · next d hfirst =>
      split at h
      · cases h
      · next hrest =>
        cases h
        exact .cons hfirst (ih hrest)

end

/-! ## 3. Crashes over places -/

/-- A place is out of range, or a number is too long to be one. -/
def Crash.IsMisplaced : Crash → Prop
  | .outOfRange _ _ | .tooManyDigits _ => True
  | _ => False

section
variable {c : Crash}

theorem span_make_misplaced {line character length : Int}
    (h : Span.make line character length = .error c) : c.IsMisplaced := by
  rcases span_make_cases line character length with ⟨-, hspan⟩ | ⟨-, which, v, hspan⟩
  · cases hspan.symm.trans h
  · cases hspan.symm.trans h
    trivial

theorem spansOf_misplaced : ∀ {os : List Occurrence}, spansOf os = .error c → c.IsMisplaced
  | o :: os, h => by
    rw [spansOf] at h
    split at h
    · next hspan =>
      cases h
      exact span_make_misplaced hspan
    · split at h
      · next hspans =>
        cases h
        exact spansOf_misplaced hspans
      · cases h

theorem diagnosticsOf_misplaced : ∀ {fs : List Finding}, diagnosticsOf fs = .error c → c.IsMisplaced
  | f :: fs, h => by
    rw [diagnosticsOf] at h
    split at h
    · next hfirst =>
      cases h
      rw [Diagnostic.ofFinding] at hfirst
      split at hfirst
      · next hspan =>
        cases hfirst
        exact span_make_misplaced hspan
      · cases hfirst
    · split at h
      · next hrest =>
        cases h
        exact diagnosticsOf_misplaced hrest
      · cases h

theorem placeNumber_misplaced {ds : Text} (h : placeNumber ds = .error c) : c.IsMisplaced := by
  unfold placeNumber at h
  split at h <;> cases h
  trivial

theorem ofRefusal_misplaced {message : Text} (h : Diagnostic.ofRefusal message = .error c) :
    c.IsMisplaced := by
  unfold Diagnostic.ofRefusal at h
  repeat' split at h
  all_goals cases h
  · next hline => exact placeNumber_misplaced hline
  · next hcolumn => exact placeNumber_misplaced hcolumn
  · next hspan => exact span_make_misplaced hspan

end

end LuaServer
