/-
# From findings to diagnostics

A finding becomes a diagnostic with a severity that its tag decides.  A text that is refused becomes one
diagnostic if the message of the refusal begins with a place, `line:column: `, and none otherwise.
-/
import LuaServer.FrontEnd

namespace LuaServer

/-- The tags of findings that are warnings. -/
def warningTags : List Text := [text "any", text "mask", text "unused"]

/-- How bad a finding with a tag is. -/
def severityOf (tag : Text) : Severity := if warningTags.contains tag then .warning else .error

/-- What the source of a diagnostic begins with. -/
def diagnosticSource (tag : Text) : Text := text "lunals." ++ tag

/-- The stretch of one line at a place counted from 1, at least one character long. -/
def spanAt (line column length : Int) : Except Crash Span :=
  Span.make (max (line - 1) 0) (max (column - 1) 0) (max length 1)

/-- The diagnostic of a finding. -/
def Diagnostic.ofFinding (f : Finding) : Except Crash Diagnostic :=
  match spanAt f.line f.column f.length with
  | .error e => .error e
  | .ok span => .ok ⟨span, f.message, severityOf f.tag, diagnosticSource f.tag⟩

/-- The diagnostics of findings, in order. -/
def diagnosticsOf : List Finding → Except Crash (List Diagnostic)
  | [] => .ok []
  | f :: fs =>
    match Diagnostic.ofFinding f with
    | .error e => .error e
    | .ok d =>
      match diagnosticsOf fs with
      | .error e => .error e
      | .ok ds => .ok (d :: ds)

/-- Decimal digits of any script in front of a text: their texts and what follows. -/
def leadingDigits? (t : Text) : Option (Text × Text) :=
  match t.takeWhile isDecimal with
  | [] => none
  | ds => some (ds, t.dropWhile isDecimal)

/-- The digits of line and column, and the message, of a text `line:column: message`. -/
def splitPlace? (t : Text) : Option (Text × Text × Text) := do
  let (line, t) ← leadingDigits? t
  if t.head? = some (code ':') then
    let (column, t) ← leadingDigits? (t.drop 1)
    if (text ": ").isPrefixOf t then some (line, column, t.drop 2) else none
  else none

/-- The number that digits of a place write. -/
def placeNumber (ds : Text) : Except Crash Int :=
  if maxDigits < ds.length then .error (.tooManyDigits ds.length)
  else .ok (ofDigits 10 (ds.filterMap digitValue?))

/-- The diagnostic of a refusal. -/
def Diagnostic.ofRefusal (message : Text) : Except Crash (Option Diagnostic) :=
  match splitPlace? message with
  | none => .ok none
  | some (line, column, rest) =>
    match placeNumber line with
    | .error e => .error e
    | .ok l =>
      match placeNumber column with
      | .error e => .error e
      | .ok c =>
        match spanAt l c 1 with
        | .error e => .error e
        | .ok span => .ok (some ⟨span, rest, .error, diagnosticSource (text "syntax")⟩)

end LuaServer
