/-
# Parameters

The parameters of a method are a JSON object of which the members that the method needs are read; others
are ignored.  Reading is lenient: a number where a string is wanted is read as its text, and a string
where an integer is wanted is read as a numeral.  `none` means that the parameters are not those of the
method.

* `Json.asInteger?`: lenient integers; `Json.asText` gives lenient strings.
* one structure for each shape of parameters, with its reader.
-/
import LuaServer.Json.Literal
import LuaServer.Protocol.Position

namespace LuaServer

/-! ## 1. Scalars -/

/-- White space around a numeral. -/
def isNumeralSpace (c : Code) : Bool := isWhite c && !(0x1C ≤ c && c ≤ 0x1F)

/-- The integer that a numeral writes, with white space around it, a sign, and single underscores
between its digits.  The digits may be of any script. -/
def integerOfText? (t : Text) : Option Int :=
  let (neg, ds) := Double.sign (trim isNumeralSpace t)
  (natural? digitValue? ds).map fun n => if neg then -(n : Int) else n

/-- An integer, the integer part of a float, 0 or 1 for a boolean, or what a numeral writes. -/
def Json.asInteger? : Json → Option Int
  | .int n => some n
  | .float d => d.truncate?
  | .bool b => some (if b then 1 else 0)
  | .str s => integerOfText? s
  | .null | .arr _ | .obj _ => none

/-- A number between two bounds. -/
def inRange? (lo hi n : Int) : Option Int := if lo ≤ n ∧ n ≤ hi then some n else none

/-- A line or a character. -/
def Json.asCoordinate? (j : Json) : Option Nat :=
  (j.asInteger?.bind (inRange? 0 maxCoordinate)).map Int.toNat

/-- The version of a document. -/
def Json.asVersion? (j : Json) : Option Int := j.asInteger?.bind (inRange? (-2147483648) 2147483647)

/-- The members of an object. -/
def Json.members? : Json → Option Members
  | .obj ms => some ms
  | _ => none

/-- The value of a member that must be present. -/
def member? (name : String) (ms : Members) : Option Json := Table.get? (text name) ms

/-- The value of a member that may be absent or null. -/
def optional? (name : String) (ms : Members) : Option Json :=
  match Table.get? (text name) ms with
  | some .null | none => none
  | some v => some v

/-! ## 2. Parts -/

/-- A position. -/
def positionOf? (j : Json) : Option Position := do
  let ms ← j.members?
  let line ← (← member? "line" ms).asCoordinate?
  let character ← (← member? "character" ms).asCoordinate?
  return ⟨line, character⟩

/-- The URI of a document. -/
def uriOf? (j : Json) : Option Text := do
  let ms ← j.members?
  return (← member? "uri" ms).asText

/-- A stretch of a document. -/
def spanOf? (j : Json) : Option Span := do
  let ms ← j.members?
  let start ← positionOf? (← member? "start" ms)
  let stop ← positionOf? (← member? "end" ms)
  return ⟨start, stop⟩

/-- The items of a sequence of objects.  Besides an array, an object or a string with nothing in it will
do. -/
def Json.items? : Json → Option (List Json)
  | .arr items => some items
  | .obj [] | .str [] => some []
  | _ => none

/-- A sequence of objects that are all as they should be. -/
def Json.areItems (p : Json → Bool) (j : Json) : Bool := j.items?.any fun items => items.all p

/-! ## 3. Parameters of the methods -/

/-- A document that is opened. -/
structure OpenParams where
  uri : Text
  languageId : Json
  version : Int
  text : Text

/-- Reads the parameters of an opening. -/
def openParams? (ms : Members) : Option OpenParams := do
  let doc ← (← member? "textDocument" ms).members?
  let uri := (← member? "uri" doc).asText
  let languageId ← member? "languageId" doc
  let version ← (← member? "version" doc).asVersion?
  let text := (← member? "text" doc).asText
  if languageId.isScalar then return ⟨uri, languageId, version, text⟩ else none

/-- A change of a document: its new text, and whether it is confined to a stretch. -/
structure Change where
  text : Text
  ranged : Bool

/-- Reads a change. -/
def changeOf? (j : Json) : Option Change := do
  let ms ← j.members?
  let text := (← member? "text" ms).asText
  match member? "range" ms with
  | some r =>
    let _ ← spanOf? r
    match optional? "rangeLength" ms with
    | some n =>
      let _ ← n.asCoordinate?
      return ⟨text, true⟩
    | none => return ⟨text, true⟩
  | none => return ⟨text, false⟩

/-- Changes of a document, and the version that they lead to. -/
structure ChangeParams where
  uri : Text
  version : Int
  changes : List Change

/-- Reads the parameters of a change. -/
def changeParams? (ms : Members) : Option ChangeParams := do
  let doc ← (← member? "textDocument" ms).members?
  let uri := (← member? "uri" doc).asText
  let version ← (← member? "version" doc).asVersion?
  let items ← (← member? "contentChanges" ms).items?
  let changes ← items.mapM changeOf?
  return ⟨uri, version, changes⟩

/-- Reads the parameters of a closing: the URI. -/
def closeParams? (ms : Members) : Option Text := do uriOf? (← member? "textDocument" ms)

/-- A document that was saved, with its text if the client sends it. -/
structure SaveParams where
  uri : Text
  text : Option Text

/-- Reads the parameters of a saving. -/
def saveParams? (ms : Members) : Option SaveParams := do
  let uri ← uriOf? (← member? "textDocument" ms)
  match optional? "text" ms with
  | some t => return ⟨uri, some t.asText⟩
  | none => return ⟨uri, none⟩

/-- A position in a document. -/
structure PlaceParams where
  uri : Text
  position : Position

/-- Reads a position in a document. -/
def placeParams? (ms : Members) : Option PlaceParams := do
  let uri ← uriOf? (← member? "textDocument" ms)
  let position ← positionOf? (← member? "position" ms)
  return ⟨uri, position⟩

/-- A position in a document, and a new name for what stands there. -/
structure RenameParams where
  place : PlaceParams
  newName : Text

/-- Reads the parameters of a renaming. -/
def renameParams? (ms : Members) : Option RenameParams := do
  let place ← placeParams? ms
  let newName := (← member? "newName" ms).asText
  return ⟨place, newName⟩

/-- Reads the parameters of a search for references, which say whether the declaration counts. -/
def referenceParams? (ms : Members) : Option PlaceParams := do
  let place ← placeParams? ms
  let context ← (← member? "context" ms).members?
  let _ ← member? "includeDeclaration" context
  return place

/-- One of the three ways in which a request can be triggered. -/
def isTriggerKind : Json → Bool
  | .int n => 1 ≤ n && n ≤ 3
  | .bool b => b
  | .float d => [1, 2, 3].any fun n => d = Double.ofRatio false n 1
  | _ => false

/-- Reads the parameters of a completion. -/
def completionParams? (ms : Members) : Option PlaceParams := do
  let place ← placeParams? ms
  match optional? "context" ms with
  | none => return place
  | some c =>
    let context ← c.members?
    if isTriggerKind (← member? "triggerKind" context) then return place else none

/-- Text marked up in one of two ways. -/
def isMarkup (ms : Members) : Bool :=
  (member? "value" ms).isSome
    && match member? "kind" ms with
      | some (.str kind) => kind = text "plaintext" || kind = text "markdown"
      | _ => false

/-- Text in a language that it names. -/
def isCodeBlock (ms : Members) : Bool :=
  (member? "language" ms).isSome && (member? "value" ms).isSome

/-- A part of documentation: a scalar other than null, or text in a language. -/
def isDocumentationPart : Json → Bool
  | .null | .arr _ => false
  | .obj ms => isCodeBlock ms
  | _ => true

/-- Documentation: a scalar, a list of parts, text marked up, or text in a language.  An object that has a
kind is taken for text marked up. -/
def isDocumentation : Json → Bool
  | .arr parts => parts.all isDocumentationPart
  | .obj ms => if (member? "kind" ms).isSome then isMarkup ms else isCodeBlock ms
  | _ => true

/-- What a parameter of a signature is called: a string, or the two ends of a stretch of the signature's
label. -/
def isParameterLabel : Json → Bool
  | .str _ => true
  | .arr (start :: stop :: _) => start.asInteger?.isSome && stop.asInteger?.isSome
  | _ => false

/-- A parameter of a signature. -/
def isParameter (j : Json) : Bool :=
  j.members?.any fun ms =>
    (member? "label" ms).any isParameterLabel && (optional? "documentation" ms).all isDocumentation

/-- A signature. -/
def isSignature (j : Json) : Bool :=
  j.members?.any fun ms =>
    (member? "label" ms).isSome
      && (optional? "documentation" ms).all isDocumentation
      && (optional? "parameters" ms).all (·.areItems isParameter)
      && (optional? "activeParameter" ms).all (·.asInteger?.isSome)

/-- The signature help that a client shows already.  The active parameter may be any integer, the active
signature must be one that can be sent. -/
def isSignatureHelp (j : Json) : Bool :=
  j.members?.any fun ms =>
    (member? "signatures" ms).any (·.areItems isSignature)
      && (optional? "activeSignature" ms).all (·.asCoordinate?.isSome)
      && (optional? "activeParameter" ms).all (·.asInteger?.isSome)

/-- Reads the parameters of a signature help. -/
def signatureParams? (ms : Members) : Option PlaceParams := do
  let place ← placeParams? ms
  match optional? "context" ms with
  | none => return place
  | some c =>
    let context ← c.members?
    let _ ← member? "isRetrigger" context
    let kind ← member? "triggerKind" context
    if isTriggerKind kind && (optional? "activeSignatureHelp" context).all isSignatureHelp then
      return place
    else none

/-- Reads the parameters of a change of the configuration: the settings, whatever they are. -/
def configurationParams? (ms : Members) : Option Json := member? "settings" ms

end LuaServer
