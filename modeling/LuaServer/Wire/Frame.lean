/-
# Frames

A message travels as a frame: header lines, an empty line, and a body whose length in bytes the header
`Content-Length` gives.  The stream arrives in chunks that know nothing of frames.

* `encodeFrame`: the frame of a body.
* `contentLength`: the length that a header announces, or what is wrong with it.
* `FrameReader.feed`: takes a chunk and gives the bodies that it completes.

A header is taken out of the buffer before it is read, so a bad one is not read again.
-/
import LuaServer.Text.Literal
import LuaServer.Number.Digits

namespace LuaServer

/-! ## 1. Writing -/

/-- The bytes of a string literal in ASCII. -/
def bytes (s : String) : Bytes := asciiBytes (text s)

/-- What ends the header of a frame. -/
def headerEnd : Bytes := bytes "\r\n\r\n"

/-- The frame of a body. -/
def encodeFrame (body : Bytes) : Bytes :=
  bytes "Content-Length: " ++ asciiBytes (decimal body.length) ++ headerEnd ++ body

/-! ## 2. Headers -/

/-- What is wrong with a header. -/
inductive FrameError where
  | missingLength
  /-- The value of the length, with a replacement character for every byte that is not ASCII. -/
  | notANumber (value : Text)
  | tooManyDigits (digits : Nat)
deriving DecidableEq, Repr

/-- The wording of what is wrong with a header. -/
def FrameError.message : FrameError → Text
  | .missingLength => text "missing Content-Length header"
  | .notANumber value => text "non-numeric Content-Length: " ++ literal value
  | .tooManyDigits n => tooManyDigitsMessage n

/-- White space around the parts of a header line. -/
def isHeaderSpace (b : UInt8) : Bool := b = 32 || (9 ≤ b && b ≤ 13)

/-- A part of a header line without the white space at its ends. -/
def trimBytes (bs : Bytes) : Bytes :=
  ((bs.dropWhile isHeaderSpace).reverse.dropWhile isHeaderSpace).reverse

/-- An ASCII byte in lower case. -/
def lowerByte (b : UInt8) : UInt8 := if 65 ≤ b && b ≤ 90 then b + 32 else b

/-- An ASCII digit. -/
def isDigitByte (b : UInt8) : Bool := 48 ≤ b && b ≤ 57

/-- The lines of a header. -/
def headerLines (bs : Bytes) : List Bytes :=
  match _h : splitAtFirst? (bytes "\r\n") bs with
  | none => [bs]
  | some (line, rest) => line :: headerLines rest
termination_by bs.length
decreasing_by
  have hb := congrArg List.length (splitAtFirst?_eq_append _h)
  have hn : (bytes "\r\n").length = 2 := by decide
  simp only [List.length_append, hn] at hb
  omega

/-- The value of a header line with the given name, which is compared without regard to case. -/
def headerValue? (name line : Bytes) : Option Bytes :=
  match splitAtFirst? (bytes ":") line with
  | some (n, v) => if (trimBytes n).map lowerByte = name then some (trimBytes v) else none
  | none => none

/-- The number that the value of a length header writes. -/
def lengthValue (value : Bytes) : Except FrameError Nat :=
  if value = [] ∨ !value.all isDigitByte then
    .error (.notANumber (value.map fun b => if b < 128 then b.toNat else replacement))
  else if maxDigits < value.length then .error (.tooManyDigits value.length)
  else .ok (ofDigits 10 (value.map fun b => b.toNat - 48))

/-- The length of the body that a header announces: the first line with the right name counts. -/
def contentLength (header : Bytes) : Except FrameError Nat :=
  match (headerLines header).findSome? (headerValue? (bytes "content-length")) with
  | some value => lengthValue value
  | none => .error .missingLength

/-! ## 3. Reading -/

/-- The reader of a stream: the bytes not yet used, and the length of the body that is awaited, if its
header has been read. -/
structure FrameReader where
  buffer : Bytes := []
  expected : Option Nat := none
deriving DecidableEq, Repr

namespace FrameReader

theorem length_lt_of_header {buffer header rest : Bytes}
    (h : splitAtFirst? headerEnd buffer = some (header, rest)) : rest.length < buffer.length := by
  have hb := congrArg List.length (splitAtFirst?_eq_append h)
  have hn : headerEnd.length = 4 := by decide
  simp only [List.length_append, hn] at hb
  omega

/-- Takes every complete frame out of the buffer, with the bodies so far in reverse. -/
def drain (buffer : Bytes) (expected : Option Nat) (done : List Bytes) :
    Except FrameError (List Bytes) × FrameReader :=
  match expected with
  | none =>
    match h : splitAtFirst? headerEnd buffer with
    | none => (.ok done.reverse, ⟨buffer, none⟩)
    | some (header, rest) =>
      have : rest.length < buffer.length := length_lt_of_header h
      match contentLength header with
      | .error e => (.error e, ⟨rest, none⟩)
      | .ok n => drain rest (some n) done
  | some n =>
    if buffer.length < n then (.ok done.reverse, ⟨buffer, some n⟩)
    else drain (buffer.drop n) none (buffer.take n :: done)
termination_by (buffer.length, if expected.isSome then 1 else 0)
decreasing_by
  · simp only [Prod.lex_def]
    left
    assumption
  · simp only [Prod.lex_def, List.length_drop, Option.isSome_some, Option.isSome_none]
    by_cases hn : n = 0
    · right
      simp [hn]
    · left
      omega

/-- Takes a chunk of the stream and gives the bodies that it completes.  A bad header loses the bodies
that the same chunk had completed before it. -/
def feed (r : FrameReader) (chunk : Bytes) : Except FrameError (List Bytes) × FrameReader :=
  drain (r.buffer ++ chunk) r.expected []

end FrameReader
end LuaServer
