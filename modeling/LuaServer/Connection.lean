/-
# A connection

A client writes a stream of bytes, which arrives in reads.  Each read may complete any number of
messages, and these are handled one after the other.  The connection is closed when the stream ends or
when a header on it makes no sense: after a bad header nobody knows where the next message begins.

A failure that comes through the handling of a message, such as the wish to exit, ends everything at
once, and what was written until then stays written.

* `Connection.receive`: one read.
* `serve`: a connection from its first read to its end.
* `readsOf`: how a stream that arrives in chunks is read.
* `Connection.filesFor`: the files that a read makes the session look at.
-/
import LuaServer.Session.Dispatch
import LuaServer.Wire.Frame

namespace LuaServer

variable {σ τ : Type}

/-! ## 1. State -/

/-- A connection: its session with the effects so far, the reader of its stream, and after each read how
many messages had been written. -/
structure Connection (σ τ : Type) where
  world : World σ τ
  reader : FrameReader := {}
  marks : List Nat := []

/-- A connection to which nothing has happened. -/
def Connection.fresh (memory : σ) : Connection σ τ := { world := { session := { memory } } }

/-- How a connection goes on after a read. -/
inductive Progress where
  | waiting
  | closed
  | failed (f : Failure)

/-- The frame of a message, which `send` has found fit to be written. -/
def frameOf (message : Json) : Bytes :=
  match encode message with
  | .ok body => encodeFrame body
  | .error _ => []

/-- The frames that a client has been sent, oldest first. -/
def Connection.written (c : Connection σ τ) : List Bytes := c.world.sent.map frameOf

/-- Closes a connection, with a record of why. -/
def Connection.close (c : Connection σ τ) (level : Level) (message : Text) : Connection σ τ :=
  { c with world := { c.world with
      session := { c.world.session with running := false }
      log := c.world.log ++ [{ level, message }] } }

/-! ## 2. Reads -/

/-- Handles messages one after the other, up to the first failure that comes through. -/
def handleAll (srv : Server σ τ) (w : World σ τ) : List Bytes → Option Failure × World σ τ
  | [] => (none, w)
  | payload :: payloads =>
    match handle srv w payload with
    | (none, w) => handleAll srv w payloads
    | (some f, w) => (some f, w)

/-- Takes what a read gave; nothing at all means that the stream has ended. -/
def Connection.receive (srv : Server σ τ) (c : Connection σ τ) (chunk : Bytes) :
    Progress × Connection σ τ :=
  if chunk = [] then (.closed, c.close .info (text "input closed"))
  else
    match c.reader.feed chunk with
    | (.error (.tooManyDigits n), reader) =>
      (.failed (.crashed (.tooManyDigits n)), { c with reader })
    | (.error e, reader) =>
      (.closed, { c with reader }.close .error
        (text "closing connection on framing error: " ++ e.message))
    | (.ok payloads, reader) =>
      match handleAll srv c.world payloads with
      | (some f, world) => (.failed f, { c with world, reader })
      | (none, world) =>
        (.waiting, { world, reader, marks := c.marks ++ [world.sent.length] })

/-- Serves a connection that gives the listed reads and then ends. -/
def serve (srv : Server σ τ) (c : Connection σ τ) : List Bytes → Option Failure × Connection σ τ
  | [] => (none, (c.receive srv []).2)
  | chunk :: chunks =>
    match c.receive srv chunk with
    | (.waiting, c) => serve srv c chunks
    | (.closed, c) => (none, c)
    | (.failed f, c) => (some f, c)

/-! ## 3. Chunks -/

/-- The most bytes that one read gives. -/
def readSize : Nat := 65536

/-- The reads that a chunk takes.  An empty chunk is an empty read. -/
def piecesOf (chunk : Bytes) : List Bytes :=
  if chunk.length ≤ readSize then [chunk]
  else chunk.take readSize :: piecesOf (chunk.drop readSize)
termination_by chunk.length
decreasing_by
  have : readSize = 65536 := rfl
  simp only [List.length_drop]
  omega

/-- The reads that a stream takes which arrives in chunks. -/
def readsOf (chunks : List Bytes) : List Bytes := chunks.flatMap piecesOf

/-- The reads of a stream that is there as a whole. -/
def readsOfStream (stream : Bytes) : List Bytes := if stream = [] then [] else piecesOf stream

/-- Nothing is lost by reading in pieces. -/
theorem flatten_piecesOf (chunk : Bytes) : (piecesOf chunk).flatten = chunk := by
  fun_induction piecesOf chunk with
  | case1 chunk h => simp
  | case2 chunk h ih => simp [ih]

/-- The reads of a stream that arrives in chunks make up the stream. -/
theorem flatten_readsOf (chunks : List Bytes) : (readsOf chunks).flatten = chunks.flatten := by
  induction chunks with
  | nil => rfl
  | cons c cs ih =>
    have hc := flatten_piecesOf c
    simp only [readsOf, List.flatMap_cons, List.flatten_append, List.flatten_cons] at ih ⊢
    rw [hc, ih]

/-! ## 4. Files -/

/-- The path of the project file that a message makes the session look at, if it starts the session. -/
def projectFileFor? (payload : Bytes) : Option Text := do
  let e ← (decode payload).toOption
  if Method.ofText? e.method = some .start then
    let root ← (rootOf ((e.params.bind Json.members?).getD [])).toOption
    some (projectPath root)
  else none

/-- The paths of the files that a read makes the session look at. -/
def Connection.filesFor (c : Connection σ τ) (chunk : Bytes) : List Text :=
  match (c.reader.feed chunk).1 with
  | .ok payloads => payloads.filterMap projectFileFor?
  | .error _ => []

end LuaServer
