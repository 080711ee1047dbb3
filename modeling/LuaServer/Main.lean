/-
# The program

Reads the command line, opens the debug log, and serves the client on standard input and output.  All
decisions are made by `Options.ofCommandLine` and `Connection.receive`; what stands here moves bytes.

Until the length of a message is known the input is read byte by byte, so that a read never waits for
more than the client has to send.
-/
import LuaServer.Launch
import LuaServer.Listener

namespace LuaServer.Program

/-- A text for the host. -/
def hostString (t : Text) : String := String.ofList (t.map Char.ofNat)

/-- The content of a file, if it can be read. -/
def contentOf? (path : Text) : IO (Option Bytes) := do
  try
    return some (← IO.FS.readBinFile (hostString path)).toList
  catch _ => return none

/-- A path leads to a directory. -/
def isDirectory (path : Text) : IO Bool := do
  try
    let _ ← IO.FS.Handle.mk (hostString (path ++ text "/.")) .read
    return true
  catch _ => return false

/-- The contents of the files that a read makes the session look at. -/
def contentsFor (c : Connection Unit LuaTree) (chunk : Bytes) : IO (Table Bytes) := do
  let mut contents : Table Bytes := []
  for path in c.filesFor chunk do
    match ← contentOf? path with
    | some content => contents := Table.insert path content contents
    | none => pure ()
  return contents

/-- Appends lines to the debug log. -/
def appendLog (log : Option IO.FS.Handle) (lines : List Text) : IO Unit := do
  match log with
  | none => return ()
  | some handle =>
    for line in lines do
      handle.putStrLn (hostString line)
    handle.flush

/-- How many bytes are needed before anything can happen. -/
def needed (reader : FrameReader) : Nat :=
  match reader.expected with
  | some n => min (n - reader.buffer.length) readSize
  | none => 1

/-- Serves the client on standard input and output. -/
partial def serveInput (log : Option IO.FS.Handle) (c : Connection Unit LuaTree) : IO Ending := do
  let stdin ← IO.getStdin
  let stdout ← IO.getStdout
  let chunk := (← stdin.read (needed c.reader).toUSize).toList
  let contents ← contentsFor c chunk
  let srv : Server Unit LuaTree :=
    { frontEnd := luaFrontEnd, read := fun path => Table.get? path contents, onExit := .leave }
  let (progress, c) := c.receive srv chunk
  for frame in c.written do
    stdout.write ⟨frame.toArray⟩
  stdout.flush
  appendLog log (c.world.log.map (logLine .session))
  match progress with
  | .waiting => serveInput log { world := { session := c.world.session }, reader := c.reader }
  | .closed => return .returned
  | .failed f => return .ofFailure (some f)

/-- Opens the debug log that options ask for. -/
def openDebugLog (o : Options) : IO (Option IO.FS.Handle) := do
  match o.debugLog with
  | none => return none
  | some path => return some (← IO.FS.Handle.mk (hostString path) .append)

/-- Runs the transport that options ask for. -/
def runTransport (o : Options) : IO UInt32 := do
  let log ← openDebugLog o
  appendLog log [logLine .program startRecord]
  match o.transport with
  | .stdio =>
    match ← serveInput log (.fresh ()) with
    | .crashed c =>
      IO.eprintln (hostString c.message)
      return 1
    | ending => return ending.status.toUInt32
  | .tcp _ =>
    IO.eprintln (hostString ConnectError.unreachable.message)
    return 1

/-- What help says. -/
def usage : String :=
  "Usage: lunals [OPTIONS]\n\n"
    ++ "  Run the lunals language server.\n\n"
    ++ "Options:\n"
    ++ "  -p, --port N          Serve on a loopback TCP port instead of stdio.\n"
    ++ "  -d, --debug-log PATH  Append debug logging to this file.\n"
    ++ "  --help                Show this message and exit."

/-- Does what a command line asks for, and gives the status of the program. -/
def run (args : List Text) : IO UInt32 := do
  let logValue := (Arguments.scan {} args).toOption.bind (·.value? .debugLog)
  let logIsDirectory ← isDirectory (normalizePath (logValue.getD []))
  match Options.ofCommandLine (fun _ => logIsDirectory) args with
  | .error .help =>
    IO.println usage
    return 0
  | .error (.usage e) =>
    IO.eprintln (hostString e.message)
    return 2
  | .ok o => runTransport o

end LuaServer.Program

/-- The program. -/
def main (args : List String) : IO UInt32 := LuaServer.Program.run (args.map LuaServer.text)
