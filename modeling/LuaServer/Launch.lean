/-
# Starting the program

A command line decides which transport is started and where the log goes.  The transport then runs until
it returns, is interrupted, exits or crashes, and that decides the status of the program.

* `openLog`: whether a debug log can be opened.
* `launch`: a run of the program from its command line to its status.
-/
import LuaServer.CommandLine
import LuaServer.Connection

namespace LuaServer

/-! ## 1. Transports -/

/-- What the server talks over. -/
inductive Transport where
  | stdio
  | tcp (port : Nat)
deriving DecidableEq, Repr

/-- How a transport ends. -/
inductive Ending where
  | returned
  | interrupted
  | exited (status : Nat)
  | crashed (c : Crash)
deriving DecidableEq, Repr

/-- How a connection to the only client ends the transport. -/
def Ending.ofFailure : Option Failure → Ending
  | some (.exited status) => .exited status
  | some (.crashed c) => .crashed c
  | _ => .returned

/-- A run of a transport: the port on which it said it listens, what its sessions logged, and its
end. -/
structure Run where
  bound : Option Nat := none
  log : List LogRecord := []
  ending : Ending := .returned

/-! ## 2. The log -/

/-- The parts of the program that log. -/
inductive LogSource where
  | program | session
deriving DecidableEq, Repr

/-- The name of a part of the program in the log. -/
def LogSource.name : LogSource → Text
  | .program => text serverName ++ text ".cli"
  | .session => text serverName ++ text ".session"

/-- A line of the log, without the time. -/
def logLine (source : LogSource) (r : LogRecord) : Text :=
  text r.level.name ++ text " " ++ source.name ++ text ": " ++ r.message

/-- Why a debug log can not be opened. -/
inductive LogFault where
  | missingDirectory
  | isDirectory
  /-- Something on the way is a file. -/
  | notADirectory
  /-- A name, or the path as a whole, is longer than the file system takes. -/
  | nameTooLong
deriving DecidableEq, Repr

/-- The most bytes that a name can have. -/
def maxNameSize : Nat := 255

/-- The most bytes that a path can have. -/
def maxPathSize : Nat := 4095

/-- How many bytes a name takes; a surrogate stands for one. -/
def nameSize (name : Text) : Nat :=
  name.foldl (fun n c => n + if isSurrogate c then 1 else (Utf8.encodeCode c).length) 0

/-- How many bytes the path of a place takes. -/
def placeSize (place : List Text) : Nat := place.foldl (fun n name => n + 1 + nameSize name) 0

/-- Follows names down from a directory to the file that the last of them stands for, or will stand
for. -/
def openBelow (tree : FileTree) (directory : List Text) : List Text → Except LogFault (List Text)
  | [] => .error .isDirectory
  | name :: names =>
    let place := directory ++ [name]
    if maxNameSize < nameSize name then .error .nameTooLong
    else if tree.isDirectory place then openBelow tree place names
    else if names = [] then .ok place
    else if (tree.contentAt? place).isSome then .error .notADirectory
    else .error .missingDirectory

/-- The place of a debug log that can be opened.  The path is taken as it is written, so `..` undoes the
part before it whatever that is. -/
def openLog (tree : FileTree) (path : Text) : Except LogFault (List Text) :=
  let place := tree.namedPlace path
  if maxPathSize < placeSize place then .error .nameTooLong
  else openBelow tree [] place

/-! ## 3. Runs of the program -/

/-- Why the program ends with a crash. -/
inductive LaunchFault where
  | log (f : LogFault)
  | transport (c : Crash)
deriving DecidableEq, Repr

/-- A run of the program: its status, the transport that was started, the place and the lines of the
debug log, the line that announces a port, and the crash that ended it. -/
structure Launch where
  status : Nat
  started : Option Transport := none
  log : Option (List Text × List Text) := none
  announced : Option Text := none
  fault : Option LaunchFault := none
deriving DecidableEq, Repr

/-- The line that announces a port. -/
def announcement (port : Nat) : Text :=
  text serverName ++ text " listening on 127.0.0.1:" ++ decimal port

/-- The transport that options ask for. -/
def Options.transport (o : Options) : Transport :=
  match o.port with
  | none => .stdio
  | some port => .tcp port

/-- The first record of every log. -/
def startRecord : LogRecord :=
  { level := .info, message := text serverName ++ text " " ++ text serverVersion ++ text " starting" }

/-- The record of an interruption. -/
def interruptRecord : LogRecord := { level := .info, message := text "interrupted" }

/-- The lines of the debug log of a run. -/
def Run.logLines (r : Run) : List Text :=
  logLine .program startRecord :: r.log.map (logLine .session)
    ++ (if r.ending = .interrupted then [logLine .program interruptRecord] else [])

/-- The status that the end of a transport gives the program. -/
def Ending.status : Ending → Nat
  | .returned | .interrupted => 0
  | .exited status => status
  | .crashed _ => 1

/-- The crash in the end of a transport. -/
def Ending.fault? : Ending → Option LaunchFault
  | .crashed c => some (.transport c)
  | _ => none

/-- The program after its transport has run, with a debug log at the given place. -/
def finish (o : Options) (log : Option (List Text)) (r : Run) : Launch where
  status := r.ending.status
  started := some o.transport
  log := log.map fun place => (place, r.logLines)
  announced := r.bound.map announcement
  fault := r.ending.fault?

/-- A run of the program on a host with the given files, whose transports run as given. -/
def launch (tree : FileTree) (run : Transport → Run) (args : List Text) : Launch :=
  match Options.ofCommandLine tree.isDirectoryPath args with
  | .error .help => { status := 0 }
  | .error (.usage _) => { status := 2 }
  | .ok o =>
    match o.debugLog with
    | none => finish o none (run o.transport)
    | some path =>
      match openLog tree path with
      | .error f => { status := 1, fault := some (.log f) }
      | .ok place => finish o (some place) (run o.transport)

end LuaServer
