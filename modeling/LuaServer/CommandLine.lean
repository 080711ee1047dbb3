/-
# The command line

The program takes two options with a value and one without: `-p`/`--port`, `-d`/`--debug-log` and
`--help`.  A value may follow an option or be attached to it (`-p80`, `--port=80`), and whatever follows an
option that needs a value is its value.  If an option is given twice the last value counts.  After `--`
nothing is an option.

* `Arguments.scan`: what stands on a command line.
* `port?`: the port that a value writes.
* `Options.ofArguments`: what is asked for, once help has been given precedence and the values are read.
-/
import LuaServer.Config.Project
import LuaServer.Protocol.Params

namespace LuaServer

/-! ## 1. Scanning -/

/-- The options that take a value. -/
inductive Parameter where
  | port | debugLog
deriving DecidableEq, Repr

namespace Parameter

/-- The letter of an option. -/
def letter : Parameter → Char
  | .port => 'p'
  | .debugLog => 'd'

/-- The long name of an option. -/
def name : Parameter → String
  | .port => "--port"
  | .debugLog => "--debug-log"

/-- The options with a value. -/
def all : List Parameter := [.port, .debugLog]

theorem mem_all (p : Parameter) : p ∈ all := by cases p <;> decide

end Parameter

/-- What is wrong with a command line. -/
inductive UsageError where
  | unknownOption (arg : Text)
  | missingValue (p : Parameter)
  /-- A value for an option that takes none. -/
  | needlessValue (arg : Text)
  | badPort (value : Text)
  /-- The path of the debug log can not be handed to the file system. -/
  | badPath (value : Text)
  /-- The debug log is a directory. -/
  | logIsDirectory (path : Text)
  | extraArgument (arg : Text)
deriving DecidableEq, Repr

/-- The wording of what is wrong with a command line. -/
def UsageError.message : UsageError → Text
  | .unknownOption arg => text "no such option: " ++ arg
  | .missingValue p => text "option " ++ text p.name ++ text " requires an argument"
  | .needlessValue arg => text "option takes no value: " ++ arg
  | .badPort value => text "not a port from 0 to 65535: " ++ value
  | .badPath value => text "not a path: " ++ value
  | .logIsDirectory path => text "debug log is a directory: " ++ path
  | .extraArgument arg => text "unexpected extra argument: " ++ arg

/-- What a single argument is. -/
inductive ArgumentKind where
  | positional
  /-- Everything after it is positional. -/
  | separator
  | help
  /-- An option with the value attached to it. -/
  | valued (p : Parameter) (value : Text)
  /-- An option whose value is the next argument. -/
  | awaiting (p : Parameter)
  | wrong (e : UsageError)
deriving DecidableEq, Repr

/-- An argument that begins with two dashes. -/
def longOption (arg : Text) : ArgumentKind :=
  let (name, value) := match splitAtFirst? (text "=") arg with
    | some (name, value) => (name, some value)
    | none => (arg, none)
  if name = text "--help" then
    if value.isSome then .wrong (.needlessValue arg) else .help
  else
    match Parameter.all.find? (fun p => text p.name = name), value with
    | some p, some v => .valued p v
    | some p, none => .awaiting p
    | none, _ => .wrong (.unknownOption arg)

/-- An argument that begins with one dash, the letter of an option, and more. -/
def shortOption (arg : Text) (letter : Code) (more : Text) : ArgumentKind :=
  match Parameter.all.find? (fun p => code p.letter = letter) with
  | none => .wrong (.unknownOption arg)
  | some p => if more = [] then .awaiting p else .valued p more

/-- What a single argument is. -/
def ArgumentKind.ofText (arg : Text) : ArgumentKind :=
  match arg with
  | c :: d :: rest =>
    if c ≠ code '-' then .positional
    else if d ≠ code '-' then shortOption arg d rest
    else if rest = [] then .separator
    else longOption arg
  | _ => .positional

/-- What stands on a command line: the values of options in order, whether help is asked for, and what
is no option. -/
structure Arguments where
  given : List (Parameter × Text) := []
  help : Bool := false
  extra : List Text := []
deriving DecidableEq, Repr

namespace Arguments

/-- Reads arguments one after the other. -/
def scan (found : Arguments) : List Text → Except UsageError Arguments
  | [] => .ok found
  | arg :: rest =>
    match ArgumentKind.ofText arg with
    | .positional => scan { found with extra := found.extra ++ [arg] } rest
    | .separator => .ok { found with extra := found.extra ++ rest }
    | .help => scan { found with help := true } rest
    | .valued p v => scan { found with given := found.given ++ [(p, v)] } rest
    | .awaiting p =>
      match rest with
      | [] => .error (.missingValue p)
      | v :: rest => scan { found with given := found.given ++ [(p, v)] } rest
    | .wrong e => .error e

/-- The value of an option: the last one given. -/
def value? (a : Arguments) (p : Parameter) : Option Text :=
  (a.given.reverse.find? (fun g => g.1 = p)).map (·.2)

/-- The options that are given, each where it first stands. -/
def parameters (a : Arguments) : List Parameter := (a.given.map (·.1)).eraseDups

end Arguments

/-! ## 2. Ports -/

/-- A numeral without the zeros in front of it and the underscores among them.  Where nothing but those
stands before the end or the point, the last of them is kept. -/
def dropZeros (t : Text) : Text :=
  if t.head? = some (code '0') then
    let front := t.takeWhile fun c => c = code '0' || c = code '_'
    let rest := t.drop front.length
    if rest.head?.any isDigit then rest else front.drop (front.length - 1) ++ rest
  else t

/-- A numeral without a point and zeros at its end. -/
def dropFraction (t : Text) : Text :=
  match splitAtFirst? [code '.'] t with
  | some (whole, fraction) => if fraction != [] && fraction.all (· = code '0') then whole else t
  | none => t

/-- The number that a numeral without a sign writes: ASCII digits with single underscores between them,
and perhaps a fraction of zeros. -/
def wholeNumber? (t : Text) : Option Nat := natural? decimalDigit? (dropFraction (dropZeros t))

/-- The number that a numeral writes, if it is at least zero.  Of the numerals with a minus sign only those
of zero are. -/
def signedNumber? (t : Text) : Option Nat :=
  match t with
  | [] => none
  | c :: rest =>
    if c = code '+' then wholeNumber? rest
    else if c = code '-' then (wholeNumber? rest).filter (· = 0)
    else wholeNumber? t

/-- The largest port. -/
def maxPort : Nat := 65535

/-- The port that a value writes, with white space around it allowed. -/
def port? (value : Text) : Option Nat :=
  (signedNumber? (trim isNumeralSpace value)).filter (· ≤ maxPort)

/-! ## 3. Meaning -/

/-- What is asked for: a port to listen on instead of standard input and output, and a file to which a
debug log is appended. -/
structure Options where
  port : Option Nat := none
  debugLog : Option Text := none
deriving DecidableEq, Repr

/-- Why the program does not start. -/
inductive Stop where
  | usage (e : UsageError)
  | help
deriving DecidableEq, Repr

/-- The path of the debug log that a value names: its normal form, which may lead to anything but a
directory. -/
def logPath (isDirectory : Text → Bool) (value : Text) : Except UsageError Text :=
  match checkPath value with
  | .error _ => .error (.badPath value)
  | .ok () =>
    let path := normalizePath value
    if isDirectory path then .error (.logIsDirectory path) else .ok path

namespace Options

/-- Takes in the value of an option. -/
def set (o : Options) (isDirectory : Text → Bool) (value : Text) :
    Parameter → Except UsageError Options
  | .port =>
    match port? value with
    | some n => .ok { o with port := some n }
    | none => .error (.badPort value)
  | .debugLog =>
    match logPath isDirectory value with
    | .ok path => .ok { o with debugLog := some path }
    | .error e => .error e

/-- Takes in the values of options. -/
def setAll (o : Options) (isDirectory : Text → Bool) (a : Arguments) :
    List Parameter → Except UsageError Options
  | [] => .ok o
  | p :: ps =>
    match o.set isDirectory ((a.value? p).getD []) p with
    | .ok o => o.setAll isDirectory a ps
    | .error e => .error e

/-- What arguments ask for.  Help comes before every other consideration, and an argument too many after
all of them. -/
def ofArguments (isDirectory : Text → Bool) (a : Arguments) : Except Stop Options :=
  if a.help then .error .help
  else
    match Options.setAll {} isDirectory a a.parameters with
    | .error e => .error (.usage e)
    | .ok o =>
      match a.extra with
      | [] => .ok o
      | arg :: _ => .error (.usage (.extraArgument arg))

/-- What a command line asks for. -/
def ofCommandLine (isDirectory : Text → Bool) (args : List Text) : Except Stop Options :=
  match Arguments.scan {} args with
  | .error e => .error (.usage e)
  | .ok a => ofArguments isDirectory a

end Options
end LuaServer
