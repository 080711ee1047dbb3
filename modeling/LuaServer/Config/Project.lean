/-
# The project file

A workspace may have a file `lunals.toml` in its root.  Its table `analysis` is the first layer of the
settings.  A file that is missing, cannot be opened or is malformed counts as empty; one that is not
UTF-8, or that holds an integer beyond every limit, is a crash.

* `checkPath`: a path can be handed to the file system.
* `loadProject`: the tables of a project file; `projectLayer`: its table `analysis`.
-/
import LuaServer.Failure
import LuaServer.Path
import LuaServer.Toml.Document

namespace LuaServer

/-- Where files are read from: the content of the file with a path, if it can be opened. -/
abbrev ReadFile := Text → Option Bytes

/-- The name of the project file. -/
def projectFileName : Text := text "lunals.toml"

/-- A surrogate that stands for a byte in a path. -/
def isByteSurrogate (c : Code) : Bool := 0xDC80 ≤ c && c ≤ 0xDCFF

/-- The first run of surrogates from a place on that stand for no bytes. -/
def firstForeign? (start : Nat) (t : Text) : Option Utf8.Unencodable :=
  match t with
  | [] => none
  | c :: cs =>
    if isSurrogate c && !isByteSurrogate c then
      some ⟨c, start, (cs.takeWhile isSurrogate).length + 1⟩
    else firstForeign? (start + 1) cs

/-- A path can be handed to the file system: every surrogate in it stands for a byte, and no NUL is in
it. -/
def checkPath (path : Text) : Except Crash Unit :=
  match firstForeign? 0 path with
  | some u => .error (.unencodable u)
  | none => if path.contains 0 then .error .embeddedNull else .ok ()

/-- The tables that a project file with the given content has. -/
def projectTables (content : Bytes) : Except Crash Members :=
  match Utf8.decode content with
  | .error f => .error (.undecodable f)
  | .ok source =>
    match Toml.parse source with
    | .ok ms => .ok ms
    | .error .malformed => .ok []
    | .error (.tooManyDigits n) => .error (.tooManyDigits n)

/-- The path of the project file below a root; without a root it is in the working directory. -/
def projectPath (root : Option Text) : Text := joinPath (root.getD (text ".")) projectFileName

/-- The tables of the project file with a path. -/
def loadProject (read : ReadFile) (path : Text) : Except Crash Members :=
  match checkPath path with
  | .error e => .error e
  | .ok () =>
    match read path with
    | none => .ok []
    | some content => projectTables content

/-- The layer of settings in the tables of a project file. -/
def analysisSection (tables : Members) : Members :=
  match Table.get? (text "analysis") tables with
  | some (.obj ms) => ms
  | _ => []

/-- The layer of settings in the project file below a root. -/
def projectLayer (read : ReadFile) (root : Option Text) : Except Crash Members :=
  match loadProject read (projectPath root) with
  | .ok tables => .ok (analysisSection tables)
  | .error e => .error e

end LuaServer
