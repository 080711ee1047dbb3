/-
# Failures

While a message is handled three things can go wrong.  A request can be refused, which is an error reply
with a code of its own; something inside can crash, which is an internal error that names its kind; and
the process can be told to exit.

* `Crash`: everything that may go wrong inside, with the name of its kind and its wording.
* `Failure`: the three ways in which handling a message ends early.
-/
import LuaServer.Text.Literal
import LuaServer.Wire.Envelope

namespace LuaServer

/-! ## 1. Crashes -/

/-- The members of a position. -/
inductive Coordinate where
  | line | character
deriving DecidableEq, Repr

/-- How a message names a member of a position. -/
def Coordinate.name : Coordinate → String
  | .line => "Position.line"
  | .character => "Position.character"

/-- The largest line or character that can be sent. -/
def maxCoordinate : Nat := 2147483647

/-- What is wrong with a URI. -/
inductive UriFault where
  /-- Brackets around a host that are not balanced, or with something beside them. -/
  | brackets
  /-- A bracketed host that is no address. -/
  | notAnAddress (host : Text)
  /-- A bracketed host that is an address of the older kind. -/
  | olderAddress
  /-- A bracketed host that claims to be an address of a future kind and is not. -/
  | futureAddress
  /-- A host in which a code point stands for a delimiter of URIs. -/
  | hiddenDelimiter (host : Text)
deriving DecidableEq, Repr

/-- The wording of what is wrong with a URI. -/
def UriFault.message : UriFault → Text
  | .brackets => text "Invalid IPv6 URL"
  | .notAnAddress host => literal host ++ text " does not appear to be an IPv4 or IPv6 address"
  | .olderAddress => text "An IPv4 address cannot be in brackets"
  | .futureAddress => text "IPvFuture address is invalid"
  | .hiddenDelimiter host =>
    text "netloc '" ++ host ++ text "' contains invalid characters under NFKC normalization"

/-- What may go wrong inside. -/
inductive Crash where
  /-- An outgoing message, or a path, holds a surrogate. -/
  | unencodable (u : Utf8.Unencodable)
  /-- A project file is not UTF-8. -/
  | undecodable (f : Utf8.Fault)
  | invalidUri (f : UriFault)
  /-- A path with a NUL in it. -/
  | embeddedNull
  /-- A position that cannot be sent. -/
  | outOfRange (c : Coordinate) (value : Int)
  /-- A project file with an integer of too many digits. -/
  | tooManyDigits (digits : Nat)
  /-- A symbol that was found is not among the occurrences of the tree. -/
  | lostSymbol
  /-- A component that the server was given, such as a front end, crashed. -/
  | component (message : Text)
deriving DecidableEq, Repr

namespace Crash

/-- The name of the kind of a crash. -/
def kind : Crash → String
  | .unencodable _ => "UnicodeEncodeError"
  | .undecodable _ => "UnicodeDecodeError"
  | .invalidUri _ | .embeddedNull | .outOfRange _ _ | .tooManyDigits _ => "ValueError"
  | .lostSymbol => "NeverThrown"
  | .component _ => "RuntimeError"

/-- The wording of a crash. -/
def message : Crash → Text
  | .unencodable u => u.message
  | .undecodable f => f.message
  | .invalidUri f => f.message
  | .embeddedNull => text "embedded null byte"
  | .outOfRange c value =>
    text c.name ++ text " should be in range [0:" ++ decimal maxCoordinate ++ text "], but was "
      ++ decimalInt value ++ text "."
  | .tooManyDigits n => tooManyDigitsMessage n
  | .lostSymbol => text "resolved occurrence missing from its own tree"
  | .component message => message

/-- What the client is told about a crash. -/
def toRpc (c : Crash) : RpcError :=
  { code := .internalError, message := text c.kind ++ text ": " ++ c.message }

end Crash

/-! ## 2. Failures -/

/-- How handling a message ends early. -/
inductive Failure where
  | refused (e : RpcError)
  | crashed (c : Crash)
  /-- The process exits with a status. -/
  | exited (status : Nat)

end LuaServer
