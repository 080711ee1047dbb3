/-
# Clients over a network

A listener serves any number of clients.  Each has a session of its own, so what one of them sends has no
effect on another, and what each is sent depends on its own stream alone.
-/
import LuaServer.Connection

namespace LuaServer

variable {σ τ : Type}

/-- Whether clients can reach the listener. -/
inductive Network where
  | reachable | unreachable
deriving DecidableEq, Repr

/-- Why a client is not served. -/
inductive ConnectError where
  | unreachable
deriving DecidableEq, Repr

/-- The number that the host gives an error of a connection. -/
def ConnectError.number : ConnectError → Nat
  | .unreachable => 101

/-- The wording of an error of a connection. -/
def ConnectError.message (e : ConnectError) : Text :=
  text "[Errno " ++ decimal e.number ++ text "] " ++ match e with
    | .unreachable => text "Network is unreachable"

/-- What a client is sent that sends the listed chunks and then waits for the end. -/
def replyTo (srv : Server σ τ) (memory : σ) (chunks : List Bytes) : Bytes :=
  (serve srv (.fresh memory) (readsOf (chunks.filter (· ≠ [])))).2.written.flatten

/-- What each of a list of clients is sent. -/
def serveClients (net : Network) (srv : Server σ τ) (memory : σ) (clients : List (List Bytes)) :
    Except ConnectError (List Bytes) :=
  match net, clients with
  | .unreachable, _ :: _ => .error .unreachable
  | _, clients => .ok (clients.map (replyTo srv memory))

end LuaServer
