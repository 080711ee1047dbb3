/-
# Handling a message

A request is answered once, with a result or with an error; a notification never.  What may be asked
depends on where the session stands: before it is initialized only `initialize` is answered, and after a
shutdown nothing is.

`handlePayload` handles the bytes of one message.  `handle` is the same from the outside: a world and a
body go in, and the world after it comes out, with the failure that came through if one did.
-/
import LuaServer.Session.Methods

namespace LuaServer

variable {σ τ α : Type}

/-- Runs a step and gives its failure as a value. -/
def attempt (act : Act σ τ α) : Act σ τ (Except Failure α) := fun w =>
  match act w with
  | (r, w) => (.ok r, w)

/-- Carries a request out, if the session allows. -/
def answer (srv : Server σ τ) (e : Envelope) : Act σ τ Json := do
  let s ← session
  let m := Method.ofText? e.method
  if !s.initialized && m ≠ some .start then
    refuse .serverNotInitialized (text "server not initialized")
  else
    match m with
    | none => refuse .methodNotFound (text "unknown method: " ++ e.method)
    | some m =>
      if s.shutdownRequested then refuse .invalidRequest (text "server is shutting down")
      else call srv m e.params

/-- Handles a request: exactly one answer, unless the process ends. -/
def handleRequest (srv : Server σ τ) (id : Json) (e : Envelope) : Act σ τ Unit := do
  match ← attempt (answer srv e) with
  | .ok result => send (resultResponse id result)
  | .error (.refused err) =>
    record .info (text "request " ++ e.method ++ text " failed: " ++ err.message)
    send (errorResponse id err)
  | .error (.crashed c) =>
    record .error (text "request " ++ e.method ++ text " crashed") (some c)
    send (errorResponse id c.toRpc)
  | .error (.exited status) => throw (.exited status)

/-- Handles a notification: no answer, whatever happens. -/
def handleNotification (srv : Server σ τ) (e : Envelope) : Act σ τ Unit := do
  let s ← session
  match Method.ofText? e.method with
  | none =>
    if (text "$/").isPrefixOf e.method then record .debug (text "ignoring notification " ++ e.method)
    else record .warning (text "unknown notification " ++ e.method)
  | some m =>
    if !s.initialized && m ≠ .exit then
      record .warning (text "dropping " ++ e.method ++ text " received before initialize")
    else
      match ← attempt (call srv m e.params) with
      | .ok _ => return ()
      | .error (.refused err) =>
        record .error (text "notification " ++ e.method ++ text " failed: " ++ err.message)
      | .error (.crashed c) =>
        record .error (text "notification " ++ e.method ++ text " crashed") (some c)
      | .error (.exited status) => throw (.exited status)

/-- What is told about a body that is not a message. -/
def DecodeError.toRpc (e : DecodeError) : RpcError :=
  { code := e.cause.code, message := e.cause.message }

/-- Handles the bytes of one message. -/
def handlePayload (srv : Server σ τ) (payload : Bytes) : Act σ τ Unit := do
  match decode payload with
  | .error e =>
    record .warning (text "undecodable message: " ++ e.cause.message)
    match e.id with
    | some id => send (errorResponse id e.toRpc)
    | none => return ()
  | .ok e =>
    match e.id with
    | some id => handleRequest srv id e
    | none => handleNotification srv e

/-- The world after a body was handled, and the failure that came through. -/
def handle (srv : Server σ τ) (w : World σ τ) (payload : Bytes) : Option Failure × World σ τ :=
  match handlePayload srv payload w with
  | (.ok (), w) => (none, w)
  | (.error f, w) => (some f, w)

end LuaServer
