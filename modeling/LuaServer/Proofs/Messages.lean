/-
# What the server writes

The server writes two kinds of messages: notices about the diagnostics of a document, and responses to
requests.  They are told apart by their members: a notice has a method and no id, a response has the id
of its request and either a result or an error.

`lastNotice? uri` is what a client knows about a document.  A message changes it only if it is a notice
about that document.
-/
import LuaServer.Session.Dispatch

namespace LuaServer

/-! ## 1. Kinds of messages -/

/-- The value of a member of a message. -/
def Json.member? (m : Json) (name : String) : Option Json :=
  m.members?.bind (Table.get? (text name))

/-- The method of the notices about the diagnostics of documents. -/
def noticeMethod : Text := text "textDocument/publishDiagnostics"

/-- A notification about the diagnostics of a document. -/
structure IsNotice (m : Json) : Prop where
  method : m.member? "method" = some (.str noticeMethod)
  id : m.member? "id" = none

/-- A response to a request with an id: it has that id and exactly one of a result and an error. -/
structure IsResponse (id m : Json) : Prop where
  id : m.member? "id" = some id
  outcome : m.member? "result" = none ↔ m.member? "error" ≠ none

theorem isNotice_publishJson (uri : Text) (ds : List Diagnostic) (version : Option Int) :
    IsNotice (publishJson uri ds version) := ⟨rfl, rfl⟩

theorem isResponse_result (id result : Json) : IsResponse id (resultResponse id result) :=
  ⟨rfl, nofun, fun h => absurd rfl h⟩

theorem isResponse_error (id : Json) (e : RpcError) : IsResponse id (errorResponse id e) :=
  ⟨rfl, nofun, fun _ => rfl⟩

/-- A notice is no response. -/
theorem IsNotice.not_response {m id : Json} (h : IsNotice m) : ¬IsResponse id m := by
  intro hresponse
  cases h.id.symm.trans hresponse.id

/-! ## 2. The last notice -/

/-- The document that a notice is about. -/
def noticeUri? (m : Json) : Option Text :=
  match m.member? "method", (m.member? "params").bind (·.member? "uri") with
  | some (.str method), some (.str uri) => if method = noticeMethod then some uri else none
  | _, _ => none

@[simp] theorem noticeUri?_publishJson (uri : Text) (ds : List Diagnostic) (version : Option Int) :
    noticeUri? (publishJson uri ds version) = some uri := rfl

@[simp] theorem noticeUri?_resultResponse (id result : Json) :
    noticeUri? (resultResponse id result) = none := rfl

@[simp] theorem noticeUri?_errorResponse (id : Json) (e : RpcError) :
    noticeUri? (errorResponse id e) = none := rfl

/-- The last of several messages that is a notice about a document. -/
def lastNotice? (uri : Text) (ms : List Json) : Option Json :=
  ms.reverse.find? fun m => noticeUri? m = some uri

@[simp] theorem lastNotice?_nil (uri : Text) : lastNotice? uri [] = none := rfl

theorem lastNotice?_append (uri : Text) (ms : List Json) (m : Json) :
    lastNotice? uri (ms ++ [m])
      = if noticeUri? m = some uri then some m else lastNotice? uri ms := by
  rw [lastNotice?, List.reverse_append, List.reverse_singleton, List.singleton_append, List.find?_cons]
  split <;> simp_all [lastNotice?]

/-- A notice about a document is the last one about it. -/
@[simp] theorem lastNotice?_publish (uri : Text) (ds : List Diagnostic) (version : Option Int)
    (ms : List Json) :
    lastNotice? uri (ms ++ [publishJson uri ds version]) = some (publishJson uri ds version) := by
  rw [lastNotice?_append, noticeUri?_publishJson, if_pos rfl]

/-- A notice about another document tells nothing. -/
theorem lastNotice?_publish_of_ne {uri other : Text} (hne : other ≠ uri) (ds : List Diagnostic)
    (version : Option Int) (ms : List Json) :
    lastNotice? other (ms ++ [publishJson uri ds version]) = lastNotice? other ms := by
  rw [lastNotice?_append, noticeUri?_publishJson, if_neg fun h => hne (Option.some.inj h).symm]

end LuaServer
