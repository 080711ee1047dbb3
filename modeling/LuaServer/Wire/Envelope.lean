/-
# Envelopes

Every message is a JSON object with the protocol's version, a method, an id if it wants an answer, and
parameters.  `decode` reads the bytes of a body; when they are not such a message it says why, and it
recovers the id if it can, so that the sender can be told.

* `Envelope`: a decoded request or notification.
* `DecodeError`: why there is none, and the recovered id.
* `salvageId?`: the id in a text that is not JSON.
* `resultResponse`, `errorResponse`, `notification`: what the server writes.
-/
import LuaServer.Json.Reader
import LuaServer.Json.Writer
import LuaServer.Text.Classes

namespace LuaServer

/-! ## 1. Codes -/

/-- The codes of error replies. -/
inductive ErrorCode where
  | parseError | invalidRequest | methodNotFound | invalidParams | internalError
  | serverNotInitialized | unknownError | requestCancelled | syntaxOrTypeError | identifierNotFound
deriving DecidableEq, Repr

namespace ErrorCode

/-- The number of a code. -/
def number : ErrorCode → Int
  | .parseError => -32700
  | .invalidRequest => -32600
  | .methodNotFound => -32601
  | .invalidParams => -32602
  | .internalError => -32603
  | .serverNotInitialized => -32002
  | .unknownError => -32001
  | .requestCancelled => -32800
  | .syntaxOrTypeError => -32000
  | .identifierNotFound => -32010

/-- Every code. -/
def all : List ErrorCode :=
  [.parseError, .invalidRequest, .methodNotFound, .invalidParams, .internalError,
    .serverNotInitialized, .unknownError, .requestCancelled, .syntaxOrTypeError, .identifierNotFound]

/-- The code with a number. -/
def ofNumber? (n : Int) : Option ErrorCode := all.find? (fun c => c.number = n)

@[simp] theorem ofNumber?_number (c : ErrorCode) : ofNumber? c.number = some c := by
  cases c <;> decide

end ErrorCode

/-! ## 2. Envelopes -/

/-- A request, which has an id, or a notification, which has none.  The parameters are an object or an
array. -/
structure Envelope where
  method : Text
  id : Option Json
  params : Option Json

/-- The message wants an answer. -/
def Envelope.isRequest (e : Envelope) : Bool := e.id.isSome

/-- What is wrong with the members of a message. -/
inductive Problem where
  | versionMissing | versionWrong
  /-- The version has a surrogate in it. -/
  | versionUnreadable
  | methodMissing | methodNotString | idNotScalar | paramsNull | paramsScalar
deriving DecidableEq, Repr

/-- The wording of a problem. -/
def Problem.message : Problem → String
  | .versionMissing => "jsonrpc: Field required"
  | .versionWrong => "jsonrpc: Input should be '2.0'"
  | .versionUnreadable =>
    "jsonrpc: Input should be a valid string, unable to parse raw data as a unicode string"
  | .methodMissing => "method: Field required"
  | .methodNotString => "method: Input should be a valid string"
  | .idNotScalar =>
    "id.int: Input should be a valid integer; id.float: Input should be a valid number; "
      ++ "id.str: Input should be a valid string; id.bool: Input should be a valid boolean"
  | .paramsNull => "params: Value error, params must be an object or an array"
  | .paramsScalar =>
    "params.dict[str,any]: Input should be a valid dictionary; "
      ++ "params.list[any]: Input should be a valid list"

/-- The kinds of values that are not an object, as messages call them. -/
def Json.kindName : Json → String
  | .null => "NoneType"
  | .bool _ => "bool"
  | .int _ => "int"
  | .float _ => "float"
  | .str _ => "str"
  | .arr _ => "list"
  | .obj _ => "dict"

/-- Null, a boolean, a number or a string. -/
def Json.isScalar : Json → Bool
  | .arr _ | .obj _ => false
  | _ => true

/-- Why a body is not a message. -/
inductive DecodeCause where
  | notUtf8 (reason : Utf8.Reason)
  | notJson (source : Text) (fault : JsonFault)
  | notObject (kind : String)
  | invalid (problems : List Problem)

namespace DecodeCause

/-- The wording of a cause. -/
def message : DecodeCause → Text
  | .notUtf8 reason => text "payload is not valid UTF-8: " ++ reason.message
  | .notJson source fault => text "invalid JSON: " ++ fault.message source
  | .notObject kind => text "envelope must be an object, got " ++ text kind
  | .invalid problems =>
    text "invalid request: " ++ join (text "; ") (problems.map fun p => text p.message)

/-- The code with which a cause is reported. -/
def code : DecodeCause → ErrorCode
  | .notUtf8 _ | .notJson _ _ => .parseError
  | .notObject _ | .invalid _ => .invalidRequest

end DecodeCause

/-- Why a body is not a message, and the id that it carries nevertheless. -/
structure DecodeError where
  cause : DecodeCause
  id : Option Json := none

/-! ## 3. Members -/

/-- What is wrong with the version. -/
def versionProblems (ms : Members) : List Problem :=
  match Table.get? (text "jsonrpc") ms with
  | none => [.versionMissing]
  | some (.str s) =>
    if s = text "2.0" then [] else if s.any isSurrogate then [.versionUnreadable] else [.versionWrong]
  | some _ => [.versionWrong]

/-- What is wrong with the method. -/
def methodProblems (ms : Members) : List Problem :=
  match Table.get? (text "method") ms with
  | none => [.methodMissing]
  | some (.str _) => []
  | some _ => [.methodNotString]

/-- What is wrong with the id. -/
def idProblems (ms : Members) : List Problem :=
  match Table.get? (text "id") ms with
  | some v => if v.isScalar then [] else [.idNotScalar]
  | none => []

/-- What is wrong with the parameters. -/
def paramsProblems (ms : Members) : List Problem :=
  match Table.get? (text "params") ms with
  | none | some (.obj _) | some (.arr _) => []
  | some .null => [.paramsNull]
  | some _ => [.paramsScalar]

/-- Everything that is wrong with the members of a message. -/
def problems (ms : Members) : List Problem :=
  versionProblems ms ++ methodProblems ms ++ idProblems ms ++ paramsProblems ms

/-- The id of a message that may be wrong otherwise. -/
def scalarId? (ms : Members) : Option Json := (Table.get? (text "id") ms).filter Json.isScalar

/-- The message that an object is. -/
def Envelope.ofMembers (ms : Members) : Except DecodeError Envelope :=
  match problems ms, Table.get? (text "method") ms with
  | [], some (.str m) => .ok ⟨m, Table.get? (text "id") ms, Table.get? (text "params") ms⟩
  | ps, _ => .error ⟨.invalid ps, scalarId? ms⟩

/-! ## 4. Salvage -/

/-- The size of the digits of an integer, a minus sign in front allowed. -/
def integerSize? (t : Text) : Option Nat :=
  let minus := if t.head? = some (code '-') then 1 else 0
  let n := ((t.drop minus).takeWhile isDecimal).length
  if n = 0 then none else some (minus + n)

/-- The size of the rest of a string after its opening quote.  A backslash takes any code point but a
newline with it. -/
def stringSize? : Text → Option Nat
  | [] => none
  | c :: cs =>
    if c = code '"' then some 1
    else if c = code '\\' then
      match cs with
      | [] => none
      | d :: ds => if d = code '\n' then none else (stringSize? ds).map (· + 2)
    else (stringSize? cs).map (· + 1)

/-- The text of an integer or a string after an `"id"` and a colon at the front of a text. -/
def idText? (t : Text) : Option Text := do
  let name := text "\"id\""
  if name.isPrefixOf t then
    match (t.drop name.length).dropWhile isWhite with
    | c :: rest =>
      if c = code ':' then
        let rest := rest.dropWhile isWhite
        match integerSize? rest with
        | some n => some (rest.take n)
        | none =>
          if rest.head? = some (code '"') then
            (stringSize? (rest.drop 1)).map fun n => rest.take (n + 1)
          else none
      else none
    | [] => none
  else none

/-- The first id in a text, as it is written. -/
def firstIdText? : Text → Option Text
  | [] => none
  | c :: cs =>
    match idText? (c :: cs) with
    | some t => some t
    | none => firstIdText? cs

/-- The id in a text that is not JSON. -/
def salvageId? (t : Text) : Option Json :=
  (firstIdText? t).bind fun t => (Json.parse t).toOption

/-! ## 5. Decoding and encoding -/

/-- The message that the bytes of a body write. -/
def decode (body : Bytes) : Except DecodeError Envelope :=
  match Utf8.decode body with
  | .error f => .error ⟨.notUtf8 f.reason, none⟩
  | .ok t =>
    match Json.parse t with
    | .error f => .error ⟨.notJson t f, salvageId? t⟩
    | .ok (.obj ms) => Envelope.ofMembers ms
    | .ok v => .error ⟨.notObject v.kindName, none⟩

/-- The bytes of a message. -/
def encode (message : Json) : Except Utf8.Unencodable Bytes := Utf8.encode message.render

/-- What is told about a request that failed. -/
structure RpcError where
  code : ErrorCode := .internalError
  message : Text
  data : Json := .null

/-- The members of an error reply; data that is null is left out. -/
def RpcError.toJson (e : RpcError) : Json :=
  .obj ([(text "code", .int e.code.number), (text "message", .str e.message)]
    ++ match e.data with
      | .null => []
      | d => [(text "data", d)])

/-- The answer to a request that succeeded. -/
def resultResponse (id result : Json) : Json :=
  Json.object [("jsonrpc", .string "2.0"), ("id", id), ("result", result)]

/-- The answer to a request that failed. -/
def errorResponse (id : Json) (e : RpcError) : Json :=
  Json.object [("jsonrpc", .string "2.0"), ("id", id), ("error", e.toJson)]

/-- A notification; parameters that are null are left out. -/
def notification (method : Text) (params : Json) : Json :=
  .obj ([(text "jsonrpc", .string "2.0"), (text "method", .str method)]
    ++ match params with
      | .null => []
      | p => [(text "params", p)])

end LuaServer
