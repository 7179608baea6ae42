import Tauri.Ipc.Channel

/-!
# Requests to the backend

A page reaches `Webview::on_message` on two ways: through the custom protocol `ipc`, by an HTTP
request that `parse_invoke_request` reads, and through `postMessage`, by a JSON text that
`handle_ipc_message` reads. Under the isolation pattern both decrypt the payload first.

The parsers of other crates are parameters (`Crates`), and so is AES-GCM with the key that was
generated for the application (`AesGcm`). Texts of headers are ASCII.
-/

namespace Tauri.Ipc

open Rust Acl Webview

/-- `InvokeBody`, with JSON values of the type `V`. -/
inductive InvokeBody (V : Type) where
  | json (value : V)
  | raw (bytes : List UInt8)
  deriving DecidableEq

/-- `mime::Mime`, as far as it is looked at. -/
inductive Mime where
  | applicationOctetStream
  | applicationJson
  | other (essence : String)
  deriving DecidableEq

/-- The texts of `mime::Mime`. -/
def Mime.text : Mime → String
  | applicationOctetStream => "application/octet-stream"
  | applicationJson => "application/json"
  | other essence => essence

/-- `RawIsolationPayload`. -/
structure RawIsolationPayload where
  nonce : List UInt8
  payload : List UInt8
  contentType : String
  deriving DecidableEq

/-- `RequestOptions` in `handle_ipc_message`. -/
structure RequestOptions where
  headers : Headers := []
  customProtocolIpcBlocked : Bool := false

/-- `Message` in `handle_ipc_message`, and with an encrypted payload `IsolationMessage`. -/
structure Message (P : Type) where
  cmd : String
  callback : UInt32
  error : UInt32
  payload : P
  options : Option RequestOptions
  invokeKey : String

/-- What requests are read with: `serde_json`, `mime`, `percent_encoding` and `url`. -/
structure Crates where
  Value : Type
  /-- `Value::Object(Default::default())`. -/
  emptyObject : Value
  /-- `Value::from(Vec<u8>)`. -/
  valueOfBytes : List UInt8 → Value
  valueFromSlice : List UInt8 → Except String Value
  isolationPayloadFromSlice : List UInt8 → Except String RawIsolationPayload
  messageFromStr : String → Except String (Message Value)
  isolationMessageFromStr : String → Except String (Message RawIsolationPayload)
  parseMime : String → Option Mime
  /-- `percent_decode(…).decode_utf8_lossy()`. -/
  percentDecode : List UInt8 → String
  parseUrl : String → Option Url

/-- AES-GCM with one key: what was encrypted under a nonce can be decrypted with it. -/
structure AesGcm where
  encrypt : List UInt8 → List UInt8 → List UInt8
  decrypt : List UInt8 → List UInt8 → Option (List UInt8)
  decrypt_encrypt : ∀ nonce data, nonce.length = 12 → decrypt nonce (encrypt nonce data) = some data

/-- `Keys::decrypt`. -/
def AesGcm.decryptPayload (keys : AesGcm) (raw : RawIsolationPayload) :
    Except String (List UInt8) :=
  if raw.nonce.length ≠ 12 then .error "Nonce: could not convert slice to array"
  else
    match keys.decrypt raw.nonce raw.payload with
    | none => .error "AES-GCM"
    | some data => .ok data

/-- `Pattern`. -/
inductive Pattern where
  | brownfield
  | isolation (keys : AesGcm)

/-- `http::Request<Vec<u8>>`, with the path of its URI. -/
structure HttpRequest where
  method : String
  path : List UInt8
  headers : Headers
  body : List UInt8

section Requests

variable (K : Crates)

/-- The text of a header value. -/
def headerText (value : List UInt8) : String :=
  String.ofList (value.map fun b => Char.ofNat b.toNat)

/-- A header that has to be there and to be a text. -/
def requiredHeader (headers : Headers) (name missing invalid : String) :
    Except String (List UInt8) :=
  match headerGet headers name with
  | none => .error missing
  | some value =>
    match headerToStr value with
    | none => .error invalid
    | some text => .ok text

/-- A header that has to be the number of a callback. -/
def callbackHeader (headers : Headers) (name missing invalid notNumeric : String) :
    Except String UInt32 := do
  let text ← requiredHeader headers name missing invalid
  match parseU32 text with
  | none => .error notNumeric
  | some n => .ok n

/-- The content type of a request; without a header that is a text, that of raw bytes. -/
def requestContentType (headers : Headers) : Except String Mime :=
  match (headerGet headers "content-type").bind headerToStr with
  | none => .ok .applicationOctetStream
  | some text =>
    match K.parseMime (headerText text) with
    | none => .error "unknown content type"
    | some mime => .ok mime

/-- The URL in the `Origin` header. -/
def originUrl (headers : Headers) : Except String Url := do
  let origin ← requiredHeader headers "origin" "missing Origin header"
    "Origin header value must be a string"
  match K.parseUrl (headerText origin) with
  | none => .error "Origin header is not a valid URL"
  | some url => .ok url

/-- The body of a request and its content type, after the isolation payload is decrypted. -/
def decryptBody (pattern : Pattern) (body : List UInt8) (contentType : Mime) :
    Except String (List UInt8 × Mime) :=
  match pattern with
  | .brownfield => .ok (body, contentType)
  | .isolation keys =>
    if body.isEmpty then .ok (body, contentType)
    else do
      let raw ← K.isolationPayloadFromSlice body
      let decrypted ← keys.decryptPayload raw
      return (decrypted, (K.parseMime raw.contentType).getD .applicationOctetStream)

/-- The body that a command gets. -/
def invokeBody (hasPayload : Bool) (body : List UInt8) :
    Mime → Except String (InvokeBody K.Value)
  | .applicationOctetStream => .ok (.raw body)
  | .applicationJson =>
    if hasPayload then do
      let value ← K.valueFromSlice body
      return .json value
    else .ok (.json K.emptyObject)
  | .other essence => .error ("content type " ++ essence ++ " is not implemented")

/-- `parse_invoke_request`. -/
def parseInvokeRequest (pattern : Pattern) (request : HttpRequest) :
    Except String (InvokeRequest (InvokeBody K.Value)) := do
  let cmd := K.percentDecode (request.path.drop 1)
  let hasPayload := !request.body.isEmpty
  let contentType ← requestContentType K request.headers
  let (body, contentType) ← decryptBody K pattern request.body contentType
  let invokeKey ← requiredHeader request.headers "tauri-invoke-key"
    "missing Tauri-Invoke-Key header" "Tauri invoke key header value must be a string"
  let url ← originUrl K request.headers
  let callback ← callbackHeader request.headers "tauri-callback"
    "missing Tauri-Callback header" "Tauri callback header value must be a string"
    "Tauri callback header value must be a numeric string"
  let error ← callbackHeader request.headers "tauri-error"
    "missing Tauri-Error header" "Tauri error header value must be a string"
    "Tauri error header value must be a numeric string"
  let body ← invokeBody K hasPayload body contentType
  return { cmd, callback, error, url, body, headers := request.headers
           invokeKey := headerText invokeKey }

/-- The payload of an isolation message, decrypted: raw bytes become an array of numbers. -/
def isolationPayload (keys : AesGcm) (raw : RawIsolationPayload) : Except String K.Value := do
  let isRaw := raw.contentType == Mime.text .applicationOctetStream
  let payload ← (keys.decryptPayload raw).mapError fun e => "isolation pattern error: " ++ e
  if isRaw then .ok (K.valueOfBytes payload)
  else (K.valueFromSlice payload).mapError fun e => "JSON error: " ++ e

/-- The message that `handle_ipc_message` reads. -/
def ipcMessage (pattern : Pattern) (body : String) : Except String (Message K.Value) :=
  match pattern with
  | .isolation keys => do
    let message ← (K.isolationMessageFromStr body).mapError fun e => "JSON error: " ++ e
    let payload ← isolationPayload K keys message.payload
    return { message with payload }
  | .brownfield => (K.messageFromStr body).mapError fun e => "JSON error: " ++ e

/-- The request that `handle_ipc_message` passes on, for a message from the page at `uri`. -/
def handleIpcMessage (pattern : Pattern) (uri body : String) :
    Outcome String (InvokeRequest (InvokeBody K.Value)) :=
  match ipcMessage K pattern body with
  | .error e => .err e
  | .ok message =>
    match K.parseUrl uri with
    | none => .panic "invalid IPC request URL"
    | some url =>
      .ok {
        cmd := message.cmd
        callback := message.callback
        error := message.error
        url
        body := .json message.payload
        headers := (message.options.getD {}).headers
        invokeKey := message.invokeKey }

end Requests

section Read

variable {K : Crates} {pattern : Pattern} {r : InvokeRequest (InvokeBody K.Value)}

theorem parseInvokeRequest_eq_ok {request : HttpRequest}
    (h : parseInvokeRequest K pattern request = .ok r) :
    r.cmd = K.percentDecode (request.path.drop 1) ∧
      (∃ contentType body contentType', requestContentType K request.headers = .ok contentType ∧
        decryptBody K pattern request.body contentType = .ok (body, contentType') ∧
        invokeBody K (!request.body.isEmpty) body contentType' = .ok r.body) ∧
      originUrl K request.headers = .ok r.url := by
  obtain ⟨contentType, hctype, h⟩ := except_bind_eq_ok.mp h
  obtain ⟨⟨body, contentType'⟩, hbody, h⟩ := except_bind_eq_ok.mp h
  obtain ⟨invokeKey, -, h⟩ := except_bind_eq_ok.mp h
  obtain ⟨url, hurl, h⟩ := except_bind_eq_ok.mp h
  obtain ⟨callback, -, h⟩ := except_bind_eq_ok.mp h
  obtain ⟨error, -, h⟩ := except_bind_eq_ok.mp h
  obtain ⟨body', hbody', h⟩ := except_bind_eq_ok.mp h
  cases h
  exact ⟨rfl, ⟨contentType, body, contentType', hctype, hbody, hbody'⟩, hurl⟩

theorem decryptPayload_eq_ok {keys : AesGcm} {raw : RawIsolationPayload} {data : List UInt8} :
    keys.decryptPayload raw = .ok data ↔
      raw.nonce.length = 12 ∧ keys.decrypt raw.nonce raw.payload = some data := by
  rw [AesGcm.decryptPayload]
  by_cases hnonce : raw.nonce.length = 12
  · cases keys.decrypt raw.nonce raw.payload <;> simp [hnonce]
  · simp [hnonce]

theorem decryptBody_isolation {keys : AesGcm} {body data : List UInt8}
    {contentType contentType' : Mime} (hbody : body.isEmpty = false)
    (h : decryptBody K (.isolation keys) body contentType = .ok (data, contentType')) :
    ∃ raw, K.isolationPayloadFromSlice body = .ok raw ∧ keys.decryptPayload raw = .ok data ∧
      contentType' = (K.parseMime raw.contentType).getD .applicationOctetStream := by
  simp only [decryptBody, hbody, Bool.false_eq_true, if_false] at h
  obtain ⟨raw, hraw, h⟩ := except_bind_eq_ok.mp h
  obtain ⟨data', hdata, h⟩ := except_bind_eq_ok.mp h
  cases h
  exact ⟨raw, hraw, hdata, rfl⟩

theorem handleIpcMessage_eq_ok {uri body : String}
    (h : handleIpcMessage K pattern uri body = .ok r) :
    ∃ message, ipcMessage K pattern body = .ok message ∧ r.cmd = message.cmd ∧
      r.body = .json message.payload ∧ K.parseUrl uri = some r.url := by
  rw [handleIpcMessage] at h
  cases hmsg : ipcMessage K pattern body with
  | error e =>
    rw [hmsg] at h
    cases h
  | ok => grind

theorem ipcMessage_isolation {keys : AesGcm} {body : String} {message : Message K.Value}
    (h : ipcMessage K (.isolation keys) body = .ok message) :
    ∃ encrypted, K.isolationMessageFromStr body = .ok encrypted ∧
      isolationPayload K keys encrypted.payload = .ok message.payload ∧
      message.cmd = encrypted.cmd := by
  obtain ⟨encrypted, henc, h⟩ := except_bind_eq_ok.mp h
  obtain ⟨payload, hpay, h⟩ := except_bind_eq_ok.mp h
  cases h
  exact ⟨encrypted, except_mapError_eq_ok.mp henc, hpay, rfl⟩

end Read

end Tauri.Ipc
