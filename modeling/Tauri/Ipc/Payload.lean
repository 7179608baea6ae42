import Tauri.Ipc.Bridge
import Tauri.Rust.Document
import Tauri.Rust.F64

/-!
# Payloads on both ways

The payload of a command is a JavaScript value. Over the custom protocol it is the body of a
request: bytes for a buffer, a view or an array, and otherwise the text of `JSON.stringify`. Over
`postMessage` it is one member of a message, and the message as a whole is one text. The function
that replaces maps, byte arrays and channels on the way (`processIpcMessage`) does not look at the
key that a value stands under, so that a payload is stringified to the same document on both ways.

What a command receives is not the same. **A message has no content type**, and its payload is
always JSON: bytes arrive as an array of numbers, or of a view as an object. And the message is one
level around its payload, so that a payload that is nested as deeply as the reader allows is read
on one way only. `transports_agree_iff` says that these are the only differences, for applications
with and without the isolation pattern.

Number formats and the text of a document belong to the browser, and so do the rules by which it
sends requests. The laws of the reader and of the browser are fields of `LawfulInvocation`, for the
texts of the invocation alone.
-/

namespace Tauri.Ipc

open Rust Acl Webview Option

/-! ### JavaScript values -/

/-- The values without parts. A number is given by its bits. -/
inductive JsScalar where
  | null
  | bool (b : Bool)
  | number (bits : UInt64)
  | string (s : String)
  deriving DecidableEq

/-- What a JSON text says. -/
abbrev JsonDocument := Document JsScalar

/-- The values of a payload. The keys of a map are given as property keys. -/
inductive JsValue where
  | scalar (s : JsScalar)
  | array (vs : List JsValue)
  | object (entries : List (String × JsValue))
  /-- A `Map`, with its entries in the order of insertion. -/
  | map (entries : List (String × JsValue))
  | arrayBuffer (bytes : List UInt8)
  | uint8Array (bytes : List UInt8)
  /-- Another typed array, with its elements if they are numbers; those of a `BigInt64Array` are
  not. -/
  | typedArray (bytes : List UInt8) (elements : Option (List UInt64))
  | dataView (bytes : List UInt8)
  | channel (id : UInt32)
  /-- An object with the method that serialises it for the IPC, and what the method returns. -/
  | toIpc (value : JsValue)

namespace JsValue

def number (i : Int) : JsValue := .scalar (.number (F64.ofInt i))

def text (s : String) : JsValue := .scalar (.string s)

/-- The test of `processIpcMessage` for a payload that is sent as it is. -/
def isRaw : JsValue → Bool
  | array _ | arrayBuffer _ | uint8Array _ | typedArray _ _ | dataView _ => true
  | _ => false

end JsValue

/-- `Object.fromEntries`: of two entries with one key the second one counts. -/
def fromEntries {α : Type} : List (String × α) → List (String × α)
  | [] => []
  | (k, v) :: entries =>
    let rest := fromEntries entries
    match rest.lookup k with
    | some v' => (k, v') :: rest.filter (·.1 ≠ k)
    | none => (k, v) :: rest

/-- The entries, if each of them has a value. -/
def allEntries {α : Type} : List (String × Option α) → Option (List (String × α))
  | [] => some []
  | (k, v) :: entries => do
    let v ← v
    let entries ← allEntries entries
    return (k, v) :: entries

/-- A number in a JSON text: infinities and `NaN` are `null`. -/
def JsScalar.toJson : JsScalar → JsScalar
  | .number bits => if F64.isFinite bits then .number bits else .null
  | s => s

/-- The bytes of an array of numbers. -/
def byteNumbers (bytes : List UInt8) : JsonDocument :=
  .list (bytes.map fun b => .leaf (.number (F64.ofInt b.toNat)))

/-- The elements of a typed array as the properties of an object. -/
def indexed (elements : List UInt64) : JsonDocument :=
  .map (elements.zipIdx.map fun e => (toString e.2, .leaf (JsScalar.toJson (.number e.1))))

/-- `SERIALIZE_TO_IPC_FN`. -/
def serializeToIpcFn : String := "__TAURI_TO_IPC_KEY__"

/-- The number that makes an object a channel for the replacer, which is not only the class. -/
def channelNumber (entries : List (String × JsValue)) : Option UInt64 :=
  match entries.lookup "__TAURI_CHANNEL_MARKER__", entries.lookup "id" with
  | some _, some (.scalar (.number bits)) => some bits
  | _, _ => none

section Stringify

variable (numberText : UInt64 → String)

/-- The text that stands for a channel. -/
def channelText (bits : UInt64) : JsonDocument :=
  .leaf (.string ("__CHANNEL__:" ++ numberText bits))

mutual

/-- `JSON.stringify` with the replacer of `processIpcMessage`, as the document that the text says;
`none` when it throws. -/
def JsValue.stringify : JsValue → Option JsonDocument
  | .map entries => do
    let entries ← allEntries (fromEntries (stringifyEntries entries))
    return .map entries
  | .uint8Array bytes => some (byteNumbers bytes)
  | .arrayBuffer bytes => some (byteNumbers bytes)
  | .toIpc value => stringifyReplaced value
  | .object entries =>
    -- no value here is a function, and calling another one throws
    if (entries.lookup serializeToIpcFn).isSome then none
    else
      match channelNumber entries with
      | some bits => some (channelText numberText bits)
      | none => (allEntries (stringifyEntries entries)).map .map
  | .channel id => some (channelText numberText (F64.ofInt id.toNat))
  | .scalar s => some (.leaf s.toJson)
  | .array vs => (stringifyList vs).map .list
  | .typedArray _ elements => elements.map indexed
  | .dataView _ => some (.map [])

/-- The value that the replacer has returned: it is not replaced again, but its parts are. -/
def stringifyReplaced : JsValue → Option JsonDocument
  | .scalar s => some (.leaf s.toJson)
  | .array vs => (stringifyList vs).map .list
  | .object entries => (allEntries (stringifyEntries entries)).map .map
  | .typedArray _ elements => elements.map indexed
  | .uint8Array bytes => some (indexed (bytes.map fun b => F64.ofInt b.toNat))
  | .channel id => some (.map [("__TAURI_CHANNEL_MARKER__", .leaf (.bool true)),
      ("id", .leaf (.number (F64.ofInt id.toNat)))])
  -- objects without properties of their own
  | .map _ | .arrayBuffer _ | .dataView _ | .toIpc _ => some (.map [])

def stringifyList : List JsValue → Option (List JsonDocument)
  | [] => some []
  | v :: vs => do
    let d ← v.stringify
    let ds ← stringifyList vs
    return d :: ds

def stringifyEntries : List (String × JsValue) → List (String × Option JsonDocument)
  | [] => []
  | (k, v) :: entries => (k, v.stringify) :: stringifyEntries entries

end

end Stringify

/-! ### The page -/

/-- The bytes of a text. -/
def utf8 (s : String) : List UInt8 := s.toUTF8.data.toList

/-- What the scripts use of the browser. -/
structure Browser where
  invokeKey : String
  convertFileSrc : String → List UInt8
  requestHeaders : List (String × List UInt8) → Headers
  /-- The text of a number. -/
  numberText : UInt64 → String
  /-- The text of a JSON document. -/
  print : JsonDocument → String
  print_ne_empty : ∀ d, print d ≠ ""
  /-- The text of an array, which is what `fetch` makes of one. -/
  arrayText : List JsValue → String
  /-- `new Uint8Array(array)`. -/
  arrayBytes : List JsValue → List UInt8

/-- The desktop platforms, by `std::env::consts::OS`. -/
inductive Desktop where
  | linux
  | macos
  | windows
  deriving DecidableEq

def Desktop.osName : Desktop → String
  | linux => "linux"
  | macos => "macos"
  | windows => "windows"

namespace Browser

variable (b : Browser)

/-- `processIpcMessage`, with the bytes that the data is turned into: `fetch` takes the bytes of a
buffer or of a view, and an array by the way `ofArray`. -/
def processIpcMessage (ofArray : List JsValue → List UInt8) :
    JsValue → Option (String × List UInt8)
  | .arrayBuffer bytes | .uint8Array bytes | .typedArray bytes _ | .dataView bytes =>
    some (Mime.text .applicationOctetStream, bytes)
  | .array vs => some (Mime.text .applicationOctetStream, ofArray vs)
  | v => (v.stringify b.numberText).map fun d => (Mime.text .applicationJson, utf8 (b.print d))

/-- The options of a posted message. -/
def optionsValue (options : RequestOptions) : JsValue :=
  .object ((if options.headers.isEmpty then [] else
      [("headers", .object (options.headers.map fun h => (h.1, .text (headerText h.2))))]) ++
    [("customProtocolIpcBlocked", .scalar (.bool options.customProtocolIpcBlocked))])

/-- The message that is posted. -/
def messageValue (m : Message JsValue) : JsValue :=
  .object [("cmd", .text m.cmd), ("callback", .number m.callback.toNat),
    ("error", .number m.error.toNat), ("options", optionsValue (m.options.getD {})),
    ("payload", m.payload), ("__TAURI_INVOKE_KEY__", .text m.invokeKey)]

/-- The page. -/
def page (os : Desktop) : Page JsValue where
  invokeKey := b.invokeKey
  osName := os.osName
  processIpcMessage := b.processIpcMessage fun vs => utf8 (b.arrayText vs)
  stringify m := ((messageValue m).stringify b.numberText).map b.print
  convertFileSrc := b.convertFileSrc
  requestHeaders := b.requestHeaders

end Browser

/-- The payload of the isolation frame, as a value. -/
def RawIsolationPayload.toJs (raw : RawIsolationPayload) : JsValue :=
  .object [("nonce", .array (raw.nonce.map fun b => .number b.toNat)),
    ("payload", .array (raw.payload.map fun b => .number b.toNat)),
    ("contentType", .text raw.contentType)]

/-! ### Invocations -/

/-- A call of a command by a page, with the texts that the page and the backend exchange. -/
structure Invocation where
  K : Crates
  browser : Browser
  os : Desktop
  keys : AesGcm
  nonce : List UInt8
  nonce_length : nonce.length = 12
  cmd : String
  callback : UInt32
  error : UInt32
  /-- The payload, under the isolation pattern as the hook has let it through. -/
  payload : JsValue
  uri : String
  /-- The value that is read for a document. -/
  value : JsonDocument → K.Value
  /-- The number of levels that `serde_json` reads. -/
  limit : Nat

namespace Invocation

variable (c : Invocation)

def page : Page JsValue := c.browser.page c.os

/-- What the isolation frame makes of the payload. -/
def encrypted : Option RawIsolationPayload :=
  (c.browser.processIpcMessage c.browser.arrayBytes c.payload).map fun p =>
    encrypt c.keys (fun _ : JsValue => p) c.nonce c.payload

def message (payload : JsValue) : IsolationData JsValue where
  cmd := c.cmd
  callback := c.callback
  error := c.error
  payload := payload
  options := none

def pattern (isolated : Bool) : Pattern := if isolated then .isolation c.keys else .brownfield

/-- The payload that `sendIpcMessage` gets, by the pattern of the application. -/
def sentPayload (isolated : Bool) : Option JsValue :=
  if isolated then c.encrypted.map RawIsolationPayload.toJs else some c.payload

/-- The body that the command receives over the custom protocol. -/
def byProtocol (isolated : Bool) : Option (InvokeBody c.K.Value) := do
  let payload ← c.sentPayload isolated
  let call : IpcCall JsValue Unit Unit := { message := c.message payload }
  let request ← (sendIpcMessage c.page false call).inFlight
  let request ← (parseInvokeRequest c.K (c.pattern isolated) request).toOption
  return request.body

/-- The body that the command receives after the page has fallen back to `postMessage`. -/
def byPostMessage (isolated : Bool) : Option (InvokeBody c.K.Value) := do
  let payload ← c.sentPayload isolated
  let call : IpcCall JsValue Unit Unit := { message := c.message payload }
  let text ← (sendIpcMessage c.page true call).posted
  match handleIpcMessage c.K (c.pattern isolated) c.uri text with
  | .ok request => return request.body
  | _ => none

/-- The document of the message that is posted. -/
def postedDocument (payload : JsValue) : Option JsonDocument :=
  (Browser.messageValue (postedMessage c.page true (c.message payload))).stringify
    c.browser.numberText

end Invocation

/-- A document is read if it has at most `limit` levels, and then what is read has the property. -/
structure Reads {α : Type} (limit : Nat) (d : JsonDocument) (result : Except String α)
    (P : α → Prop) : Prop where
  ok : d.depth ≤ limit → ∃ a, result = .ok a ∧ P a
  error : limit < d.depth → ∃ e, result = .error e

/-- An invocation with what the browser and the crates promise: the headers of a request arrive,
with the origin; the types of the two contents have their names; and `serde_json` reads what
`JSON.stringify` has written, up to its limit. -/
structure LawfulInvocation extends Invocation where
  invokeKey_text : (headerToStr (headerBytes browser.invokeKey)).isSome
  requestHeaders_get : ∀ contentType callback error key,
    let headers := browser.requestHeaders [("Content-Type", contentType),
      ("Tauri-Callback", callback), ("Tauri-Error", error), ("Tauri-Invoke-Key", key)]
    headerGet headers "content-type" = some contentType ∧
      headerGet headers "tauri-callback" = some callback ∧
      headerGet headers "tauri-error" = some error ∧
      headerGet headers "tauri-invoke-key" = some key
  origin : ∀ headers, ∃ url, originUrl K (browser.requestHeaders headers) = .ok url
  uri_url : ∃ url, K.parseUrl uri = some url
  parseMime_octetStream : K.parseMime (Mime.text .applicationOctetStream) =
    some .applicationOctetStream
  parseMime_json : K.parseMime (Mime.text .applicationJson) = some .applicationJson
  three_le_limit : 3 ≤ limit
  reads_value : ∀ d, payload.stringify browser.numberText = some d →
    Reads limit d (K.valueFromSlice (utf8 (browser.print d))) (· = value d)
  reads_message : ∀ d, payload.stringify browser.numberText = some d →
    ∀ m, toInvocation.postedDocument payload = some m →
      Reads limit m (K.messageFromStr (browser.print m)) (·.payload = value d)
  reads_encrypted : ∀ raw, toInvocation.encrypted = some raw →
    ∀ d, raw.toJs.stringify browser.numberText = some d →
      Reads limit d (K.isolationPayloadFromSlice (utf8 (browser.print d))) (· = raw)
  reads_isolationMessage : ∀ raw, toInvocation.encrypted = some raw →
    ∀ m, toInvocation.postedDocument raw.toJs = some m →
      Reads limit m (K.isolationMessageFromStr (browser.print m)) (·.payload = raw)

/-! ### The request -/

theorem headerBytes_toString (n : Nat) : headerBytes (toString n) = decimal n := by
  rw [headerBytes, Nat.toString_eq_repr, Nat.toList_repr, decimal]

theorem headerToStr_decimal (n : Nat) : headerToStr (decimal n) = some (decimal n) := by
  unfold headerToStr
  rw [if_pos]
  rw [List.all_eq_true]
  intro b hb
  obtain ⟨hlow, hhigh⟩ := toNat_of_mem_decimal hb
  have hvis : 32 ≤ b ∧ b < 127 := by
    rw [UInt8.le_iff_toNat_le, UInt8.lt_iff_toNat_lt]
    change 32 ≤ b.toNat ∧ b.toNat < 127
    omega
  simp [hvis]

theorem callbackHeader_eq_ok {headers : Headers} {name : String} {n : UInt32}
    (h : headerGet headers name = some (headerBytes (toString n.toNat)))
    (missing invalid notNumeric : String) :
    callbackHeader headers name missing invalid notNumeric = .ok n := by
  simp only [callbackHeader, requiredHeader, h, headerBytes_toString, headerToStr_decimal, bind,
    Except.bind, parseU32_decimal]

namespace LawfulInvocation

variable (c : LawfulInvocation)

theorem requestContentType_eq {headers : Headers} {mime : Mime}
    (hmime : mime = .applicationOctetStream ∨ mime = .applicationJson)
    (h : headerGet headers "content-type" = some (headerBytes mime.text)) :
    requestContentType c.K headers = .ok mime := by
  have htext : headerToStr (headerBytes mime.text) = some (headerBytes mime.text) ∧
      headerText (headerBytes mime.text) = mime.text ∧ c.K.parseMime mime.text = some mime := by
    rcases hmime with rfl | rfl
    · exact ⟨rfl, rfl, c.parseMime_octetStream⟩
    · exact ⟨rfl, rfl, c.parseMime_json⟩
  obtain ⟨hstr, hhd, hparse⟩ := htext
  simp only [requestContentType, h, bind_some, hstr, hhd, hparse]

theorem body_of_request (pattern : Pattern) (payload : JsValue) {mime : Mime}
    (hmime : mime = .applicationOctetStream ∨ mime = .applicationJson) (data : List UInt8) :
    (parseInvokeRequest c.K pattern
        (fetchRequest c.page (c.message payload) mime.text data)).toOption.map (·.body) =
      (decryptBody c.K pattern data mime >>= fun decrypted =>
        invokeBody c.K (!data.isEmpty) decrypted.1 decrypted.2).toOption := by
  let request := fetchRequest c.page (c.message payload) mime.text data
  obtain ⟨hctype, hcb, herror, hkey⟩ : headerGet request.headers "content-type" = _ ∧
      headerGet request.headers "tauri-callback" = _ ∧ headerGet request.headers "tauri-error" = _ ∧
      headerGet request.headers "tauri-invoke-key" = _ := c.requestHeaders_get _ _ _ _
  obtain ⟨url, horig⟩ : ∃ url, originUrl c.K request.headers = .ok url := c.origin _
  obtain ⟨key, hkeyText⟩ : ∃ key, headerToStr (headerBytes c.page.invokeKey) = some key :=
    isSome_iff_exists.mp c.invokeKey_text
  have hinvokeKey (missing invalid : String) :
      requiredHeader request.headers "tauri-invoke-key" missing invalid = .ok key := by
    simp only [requiredHeader, hkey, hkeyText]
  change (parseInvokeRequest c.K pattern request).toOption.map _ = _
  simp only [parseInvokeRequest, c.requestContentType_eq hmime hctype, hinvokeKey, horig,
    callbackHeader_eq_ok hcb, callbackHeader_eq_ok herror]
  change (decryptBody c.K pattern data mime >>= fun decrypted => _).toOption.map _ = _
  cases decryptBody c.K pattern data mime with
  | error e => rfl
  | ok decrypted =>
    change
      (invokeBody c.K (!data.isEmpty) decrypted.1 decrypted.2 >>= fun body => _).toOption.map _ =
      (invokeBody c.K (!data.isEmpty) decrypted.1 decrypted.2).toOption
    cases invokeBody c.K (!data.isEmpty) decrypted.1 decrypted.2 <;> rfl

end LawfulInvocation

/-! ### Documents of a payload and of a message -/

namespace Browser

variable {b : Browser} {v : JsValue}

theorem processIpcMessage_of_raw (h : v.isRaw = true) (ofArray : List JsValue → List UInt8) :
    ∃ data, b.processIpcMessage ofArray v = some (Mime.text .applicationOctetStream, data) := by
  cases v with
  | array | arrayBuffer | uint8Array | typedArray | dataView => exact ⟨_, rfl⟩
  | _ => cases h

theorem processIpcMessage_of_not_raw (h : v.isRaw = false) (ofArray : List JsValue → List UInt8) :
    b.processIpcMessage ofArray v = (v.stringify b.numberText).map fun d =>
      (Mime.text .applicationJson, utf8 (b.print d)) := by
  cases v with
  | array | arrayBuffer | uint8Array | typedArray | dataView => cases h
  | _ => rfl

theorem utf8_print_ne_nil (b : Browser) (d : JsonDocument) : utf8 (b.print d) ≠ [] := by
  intro h
  have hbytes : (b.print d).toByteArray = ByteArray.empty := by
    apply ByteArray.ext
    simpa [utf8] using h
  exact b.print_ne_empty d (String.toByteArray_inj.mp hbytes)

end Browser

open Document

theorem exists_stringifyList_bytes (numberText : UInt64 → String) (bytes : List UInt8) :
    ∃ ds, stringifyList numberText (bytes.map fun b => .number b.toNat) = some ds ∧
      Document.depthList ds = 0 := by
  induction bytes with
  | nil => exact ⟨[], rfl, rfl⟩
  | cons b bytes ih =>
    obtain ⟨ds, hds, hdepth⟩ := ih
    refine ⟨.leaf (JsScalar.toJson (.number (F64.ofInt b.toNat))) :: ds, ?_, ?_⟩
    · rw [List.map_cons, stringifyList, hds]
      rfl
    · simp [depthList, depth, hdepth]

theorem exists_stringify_encrypted (numberText : UInt64 → String) (raw : RawIsolationPayload) :
    ∃ d, raw.toJs.stringify numberText = some d ∧ d.depth = 2 := by
  obtain ⟨nonce, hnonce, hnonceDepth⟩ := exists_stringifyList_bytes numberText raw.nonce
  obtain ⟨payload, hpay, hpayloadDepth⟩ := exists_stringifyList_bytes numberText raw.payload
  refine ⟨.map [("nonce", .list nonce), ("payload", .list payload),
    ("contentType", .leaf (.string raw.contentType))], ?_, ?_⟩
  · simp [RawIsolationPayload.toJs, JsValue.stringify, stringifyEntries, allEntries, hnonce,
      hpay, JsValue.text, serializeToIpcFn, channelNumber, JsScalar.toJson, List.lookup]
  · simp [depth, depthEntries, hnonceDepth, hpayloadDepth]

namespace Invocation

variable (c : Invocation) {v : JsValue}

/-- The document of a message whose payload has the document `d`. -/
def messageDocument (d : JsonDocument) : JsonDocument :=
  .map [("cmd", .leaf (.string c.cmd)),
    ("callback", .leaf (JsScalar.toJson (.number (F64.ofInt c.callback.toNat)))),
    ("error", .leaf (JsScalar.toJson (.number (F64.ofInt c.error.toNat)))),
    ("options", .map [("customProtocolIpcBlocked", .leaf (.bool true))]),
    ("payload", d), ("__TAURI_INVOKE_KEY__", .leaf (.string c.browser.invokeKey))]

theorem postedDocument_eq (v : JsValue) :
    c.postedDocument v = (v.stringify c.browser.numberText).map c.messageDocument := by
  unfold postedDocument
  cases hv : v.stringify c.browser.numberText <;>
    simp [Browser.messageValue, postedMessage, message, Browser.optionsValue, JsValue.stringify,
      stringifyEntries, allEntries, hv, serializeToIpcFn, channelNumber, JsValue.text,
      JsValue.number, List.lookup, messageDocument, JsScalar.toJson, page, Browser.page]

theorem depth_messageDocument (d : JsonDocument) :
    (c.messageDocument d).depth = max 1 d.depth + 1 := by
  simp [messageDocument, depth, depthEntries]

theorem depth_postedDocument {v : JsValue} {d m : JsonDocument}
    (hd : v.stringify c.browser.numberText = some d) (hm : c.postedDocument v = some m) :
    m.depth = max 1 d.depth + 1 := by
  rw [postedDocument_eq, hd] at hm
  obtain rfl := some.inj hm
  exact c.depth_messageDocument d

end Invocation

/-! ### What the command receives -/

namespace Invocation

variable (c : Invocation) (v : JsValue)

theorem processIpcMessage_of_not_raw {v : JsValue} (h : v.isRaw = false) :
    c.page.processIpcMessage v = (v.stringify c.browser.numberText).map fun d =>
      (Mime.text .applicationJson, utf8 (c.browser.print d)) :=
  Browser.processIpcMessage_of_not_raw h fun vs => utf8 (c.browser.arrayText vs)

theorem inFlight_eq :
    (sendIpcMessage c.page false
        ({ message := c.message v } : IpcCall JsValue Unit Unit)).inFlight =
      (c.page.processIpcMessage v).map fun p => fetchRequest c.page (c.message v) p.1 p.2 := by
  have hos : (c.page.osName != "android") = true := by
    change (c.os.osName != "android") = true
    cases c.os <;> rfl
  simp only [sendIpcMessage, hos, message]
  cases c.page.processIpcMessage v <;> rfl

theorem posted_eq :
    (sendIpcMessage c.page true ({ message := c.message v } : IpcCall JsValue Unit Unit)).posted =
      (c.postedDocument v).map c.browser.print := by
  have hstringify : c.page.stringify (postedMessage c.page true (c.message v)) =
      (c.postedDocument v).map c.browser.print := rfl
  simp only [sendIpcMessage, hstringify]
  cases c.postedDocument v <;> rfl

end Invocation

namespace LawfulInvocation

variable (c : LawfulInvocation)

variable {mime : Mime} {data : List UInt8}

open Invocation

theorem byProtocol_of_sent {isolated : Bool} {v : JsValue}
    (hsent : c.sentPayload isolated = some v)
    (hmime : mime = .applicationOctetStream ∨ mime = .applicationJson)
    (h : c.page.processIpcMessage v = some (mime.text, data)) :
    c.byProtocol isolated = (decryptBody c.K (c.pattern isolated) data mime >>= fun decrypted =>
      invokeBody c.K (!data.isEmpty) decrypted.1 decrypted.2).toOption := by
  rw [← c.body_of_request (c.pattern isolated) v hmime data]
  simp only [byProtocol, hsent, bind_eq_bind, bind_some, inFlight_eq, h, map_some]
  cases (parseInvokeRequest c.K (c.pattern isolated) _).toOption <;> rfl

theorem byPostMessage_of_sent {isolated : Bool} {v : JsValue} {m : JsonDocument}
    (hsent : c.sentPayload isolated = some v) (h : c.postedDocument v = some m) :
    c.byPostMessage isolated =
      (ipcMessage c.K (c.pattern isolated) (c.browser.print m)).toOption.map (.json ·.payload) := by
  obtain ⟨url, hurl⟩ := c.uri_url
  simp only [byPostMessage, hsent, bind_eq_bind, bind_some,
    posted_eq, h, map_some, handleIpcMessage, hurl]
  cases ipcMessage c.K (c.pattern isolated) (c.browser.print m) <;> rfl

theorem byPostMessage_ne_raw (isolated : Bool) (bytes : List UInt8) :
    c.byPostMessage isolated ≠ some (.raw bytes) := by
  intro h
  cases hsent : c.sentPayload isolated with
  | none => simp [byPostMessage, hsent] at h
  | some v =>
    cases hpost : c.postedDocument v with
    | none => simp [byPostMessage, hsent, posted_eq, hpost] at h
    | some m =>
      rw [c.byPostMessage_of_sent hsent hpost] at h
      simp at h

theorem decryptPayload_encrypted {p : String × List UInt8} :
    c.keys.decryptPayload (encrypt c.keys (fun _ : JsValue => p) c.nonce c.payload) = .ok p.2 := by
  simp [AesGcm.decryptPayload, encrypt, c.nonce_length, c.keys.decrypt_encrypt]

/-- Under the isolation pattern the page sends what the frame has encrypted: an object of two
levels. -/
theorem exists_sent_isolated {p : String × List UInt8}
    (h : c.browser.processIpcMessage c.browser.arrayBytes c.payload = some p) :
    ∃ raw d, raw = encrypt c.keys (fun _ : JsValue => p) c.nonce c.payload ∧
      c.encrypted = some raw ∧ c.sentPayload true = some raw.toJs ∧
      raw.toJs.stringify c.browser.numberText = some d ∧ d.depth = 2 := by
  let raw := encrypt c.keys (fun _ : JsValue => p) c.nonce c.payload
  have hraw : c.encrypted = some raw := by simp [encrypted, h, raw]
  obtain ⟨d, hd, hdepth⟩ := exists_stringify_encrypted c.browser.numberText raw
  exact ⟨raw, d, rfl, hraw, by simp [sentPayload, hraw], hd, hdepth⟩

/-- Under the isolation pattern the request has the content type and the data of the payload. -/
theorem byProtocol_isolated (hmime : mime = .applicationOctetStream ∨ mime = .applicationJson)
    (h : c.browser.processIpcMessage c.browser.arrayBytes c.payload = some (mime.text, data)) :
    c.byProtocol true = (invokeBody c.K true data mime).toOption := by
  obtain ⟨raw, d, hfrom, hraw, hsent, hd, hdepth⟩ := c.exists_sent_isolated h
  have hproc : c.page.processIpcMessage raw.toJs =
      some (Mime.text .applicationJson, utf8 (c.browser.print d)) := by
    rw [processIpcMessage_of_not_raw _ rfl, hd]
    rfl
  have hparse : c.K.parseMime mime.text = some mime := by
    rcases hmime with rfl | rfl
    · exact c.parseMime_octetStream
    · exact c.parseMime_json
  have hlevels : d.depth ≤ c.limit := by
    have := c.three_le_limit
    omega
  obtain ⟨raw', hread, hraw'⟩ := (c.reads_encrypted raw hraw d hd).ok hlevels
  have hne : (utf8 (c.browser.print d)).isEmpty = false := by
    simpa using c.browser.utf8_print_ne_nil d
  have hdec : decryptBody c.K (c.pattern true) (utf8 (c.browser.print d)) .applicationJson =
      .ok (data, mime) := by
    have htype : raw.contentType = mime.text := hfrom ▸ rfl
    have hdata : c.keys.decryptPayload raw = .ok data := hfrom ▸ c.decryptPayload_encrypted
    simp [decryptBody, pattern, hne, hread, hraw', hdata, htype, hparse, bind,
      Except.bind, pure, Except.pure]
  rw [c.byProtocol_of_sent hsent (.inr rfl) hproc, hdec, hne]
  rfl

/-- Under the isolation pattern the message has the data of the payload, which is read as JSON or
becomes an array of numbers. -/
theorem byPostMessage_isolated
    (h : c.browser.processIpcMessage c.browser.arrayBytes c.payload = some (mime.text, data)) :
    c.byPostMessage true = (isolationPayload c.K c.keys
      (encrypt c.keys (fun _ : JsValue => (mime.text, data)) c.nonce c.payload)).toOption.map
        .json := by
  obtain ⟨raw, d, hfrom, hraw, hsent, hd, hdepth⟩ := c.exists_sent_isolated h
  have hpost : c.postedDocument raw.toJs = some (c.messageDocument d) := by
    rw [postedDocument_eq, hd]
    rfl
  have hlevels : (c.messageDocument d).depth ≤ c.limit := by
    have hlimit := c.three_le_limit
    rw [depth_messageDocument, hdepth]
    omega
  obtain ⟨m, hread, hm⟩ := (c.reads_isolationMessage raw hraw _ hpost).ok hlevels
  rw [c.byPostMessage_of_sent hsent hpost, ← hfrom]
  simp only [ipcMessage, pattern, hread]
  change (isolationPayload c.K c.keys m.payload >>= fun payload => _).toOption.map _ = _
  rw [hm]
  cases isolationPayload c.K c.keys raw <;> rfl

theorem exists_byProtocol_raw (h : c.payload.isRaw = true) (isolated : Bool) :
    ∃ bytes, c.byProtocol isolated = some (.raw bytes) := by
  cases isolated with
  | true =>
    obtain ⟨data, hdata⟩ := Browser.processIpcMessage_of_raw (b := c.browser) h c.browser.arrayBytes
    exact ⟨data, c.byProtocol_isolated (.inl rfl) hdata⟩
  | false =>
    obtain ⟨data, hdata⟩ := Browser.processIpcMessage_of_raw (b := c.browser) h
      fun vs => utf8 (c.browser.arrayText vs)
    exact ⟨data, c.byProtocol_of_sent rfl (.inl rfl) hdata⟩

theorem byProtocol_eq_byPostMessage_isolated (h : c.payload.isRaw = false) :
    c.byProtocol true = c.byPostMessage true := by
  have hproc := Browser.processIpcMessage_of_not_raw (b := c.browser) h c.browser.arrayBytes
  cases hd : c.payload.stringify c.browser.numberText with
  | none =>
    rw [hd] at hproc
    have hsent : c.sentPayload true = none := by
      simp [sentPayload, encrypted, hproc]
    simp [byProtocol, byPostMessage, hsent]
  | some d =>
    rw [hd] at hproc
    rw [c.byProtocol_isolated (.inr rfl) hproc, c.byPostMessage_isolated hproc]
    simp only [isolationPayload, c.decryptPayload_encrypted]
    change (c.K.valueFromSlice (utf8 (c.browser.print d)) >>= fun value => _).toOption =
      ((c.K.valueFromSlice (utf8 (c.browser.print d))).mapError _).toOption.map _
    cases c.K.valueFromSlice (utf8 (c.browser.print d)) <;> rfl

theorem byProtocol_brownfield {d : JsonDocument} (h : c.payload.isRaw = false)
    (hd : c.payload.stringify c.browser.numberText = some d) :
    c.byProtocol false = if d.depth ≤ c.limit then some (.json (c.value d)) else none := by
  have hproc := processIpcMessage_of_not_raw c.toInvocation h
  rw [hd] at hproc
  have hne : (utf8 (c.browser.print d)).isEmpty = false := by
    simpa using c.browser.utf8_print_ne_nil d
  have hbody : c.byProtocol false =
      (c.K.valueFromSlice (utf8 (c.browser.print d))).toOption.map .json := by
    rw [c.byProtocol_of_sent rfl (.inr rfl) hproc, hne]
    change (c.K.valueFromSlice (utf8 (c.browser.print d)) >>= fun value => _).toOption = _
    cases c.K.valueFromSlice (utf8 (c.browser.print d)) <;> rfl
  rw [hbody]
  split
  case isTrue hdepth =>
    obtain ⟨value, hread, rfl⟩ := (c.reads_value d hd).ok hdepth
    rw [hread]
    rfl
  case isFalse hdepth =>
    obtain ⟨e, hread⟩ := (c.reads_value d hd).error (not_le.mp hdepth)
    rw [hread]
    rfl

theorem byPostMessage_brownfield {d : JsonDocument}
    (hd : c.payload.stringify c.browser.numberText = some d) :
    c.byPostMessage false = if d.depth < c.limit then some (.json (c.value d)) else none := by
  have hpost : c.postedDocument c.payload = some (c.messageDocument d) := by
    rw [postedDocument_eq, hd]
    rfl
  have hreads := c.reads_message d hd _ hpost
  have hlimit := c.three_le_limit
  have hdepth := c.depth_messageDocument d
  rw [c.byPostMessage_of_sent rfl hpost]
  change
    ((c.K.messageFromStr (c.browser.print (c.messageDocument d))).mapError _).toOption.map _ = _
  split
  case isTrue hlt =>
    obtain ⟨m, hread, hm⟩ := hreads.ok (by omega)
    simp [hread, ← hm, Except.mapError, Except.toOption]
  case isFalse hge =>
    obtain ⟨e, hread⟩ := hreads.error (by omega)
    simp [hread, Except.mapError, Except.toOption]

/-- **Payloads do not depend on the transport** exactly when they are not raw and, without the
isolation pattern, are not nested to the very limit of the reader. -/
theorem transports_agree_iff (c : LawfulInvocation) (isolated : Bool) :
    c.byProtocol isolated = c.byPostMessage isolated ↔
      c.payload.isRaw = false ∧
        (isolated = false → ∀ d, c.payload.stringify c.browser.numberText = some d →
          d.depth ≠ c.limit) := by
  cases hraw : c.payload.isRaw with
  | true =>
    obtain ⟨bytes, hbytes⟩ := c.exists_byProtocol_raw hraw isolated
    rw [hbytes]
    exact iff_of_false (c.byPostMessage_ne_raw isolated bytes).symm (by simp)
  | false =>
    cases isolated with
    | true => simp [c.byProtocol_eq_byPostMessage_isolated hraw]
    | false =>
      cases hd : c.payload.stringify c.browser.numberText with
      | none =>
        have hproc := processIpcMessage_of_not_raw c.toInvocation hraw
        have hpost := c.postedDocument_eq c.payload
        rw [hd] at hproc hpost
        simp [byProtocol, byPostMessage, sentPayload, inFlight_eq, posted_eq, hproc, hpost]
      | some d =>
        rw [c.byProtocol_brownfield hraw hd, c.byPostMessage_brownfield hd]
        simp only [true_and, forall_const, some.injEq, forall_eq']
        split_ifs with hle hlt hlt
        · exact iff_of_true rfl hlt.ne
        · exact iff_of_false (by simp) (by omega)
        · omega
        · exact iff_of_true rfl (by omega)

end LawfulInvocation

namespace Sample

/-- The names of headers as they arrive. -/
def lowerCase : String → String
  | "Content-Type" => "content-type"
  | "Tauri-Callback" => "tauri-callback"
  | "Tauri-Error" => "tauri-error"
  | "Tauri-Invoke-Key" => "tauri-invoke-key"
  | name => name

def browser : Browser where
  invokeKey := "k"
  convertFileSrc cmd := headerBytes ("/" ++ cmd)
  requestHeaders headers := ("origin", headerBytes "tauri://localhost") ::
    headers.map fun header => (lowerCase header.1, header.2)
  numberText _ := "0"
  print _ := "document"
  print_ne_empty := by simp
  arrayText _ := "1,2,3"
  arrayBytes _ := [1, 2, 3]

/-- What the isolation frame sends for a payload. -/
def frame (payload : JsValue) : RawIsolationPayload :=
  encrypt cipher (fun _ : JsValue => (browser.processIpcMessage browser.arrayBytes payload).getD
    ("", [])) (List.replicate 12 0) payload

/-- The parsers of a backend that gets one document, and reads three levels. -/
def reader (payload : JsValue) (d : JsonDocument) : Crates where
  Value := JsonDocument
  emptyObject := .map []
  valueOfBytes := byteNumbers
  valueFromSlice _ := if d.depth ≤ 3 then .ok d else .error "recursion limit exceeded"
  isolationPayloadFromSlice _ := .ok (frame payload)
  messageFromStr _ :=
    if d.depth < 3 then .ok ⟨"upload", 0, 1, d, none, "k"⟩ else .error "recursion limit exceeded"
  isolationMessageFromStr _ := .ok ⟨"upload", 0, 1, frame payload, none, "k"⟩
  parseMime text :=
    if text = "application/json" then some .applicationJson
    else if text = "application/octet-stream" then some .applicationOctetStream else none
  percentDecode := headerText
  parseUrl _ := some { scheme := "tauri", host := some (.domain "localhost"), path := "" }

def upload (payload : JsValue) (d : JsonDocument) : Invocation where
  K := reader payload d
  browser := browser
  os := .linux
  keys := cipher
  nonce := List.replicate 12 0
  nonce_length := by simp
  cmd := "upload"
  callback := 0
  error := 1
  payload := payload
  uri := "tauri://localhost"
  value := id
  limit := 3

theorem frame_eq {payload : JsValue} {d : JsonDocument} {raw : RawIsolationPayload}
    (h : (upload payload d).encrypted = some raw) : frame payload = raw := by
  obtain ⟨p, hp, rfl⟩ := map_eq_some_iff.mp h
  change browser.processIpcMessage browser.arrayBytes payload = some p at hp
  rw [frame, hp]
  rfl

/-- The laws hold of a payload with the document that the backend gets. -/
def lawfulUpload (payload : JsValue) (d : JsonDocument)
    (hd : payload.stringify browser.numberText = some d) : LawfulInvocation where
  toInvocation := upload payload d
  invokeKey_text := by
    change (headerToStr (headerBytes "k")).isSome
    decide
  requestHeaders_get _ _ _ _ := by simp [upload, browser, headerGet, lowerCase]
  origin headers := ⟨_, rfl⟩
  uri_url := ⟨_, rfl⟩
  parseMime_octetStream := rfl
  parseMime_json := rfl
  three_le_limit := le_rfl
  reads_value d' hd' := by
    obtain rfl : d = d' := Option.some.inj (hd.symm.trans hd')
    exact ⟨fun h => ⟨d, if_pos h, rfl⟩, fun h => ⟨_, if_neg (not_le.mpr h)⟩⟩
  reads_message d' hd' m hm := by
    obtain rfl : d = d' := Option.some.inj (hd.symm.trans hd')
    have hdepth := Invocation.depth_postedDocument _ hd hm
    have hlimit : (upload payload d).limit = 3 := rfl
    refine ⟨fun h => ⟨_, if_pos (by omega), rfl⟩, fun h => ⟨_, if_neg (by omega)⟩⟩
  reads_encrypted raw hraw d' hd' := by
    obtain ⟨d'', hd'', hdepth⟩ := exists_stringify_encrypted browser.numberText raw
    obtain rfl : d'' = d' := Option.some.inj (hd''.symm.trans hd')
    have hlimit : (upload payload d).limit = 3 := rfl
    exact ⟨fun _ => ⟨_, rfl, frame_eq hraw⟩, fun h => by omega⟩
  reads_isolationMessage raw hraw m hm := by
    obtain ⟨d', hd', hdepth⟩ := exists_stringify_encrypted browser.numberText raw
    have hdepth' := Invocation.depth_postedDocument _ hd' hm
    have hlimit : (upload payload d).limit = 3 := rfl
    exact ⟨fun _ => ⟨_, rfl, frame_eq hraw⟩, fun h => by omega⟩

/-- Three bytes. -/
def buffer : LawfulInvocation := lawfulUpload (.arrayBuffer [1, 2, 3]) (byteNumbers [1, 2, 3]) rfl

/-- Three objects, one in the other. -/
def nested : LawfulInvocation :=
  lawfulUpload (.object [("a", .object [("b", .object [])])])
    (.map [("a", .map [("b", .map [])])]) rfl

end Sample

/-- Bytes arrive as an array of numbers after the page has fallen back, also under the isolation
pattern, and a payload that is nested to the limit does not arrive at all. -/
theorem payload_transports_differ :
    Sample.buffer.byProtocol false = some (.raw [1, 2, 3]) ∧
      Sample.buffer.byPostMessage false = some (.json (byteNumbers [1, 2, 3])) ∧
      Sample.buffer.byProtocol true ≠ Sample.buffer.byPostMessage true ∧
      Sample.nested.byProtocol false ≠ Sample.nested.byPostMessage false := by
  refine ⟨?_, ?_, ?_, ?_⟩
  · exact Sample.buffer.byProtocol_of_sent rfl (.inl rfl) rfl
  · rw [Sample.buffer.byPostMessage_brownfield rfl]
    rfl
  · obtain ⟨bytes, hbytes⟩ := Sample.buffer.exists_byProtocol_raw rfl true
    rw [hbytes]
    exact (Sample.buffer.byPostMessage_ne_raw true bytes).symm
  · rw [Sample.nested.byProtocol_brownfield rfl rfl, Sample.nested.byPostMessage_brownfield rfl]
    nofun

end Tauri.Ipc
