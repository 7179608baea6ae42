import Tauri.Ipc.Protocol
import Tauri.Rust.Execution

/-!
# The isolation pattern

Under the isolation pattern a page does not send its requests itself. It posts them to the
isolation frame, whose hook sees each one and may change it; the frame encrypts the payload with a
key that only the frame and the backend have, and posts the message back, and the page sends that.

The main page is the adversary here: it sends any requests, with any parts of the messages it was
given, but makes up no ciphertext (`Unforged`). What the ciphertext protects is the payload alone.
The command and the content type stand next to it, and a request to the custom protocol may have no
payload at all. `isolation_integrity` says what has to be asked of the requests for the backend to
accept only what the hook has approved.
-/

namespace Tauri.Ipc

open Rust Acl Webview List

/-! ### The isolation frame -/

/-- A message between the main frame and the isolation frame. -/
structure IsolationData (P : Type) where
  cmd : String
  callback : UInt32
  error : UInt32
  payload : P
  options : Option RequestOptions

/-- What the isolation frame sends: the data that the hook has let through, encrypted under 12
random bytes. -/
structure Produced (J : Type) where
  approved : IsolationData J
  nonce : List UInt8
  nonce_length : nonce.length = 12

section Frame

variable {J : Type} (keys : AesGcm) (processIpcMessage : J → String × List UInt8)

/-- `encrypt`. -/
def encrypt (nonce : List UInt8) (payload : J) : RawIsolationPayload :=
  let (contentType, data) := processIpcMessage payload
  { nonce, payload := keys.encrypt nonce data, contentType }

/-- The message that is posted to the main frame. -/
def Produced.message (f : Produced J) : IsolationData RawIsolationPayload :=
  { f.approved with payload := encrypt keys processIpcMessage f.nonce f.approved.payload }

/-- `payloadHandler`, for a payload that has the form of one. A hook that throws sends nothing. -/
def payloadHandler (hook : Option (IsolationData J → Option (IsolationData J)))
    (nonce : List UInt8) (hnonce : nonce.length = 12) (data : IsolationData J) :
    Option (Produced J) :=
  (match hook with
    | none => some data
    | some hook => hook data).map fun approved => ⟨approved, nonce, hnonce⟩

end Frame

/-! ### Requests of the main page -/

/-- The ways a request reaches the backend. -/
inductive Entry where
  | protocol
  | postMessage
  deriving DecidableEq

/-- A request that was accepted, with the encrypted payload it had. -/
structure AcceptedRequest (V : Type) where
  entry : Entry
  raw : Option RawIsolationPayload
  request : InvokeRequest (InvokeBody V)

section Requests

variable {J : Type} (K : Crates) (keys : AesGcm) (processIpcMessage : J → String × List UInt8)

/-- What the custom protocol accepts. -/
def acceptedByProtocol (request : HttpRequest) : List (AcceptedRequest K.Value) :=
  match parseInvokeRequest K (.isolation keys) request with
  | .error _ => []
  | .ok r =>
    [{ entry := .protocol
       raw := if request.body.isEmpty then none
         else (K.isolationPayloadFromSlice request.body).toOption
       request := r }]

/-- What `postMessage` accepts. -/
def acceptedByPostMessage (uri body : String) : List (AcceptedRequest K.Value) :=
  match handleIpcMessage K (.isolation keys) uri body with
  | .ok r =>
    [{ entry := .postMessage
       raw := ((K.isolationMessageFromStr body).map (·.payload)).toOption
       request := r }]
  | _ => []

/-- The body that a command gets of a payload, by the way the request takes. -/
def Entry.body (contentType : String) (data : List UInt8) :
    Entry → Except String (InvokeBody K.Value)
  | protocol => invokeBody K true data ((K.parseMime contentType).getD .applicationOctetStream)
  | postMessage =>
    if contentType = Mime.text .applicationOctetStream then .ok (.json (K.valueOfBytes data))
    else (K.valueFromSlice data).map .json

/-- The ciphertext of a payload is that of a message. -/
def Produced.Encrypts (f : Produced J) (raw : RawIsolationPayload) : Prop :=
  (f.message keys processIpcMessage).payload.nonce = raw.nonce ∧
    (f.message keys processIpcMessage).payload.payload = raw.payload

/-- A payload that can be decrypted has the ciphertext of a message that was produced. -/
def Unforged (produced : List (Produced J)) (raw : RawIsolationPayload) : Prop :=
  (keys.decrypt raw.nonce raw.payload).isSome = true →
    ∃ f ∈ produced, f.Encrypts keys processIpcMessage raw

/-- A step: the isolation frame handles a message, or the page sends a request. -/
inductive IsolationStep : List (Produced J) → List (AcceptedRequest K.Value) →
    List (Produced J) → Prop
  | frame {produced : List (Produced J)} {f : Produced J}
      (hook : Option (IsolationData J → Option (IsolationData J))) (nonce : List UInt8)
      (hnonce : nonce.length = 12) (data : IsolationData J)
      (h : payloadHandler hook nonce hnonce data = some f) :
      IsolationStep produced [] (produced ++ [f])
  | protocol {produced : List (Produced J)} (request : HttpRequest)
      (h : ∀ raw, K.isolationPayloadFromSlice request.body = .ok raw →
        Unforged keys processIpcMessage produced raw) :
      IsolationStep produced (acceptedByProtocol K keys request) produced
  | postMessage {produced : List (Produced J)} (uri body : String)
      (h : ∀ message, K.isolationMessageFromStr body = .ok message →
        Unforged keys processIpcMessage produced message.payload) :
      IsolationStep produced (acceptedByPostMessage K keys uri body) produced

/-- The request is one that the isolation frame produced: it had an encrypted payload, and its
command and body are those of a message. -/
def Authentic (produced : List (Produced J)) (a : AcceptedRequest K.Value) : Prop :=
  a.raw.isSome = true ∧ ∃ f ∈ produced, f.approved.cmd = a.request.cmd ∧
    a.entry.body K (processIpcMessage f.approved.payload).1
      (processIpcMessage f.approved.payload).2 = .ok a.request.body

/-- The request has an encrypted payload, and if that is the ciphertext of a message, it has the
command and the content type of one with this ciphertext. -/
def Faithful (produced : List (Produced J)) (a : AcceptedRequest K.Value) : Prop :=
  ∃ raw, a.raw = some raw ∧ ((∃ f ∈ produced, f.Encrypts keys processIpcMessage raw) →
    ∃ f ∈ produced, f.Encrypts keys processIpcMessage raw ∧ f.approved.cmd = a.request.cmd ∧
      (f.message keys processIpcMessage).payload.contentType = raw.contentType)

end Requests

/-! ### What the backend accepts -/

section Integrity

variable {J : Type} {K : Crates} {keys : AesGcm} {processIpcMessage : J → String × List UInt8}
  {produced : List (Produced J)} {a : AcceptedRequest K.Value}

theorem Produced.Encrypts.decrypt {f : Produced J} {raw : RawIsolationPayload}
    (h : f.Encrypts keys processIpcMessage raw) :
    keys.decrypt raw.nonce raw.payload = some (processIpcMessage f.approved.payload).2 := by
  rw [← h.1, ← h.2]
  exact keys.decrypt_encrypt f.nonce _ f.nonce_length

theorem Faithful.authentic (h : Faithful K keys processIpcMessage produced a)
    (hdata : ∀ raw, a.raw = some raw → Unforged keys processIpcMessage produced raw ∧
      ∃ data, keys.decrypt raw.nonce raw.payload = some data ∧
        a.entry.body K raw.contentType data = .ok a.request.body) :
    Authentic K processIpcMessage produced a := by
  obtain ⟨raw, hraw, hfaith⟩ := h
  obtain ⟨hunforged, data, hdec, hbody⟩ := hdata raw hraw
  obtain ⟨f, hf, hencrypts, hcmd, hctype⟩ := hfaith (hunforged (by rw [hdec]; rfl))
  refine ⟨by rw [hraw]; rfl, f, hf, hcmd, ?_⟩
  have hsame : data = (processIpcMessage f.approved.payload).2 :=
    Option.some.inj (hdec.symm.trans hencrypts.decrypt)
  rw [hsame, ← hctype] at hbody
  exact hbody

theorem Faithful.authentic_of_protocol {request : HttpRequest}
    (hunforged : ∀ raw, K.isolationPayloadFromSlice request.body = .ok raw →
      Unforged keys processIpcMessage produced raw)
    (ha : a ∈ acceptedByProtocol K keys request)
    (h : Faithful K keys processIpcMessage produced a) :
    Authentic K processIpcMessage produced a := by
  rw [acceptedByProtocol] at ha
  cases hparse : parseInvokeRequest K (.isolation keys) request with
  | error e => simp [hparse] at ha
  | ok r =>
    rw [hparse, mem_singleton] at ha
    subst ha
    refine h.authentic fun raw hraw => ?_
    cases hemp : request.body.isEmpty with
    | true => simp [hemp] at hraw
    | false =>
      obtain ⟨-, ⟨contentType, data, contentType', -, hdecrypted, hbody⟩, -⟩ :=
        parseInvokeRequest_eq_ok hparse
      obtain ⟨raw', hraw', hdata, rfl⟩ := decryptBody_isolation hemp hdecrypted
      rw [hemp] at hbody
      simp only [hemp, hraw', Except.toOption, Bool.false_eq_true, if_false,
        Option.some.injEq] at hraw
      subst hraw
      exact ⟨hunforged _ hraw', data, (decryptPayload_eq_ok.mp hdata).2, hbody⟩

theorem Faithful.authentic_of_postMessage {uri body : String}
    (hunforged : ∀ message, K.isolationMessageFromStr body = .ok message →
      Unforged keys processIpcMessage produced message.payload)
    (ha : a ∈ acceptedByPostMessage K keys uri body)
    (h : Faithful K keys processIpcMessage produced a) :
    Authentic K processIpcMessage produced a := by
  rw [acceptedByPostMessage] at ha
  cases hhandle : handleIpcMessage K (.isolation keys) uri body with
  | err | panic | outOfFuel => simp [hhandle] at ha
  | ok r =>
    rw [hhandle, mem_singleton] at ha
    subst ha
    refine h.authentic fun raw hraw => ?_
    obtain ⟨message, hmsg, -, hbody, -⟩ := handleIpcMessage_eq_ok hhandle
    obtain ⟨encrypted, henc, hpay, -⟩ := ipcMessage_isolation hmsg
    simp only [henc, Except.map, Except.toOption, Option.some.injEq] at hraw
    subst hraw
    obtain ⟨data, hdata, hvalue⟩ := except_bind_eq_ok.mp hpay
    refine ⟨hunforged _ henc, data,
      (decryptPayload_eq_ok.mp (except_mapError_eq_ok.mp hdata)).2, ?_⟩
    rw [hbody, Entry.body]
    split_ifs with hctype
    · simp only [hctype, beq_self_eq_true, if_true] at hvalue
      rw [Except.ok.inj hvalue]
    · simp only [beq_eq_false_iff_ne.mpr hctype, Bool.false_eq_true, if_false] at hvalue
      rw [except_mapError_eq_ok.mp hvalue]
      rfl

/-- The step: the page's requests are authentic if they are faithful, and messages are not
forgotten. -/
theorem IsolationStep.authentic {produced' : List (Produced J)}
    {accepted : List (AcceptedRequest K.Value)}
    (h : IsolationStep K keys processIpcMessage produced accepted produced')
    (hfaith : ∀ a ∈ accepted, Faithful K keys processIpcMessage produced a) :
    produced ⊆ produced' ∧ ∀ a ∈ accepted, Authentic K processIpcMessage produced' a := by
  cases h with
  | frame => exact ⟨subset_append_left _ _, by simp⟩
  | protocol _ hunforged =>
    exact ⟨Subset.refl _, fun a ha =>
      (hfaith a ha).authentic_of_protocol hunforged ha⟩
  | postMessage _ _ hunforged =>
    exact ⟨Subset.refl _, fun a ha =>
      (hfaith a ha).authentic_of_postMessage hunforged ha⟩

end Integrity

/-- **Isolation.** In every run in which all requests that are accepted are faithful, each of them
was produced by the isolation frame: the hook has approved its command and its body. -/
theorem isolation_integrity {J : Type} {K : Crates} {keys : AesGcm}
    {processIpcMessage : J → String × List UInt8} {accepted : List (AcceptedRequest K.Value)}
    {produced : List (Produced J)}
    (h : Execution (guarded (fun produced accepted =>
      ∀ a ∈ accepted, Faithful K keys processIpcMessage produced a)
        (IsolationStep K keys processIpcMessage)) [] accepted produced) :
    ∀ a ∈ accepted, Authentic K processIpcMessage produced a := by
  refine Execution.invariant (I := fun accepted produced =>
    ∀ a ∈ accepted, Authentic K processIpcMessage produced a) (by simp) ?_ h
  intro accepted accepted' produced produced' _ hbef ⟨hstep, hfaith⟩ a ha
  obtain ⟨hsub, hauthentic⟩ := hstep.authentic hfaith
  rcases mem_append.mp ha with ha | ha
  · obtain ⟨hraw, f, hf, hrest⟩ := hbef a ha
    exact ⟨hraw, f, hsub hf, hrest⟩
  · exact hauthentic a ha

namespace Sample

/-- Parsers that are good enough for a request or two: a JSON text is its own value. -/
def crates : Crates where
  Value := List UInt8
  emptyObject := []
  valueOfBytes := id
  valueFromSlice := .ok
  isolationPayloadFromSlice body := .ok ⟨body.take 12, body.drop 12, "application/json"⟩
  messageFromStr _ := .error "expected value"
  isolationMessageFromStr _ := .error "expected value"
  parseMime text := if text = "application/json" then some .applicationJson else none
  percentDecode := headerText
  parseUrl _ := some { scheme := "tauri", host := some (.domain "localhost"), path := "" }

/-- A cipher that marks its plaintext. -/
def cipher : AesGcm where
  encrypt _ data := 1 :: data
  decrypt _ payload := if payload.head? = some 1 then some payload.tail else none
  decrypt_encrypt _ _ _ := rfl

def jsonText (payload : List UInt8) : String × List UInt8 := ("application/json", payload)

/-- The hook has approved the command `a` with the payload `[7]`. -/
def approved : Produced (List UInt8) where
  approved := ⟨"a", 0, 1, [7], none⟩
  nonce := List.replicate 12 0
  nonce_length := rfl

/-- A request for a command of one letter. -/
def requestFor (letter : UInt8) (body : List UInt8) : HttpRequest where
  method := "POST"
  path := [47, letter]
  headers := [("tauri-invoke-key", [107]), ("origin", [111]), ("tauri-callback", [48]),
    ("tauri-error", [49])]
  body

/-- The bytes of the message that the hook has approved. -/
def replayed : List UInt8 := List.replicate 12 0 ++ [1, 7]

theorem step_frame : IsolationStep crates cipher jsonText [] [] [approved] :=
  .frame none approved.nonce rfl approved.approved rfl

theorem encrypts_approved : approved.Encrypts cipher jsonText
    ⟨List.replicate 12 0, [1, 7], "application/json"⟩ := ⟨rfl, rfl⟩

theorem step_replayed (letter : UInt8) : IsolationStep crates cipher jsonText [approved]
    (acceptedByProtocol crates cipher (requestFor letter replayed)) [approved] := by
  refine .protocol _ fun raw hraw _ => ⟨approved, mem_cons_self, ?_⟩
  cases hraw
  exact encrypts_approved

theorem step_empty (letter : UInt8) : IsolationStep crates cipher jsonText [approved]
    (acceptedByProtocol crates cipher (requestFor letter [])) [approved] := by
  refine .protocol _ fun raw hraw hdec => ?_
  cases hraw
  cases hdec

end Sample

/-- The message that was approved, sent on for its own command, is accepted and authentic. -/
theorem sample_authentic : ∃ a,
    acceptedByProtocol Sample.crates Sample.cipher (Sample.requestFor 97 Sample.replayed) = [a] ∧
      Authentic Sample.crates Sample.jsonText [Sample.approved] a := by
  refine ⟨_, rfl, isolation_integrity (Execution.next (.next .start ⟨Sample.step_frame, by simp⟩)
    ⟨Sample.step_replayed 97, ?_⟩) _ mem_cons_self⟩
  intro a ha
  obtain rfl := mem_singleton.mp ha
  exact ⟨_, rfl, fun _ =>
    ⟨Sample.approved, mem_cons_self, Sample.encrypts_approved, rfl, rfl⟩⟩

/-- The hook has approved the command `a`. The page sends the message on for the command `b`, and
asks for the command `b` without a payload: both requests are accepted. -/
theorem sample_not_authentic :
    ∃ replayed empty, Execution (IsolationStep Sample.crates Sample.cipher Sample.jsonText) []
        [replayed, empty] [Sample.approved] ∧
      replayed.request.cmd = "b" ∧ replayed.raw.isSome = true ∧
      ¬ Authentic Sample.crates Sample.jsonText [Sample.approved] replayed ∧
      empty.request.cmd = "b" ∧ empty.raw = none ∧
      ¬ Authentic Sample.crates Sample.jsonText [Sample.approved] empty := by
  have hrun := ((Execution.start.next Sample.step_frame).next (Sample.step_replayed 98)).next
    (Sample.step_empty 98)
  refine ⟨_, _, hrun, rfl, rfl, ?_, rfl, rfl, fun h => by cases h.1⟩
  rintro ⟨-, f, hf, hcmd, -⟩
  rw [mem_singleton.mp hf] at hcmd
  exact absurd hcmd (by decide)

end Tauri.Ipc
