import Tauri.Ipc.Isolation
import Tauri.Ipc.Transport

/-!
# The IPC bridge of a page

`sendIpcMessage` sends the messages of a page. It tries the custom protocol first, with `fetch`, and
where the promise that `fetch` gives is rejected, for whatever reason, it remembers that the custom
protocol does not work and sends the message once more, through `postMessage`.

A promise is also rejected after the backend has got the request: where the response is lost or its
body cannot be read, and where the callback of the page throws. The command has run by then, and it
runs again. `dispatched_at_most_once` says that this is the only way to dispatch a message twice,
whatever the order in which the requests, responses and messages of a page arrive.
-/

namespace Tauri.Ipc

open Rust Acl Webview List

/-! ### The handlers of the backend -/

/-- What the handler of the custom protocol does with a request: it passes it on to `on_message`, or
it responds to it. -/
inductive ProtocolAnswer (V : Type) where
  | onMessage (webview : Webview) (request : InvokeRequest (InvokeBody V))
  | respond (status : Nat) (contentType : Option String) (body : String)

section Backend

variable (K : Crates) (pattern : Pattern)

/-- `get` in `ipc/protocol.rs`, where `webview` is the webview that the manager has under the label
of the request. -/
def Protocol.get (webview : Option Webview) (request : HttpRequest) : ProtocolAnswer K.Value :=
  if request.method = "POST" then
    match webview with
    | some webview =>
      match parseInvokeRequest K pattern request with
      | .ok request => .onMessage webview request
      | .error e => .respond 500 (some "text/plain") e
    | none => .respond 500 (some "text/plain") "failed to acquire webview reference"
  else if request.method = "OPTIONS" then .respond 200 none ""
  else .respond 405 (some "text/plain") "only POST and OPTIONS are allowed"

/-- `message_handler`: what `handle_ipc_message` passes on to `on_message`. -/
def Protocol.messageHandler (webview : Option Webview) (uri body : String) :
    Option (Webview × InvokeRequest (InvokeBody K.Value)) :=
  match webview with
  | none => none
  | some webview =>
    match handleIpcMessage K pattern uri body with
    | .ok request => some (webview, request)
    -- an error is written to the console of the page
    | _ => none

end Backend

/-! ### The page -/

/-- What the scripts of a page are given: the values of the templates, and the functions of the
browser that they use. A function that throws has no value. -/
structure Page (J : Type) where
  invokeKey : String
  osName : String
  processIpcMessage : J → Option (String × List UInt8)
  /-- The text that `processIpcMessage` makes of a message. -/
  stringify : Message J → Option String
  /-- The path of `convertFileSrc(cmd, 'ipc')`. -/
  convertFileSrc : String → List UInt8
  /-- The headers of a request with the headers that a script gives it. -/
  requestHeaders : List (String × List UInt8) → Headers

/-- A `Response` of `fetch`. Reading its body may fail. -/
structure Response (J : Type) where
  tauriResponse : Option String
  contentType : Option String
  json : Option J
  text : Option String
  arrayBuffer : Option (List UInt8)

/-- The data that a callback is called with. -/
inductive ResponseData (J : Type) where
  | json (value : J)
  | text (value : String)
  | arrayBuffer (value : List UInt8)

/-- The bytes of a text in a header. -/
def headerBytes (text : String) : List UInt8 := text.toList.map fun c => UInt8.ofNat c.toNat

/-- `{...a, ...b}`: where both have a key, the value is that of `b`. -/
def spread (a b : List (String × List UInt8)) : List (String × List UInt8) :=
  a.filter (fun entry => (b.lookup entry.1).isNone) ++ b

section Promise

variable {J : Type}

/-- The first `then` of the promise: the body is read as its content type says. -/
def Response.read (response : Response J) : Option (ResponseData J) :=
  match (split ',' (response.contentType.getD "")).head?.getD "" with
  | "application/json" => response.json.map .json
  | "text/plain" => response.text.map .text
  | _ => response.arrayBuffer.map .arrayBuffer

/-- Whether the promise is fulfilled, with the response that `fetch` resolves to, if it does, and
the callbacks of the window, each of which returns or throws. -/
def fulfilled (window : UInt32 → Option (ResponseData J → Bool)) (message : IsolationData J)
    (response : Option (Response J)) : Bool :=
  match response with
  | none => false
  | some response =>
    let cb := if response.tauriResponse = some "ok" then message.callback else message.error
    match response.read with
    | none => false
    | some data =>
      match window cb with
      | some callback => callback data
      -- a warning: the page may have been reloaded
      | none => true

end Promise

/-! ### Calls of `sendIpcMessage` -/

/-- A call of `sendIpcMessage` and what became of it: the request that is on its way, whether the
promise is pending, the text that was posted and is on its way, and what `on_message` did. -/
structure IpcCall (J R σ : Type) where
  message : IsolationData J
  inFlight : Option HttpRequest := none
  pending : Bool := false
  posted : Option String := none
  dispatched : List (Dispatched R σ) := []

/-- A page with its calls, and the state of the application. -/
structure Bridge (J R σ : Type) where
  customProtocolIpcFailed : Bool := false
  calls : List (IpcCall J R σ) := []
  app : σ

/-- What happens to a page. -/
inductive BridgeEvent (J σ : Type) where
  /-- A script calls `sendIpcMessage`. -/
  | send (message : IsolationData J)
  /-- The request of a call reaches the handler of the custom protocol. -/
  | arrive (call : Nat) (webview : Option Webview)
  /-- The request of a call is lost, blocked or cancelled. -/
  | lose (call : Nat)
  /-- The promise of a call is settled. -/
  | settle (call : Nat) (response : Option (Response J))
      (window : UInt32 → Option (ResponseData J → Bool))
  /-- The text that a call has posted reaches `handle_ipc_message`. -/
  | deliver (call : Nat) (webview : Option Webview) (uri : String)
  /-- Something else changes the state of the application. -/
  | other (app : σ)

section Bridge

variable {J R σ : Type} (page : Page J)

/-- The request of a message. -/
def fetchRequest (message : IsolationData J) (contentType : String) (data : List UInt8) :
    HttpRequest where
  method := "POST"
  path := page.convertFileSrc message.cmd
  headers := page.requestHeaders (spread [
    ("Content-Type", headerBytes contentType),
    ("Tauri-Callback", headerBytes (toString message.callback.toNat)),
    ("Tauri-Error", headerBytes (toString message.error.toNat)),
    ("Tauri-Invoke-Key", headerBytes page.invokeKey)] (message.options.getD {}).headers)
  body := data

/-- The message that is posted. -/
def postedMessage (customProtocolIpcFailed : Bool) (message : IsolationData J) : Message J where
  cmd := message.cmd
  callback := message.callback
  error := message.error
  payload := message.payload
  options := some { (message.options.getD {}) with
    customProtocolIpcBlocked := customProtocolIpcFailed }
  invokeKey := page.invokeKey

/-- `sendIpcMessage`. -/
def sendIpcMessage (customProtocolIpcFailed : Bool) (call : IpcCall J R σ) : IpcCall J R σ :=
  let canUseCustomProtocol := page.osName != "android"
  if !customProtocolIpcFailed &&
      (canUseCustomProtocol || call.message.cmd == fetchChannelDataCommand) then
    match page.processIpcMessage call.message.payload with
    | some (contentType, data) =>
      { call with inFlight := some (fetchRequest page call.message contentType data)
                  pending := true }
    | none => call
  else
    match page.stringify (postedMessage page customProtocolIpcFailed call.message) with
    | some text => { call with posted := some text }
    | none => call

variable {G P : Type} {S : ScopeTypes} (U : UrlCrate) (T : Texts G P) (E : Patterns G P)
  (fuel : Nat) (K : Crates) (pattern : Pattern) (app : App G P S (InvokeBody K.Value) R σ)

/-- The state after `on_message` has got the request of a call, or none. -/
def Bridge.dispatch (s : Bridge J R σ) (i : Nat) (call : IpcCall J R σ) :
    Option (Webview × InvokeRequest (InvokeBody K.Value)) → Bridge J R σ
  | none => { s with calls := s.calls.set i call }
  | some (webview, request) =>
    let dispatched := onMessage U T E fuel app webview request s.app
    { s with calls := s.calls.set i { call with dispatched := call.dispatched ++ [dispatched] }
             app := dispatched.state }

/-- The request that the handler of the custom protocol passes on. -/
def ProtocolAnswer.passedOn {V : Type} :
    ProtocolAnswer V → Option (Webview × InvokeRequest (InvokeBody V))
  | .onMessage webview request => some (webview, request)
  | .respond _ _ _ => none

/-- The page after an event, if the event can happen. -/
def Bridge.step (s : Bridge J R σ) : BridgeEvent J σ → Option (Bridge J R σ)
  | .send message =>
    some { s with calls := s.calls ++ [sendIpcMessage page s.customProtocolIpcFailed { message }] }
  | .arrive i webview => do
    let call ← s.calls[i]?
    let request ← call.inFlight
    return s.dispatch U T E fuel K app i { call with inFlight := none }
      (Protocol.get K pattern webview request).passedOn
  | .lose i => do
    let call ← s.calls[i]?
    return { s with calls := s.calls.set i { call with inFlight := none } }
  | .settle i response window => do
    let call ← s.calls[i]?
    guard call.pending
    let settled := { call with pending := false }
    if fulfilled window call.message response then
      return { s with calls := s.calls.set i settled }
    else
      -- the `catch` of the promise
      return { s with customProtocolIpcFailed := true
                      calls := s.calls.set i (sendIpcMessage page true settled) }
  | .deliver i webview uri => do
    let call ← s.calls[i]?
    let text ← call.posted
    return s.dispatch U T E fuel K app i { call with posted := none }
      (Protocol.messageHandler K pattern webview uri text)
  | .other app => some { s with app }

/-- The steps of a page. -/
def BridgeStep (s : Bridge J R σ) (es : List (BridgeEvent J σ)) (s' : Bridge J R σ) : Prop :=
  ∃ e, es = [e] ∧ s.step page U T E fuel K pattern app e = some s'

end Bridge

/-! ### Messages that are dispatched once -/

section Once

variable {J R σ G P : Type} {S : ScopeTypes} {page : Page J} {U : UrlCrate} {T : Texts G P}
  {E : Patterns G P} {fuel : Nat} {K : Crates} {pattern : Pattern}
  {app : App G P S (InvokeBody K.Value) R σ}

theorem length_handlers_onMessage {B : Type} {app : App G P S B R σ} (webview : Webview)
    (request : InvokeRequest B) (s : σ) :
    (onMessage U T E fuel app webview request s).handlers.length ≤ 1 := by
  by_cases hkey : request.invokeKey = app.invokeKey
  · rcases onMessage_cases U T E hkey with h | ⟨-, ⟨plugin, command, -, h⟩ | ⟨-, h⟩⟩
    · rw [h]
      exact Nat.zero_le 1
    · rw [h, handOver, extendApi]
      cases app.plugins.find? fun p => p.name == plugin <;> simp
    · rw [h, handOver]
      exact Nat.le_refl 1
  · rw [onMessage_of_ne U T E hkey]
    exact Nat.zero_le 1

/-- **A call is dispatched at most once**: of the dispatches, the request on its way and the posted
text on its way there is one at most. While the promise is pending, nothing was posted. -/
structure IpcCall.Once (call : IpcCall J R σ) : Prop where
  idle : call.pending = true → call.posted = none
  once : call.dispatched.length + call.inFlight.toList.length + call.posted.toList.length ≤ 1
  handlers : ∀ d ∈ call.dispatched, d.handlers.length ≤ 1

namespace IpcCall

variable {call : IpcCall J R σ}

theorem once_sendIpcMessage (failed : Bool) (call : IpcCall J R σ)
    (hfly : call.inFlight = none) (hpend : call.pending = false)
    (hpost : call.posted = none) (hdisp : call.dispatched = []) :
    (sendIpcMessage page failed call).Once := by
  rw [sendIpcMessage]
  split
  · cases page.processIpcMessage call.message.payload <;>
      exact ⟨fun _ => hpost, by simp [*], by simp [*]⟩
  · cases page.stringify (postedMessage page failed call.message) with
    | none => exact ⟨fun _ => hpost, by simp [*], by simp [*]⟩
    | some => exact ⟨by simp [*], by simp [*], by simp [*]⟩

namespace Once

variable (h : call.Once)
include h

theorem of_inFlight {request : HttpRequest} (hreq : call.inFlight = some request) :
    call.posted = none ∧ call.dispatched = [] := by
  have honce := h.once
  rw [hreq, Option.toList_some, length_singleton] at honce
  exact ⟨Option.toList_eq_nil_iff.mp (length_eq_zero_iff.mp (by omega)),
    length_eq_zero_iff.mp (by omega)⟩

theorem of_posted {text : String} (htext : call.posted = some text) :
    call.inFlight = none ∧ call.dispatched = [] := by
  have honce := h.once
  rw [htext, Option.toList_some, length_singleton] at honce
  exact ⟨Option.toList_eq_nil_iff.mp (length_eq_zero_iff.mp (by omega)),
    length_eq_zero_iff.mp (by omega)⟩

theorem lost : { call with inFlight := none }.Once := by
  refine ⟨h.idle, ?_, h.handlers⟩
  have honce := h.once
  simp only [Option.toList_none, length_nil]
  omega

theorem settled : { call with pending := false }.Once :=
  ⟨by simp, h.once, h.handlers⟩

theorem read : { call with posted := none }.Once := by
  refine ⟨fun _ => rfl, ?_, h.handlers⟩
  have honce := h.once
  simp only [Option.toList_none, length_nil]
  omega

theorem dispatched {d : Dispatched R σ} (hfly : call.inFlight = none) (hpost : call.posted = none)
    (hdisp : call.dispatched = []) (hd : d.handlers.length ≤ 1) :
    { call with dispatched := call.dispatched ++ [d] }.Once := by
  refine ⟨h.idle, ?_, ?_⟩
  · simp [*]
  · simpa [hdisp] using hd

end Once

end IpcCall

theorem Bridge.once_dispatch {s : Bridge J R σ} (h : ∀ call ∈ s.calls, call.Once) (i : Nat)
    {call : IpcCall J R σ} (hcall : call.Once) (hfly : call.inFlight = none)
    (hpost : call.posted = none) (hdisp : call.dispatched = [])
    (passedOn : Option (Webview × InvokeRequest (InvokeBody K.Value))) :
    ∀ call' ∈ (s.dispatch U T E fuel K app i call passedOn).calls, call'.Once := by
  intro call' hcall'
  cases passedOn with
  | none =>
    rcases mem_or_eq_of_mem_set hcall' with hmem | rfl
    · exact h call' hmem
    · exact hcall
  | some =>
    rcases mem_or_eq_of_mem_set hcall' with hmem | rfl
    · exact h call' hmem
    · exact hcall.dispatched hfly hpost hdisp (length_handlers_onMessage ..)

/-- **The condition.** A promise is rejected only where the request of the call was not dispatched,
and is no longer on its way. -/
def FailsUndispatched (s : Bridge J R σ) (es : List (BridgeEvent J σ)) : Prop :=
  ∀ i response window call, .settle i response window ∈ es → s.calls[i]? = some call →
    fulfilled window call.message response = false →
    call.inFlight = none ∧ call.dispatched = []

theorem once_step {s s' : Bridge J R σ} {es : List (BridgeEvent J σ)}
    (h : ∀ call ∈ s.calls, call.Once) (hcond : FailsUndispatched s es)
    (hstep : BridgeStep page U T E fuel K pattern app s es s') :
    ∀ call ∈ s'.calls, call.Once := by
  obtain ⟨e, rfl, hstep⟩ := hstep
  have hset : ∀ (i : Nat) {call : IpcCall J R σ}, call.Once →
      ∀ call' ∈ s.calls.set i call, call'.Once := by
    intro i call hcall call' hcall'
    rcases mem_or_eq_of_mem_set hcall' with hmem | rfl
    · exact h call' hmem
    · exact hcall
  cases e with
  | send =>
    cases hstep
    intro call hcall
    rcases mem_append.mp hcall with hmem | hnew
    · exact h call hmem
    · obtain rfl := mem_singleton.mp hnew
      exact IpcCall.once_sendIpcMessage _ _ rfl rfl rfl rfl
  | arrive i =>
    obtain ⟨call, hcall, hstep⟩ := Option.bind_eq_some_iff.mp hstep
    obtain ⟨request, hreq, hstep⟩ := Option.bind_eq_some_iff.mp hstep
    cases hstep
    have honce := h call (mem_of_getElem? hcall)
    obtain ⟨hpost, hdisp⟩ := honce.of_inFlight hreq
    exact Bridge.once_dispatch h i honce.lost rfl hpost hdisp _
  | lose i =>
    obtain ⟨call, hcall, hstep⟩ := Option.bind_eq_some_iff.mp hstep
    cases hstep
    exact hset i (h call (mem_of_getElem? hcall)).lost
  | settle i response window =>
    obtain ⟨call, hcall, hstep⟩ := Option.bind_eq_some_iff.mp hstep
    obtain ⟨_, hpend, hstep⟩ := Option.bind_eq_some_iff.mp hstep
    have honce := h call (mem_of_getElem? hcall)
    cases hfulfilled : fulfilled window call.message response with
    | true =>
      simp only [hfulfilled, if_true] at hstep
      cases hstep
      exact hset i honce.settled
    | false =>
      simp only [hfulfilled, Bool.false_eq_true, if_false] at hstep
      cases hstep
      obtain ⟨hfly, hdisp⟩ := hcond i response window call mem_cons_self hcall hfulfilled
      have hpost : call.posted = none := honce.idle (by simpa [guard] using hpend)
      exact hset i (IpcCall.once_sendIpcMessage true { call with pending := false } hfly rfl
        hpost hdisp)
  | deliver i =>
    obtain ⟨call, hcall, hstep⟩ := Option.bind_eq_some_iff.mp hstep
    obtain ⟨text, htext, hstep⟩ := Option.bind_eq_some_iff.mp hstep
    cases hstep
    have honce := h call (mem_of_getElem? hcall)
    obtain ⟨hfly, hdisp⟩ := honce.of_posted htext
    exact Bridge.once_dispatch h i honce.read hfly rfl hdisp _
  | other =>
    cases hstep
    exact h

end Once

/-- **At most once.** In every run of a page in which a promise is rejected only where the request
was not dispatched and is no longer on its way, every call of `sendIpcMessage` is dispatched at
most once, and at most one handler runs for it. -/
theorem dispatched_at_most_once {J R σ G P : Type} {S : ScopeTypes} (page : Page J) (U : UrlCrate)
    (T : Texts G P) (E : Patterns G P) (fuel : Nat) (K : Crates) (pattern : Pattern)
    (app : App G P S (InvokeBody K.Value) R σ) (initial : σ) (es : List (BridgeEvent J σ))
    (s : Bridge J R σ)
    (run : Execution (guarded FailsUndispatched (BridgeStep page U T E fuel K pattern app))
      { app := initial } es s)
    (call : IpcCall J R σ) (hcall : call ∈ s.calls) :
    call.dispatched.length ≤ 1 ∧ (call.dispatched.flatMap (·.handlers)).length ≤ 1 := by
  have hrun : ∀ call ∈ s.calls, call.Once := by
    refine run.invariant (I := fun _ s => ∀ call ∈ s.calls, call.Once) (by simp) ?_
    rintro _ _ s s' - h ⟨hstep, hcond⟩
    exact once_step h hcond hstep
  have honce := hrun call hcall
  have hlen : call.dispatched.length ≤ 1 := by
    have hone := honce.once
    omega
  refine ⟨hlen, ?_⟩
  match hdisp : call.dispatched, hlen with
  | [], _ => simp
  | [d], _ =>
    rw [flatMap_singleton]
    exact honce.handlers d (by simp [hdisp])

namespace Sample

/-- The parsers of a backend that is posted one message only. -/
def bridgeCrates : Crates where
  Value := List UInt8
  emptyObject := []
  valueOfBytes := id
  valueFromSlice := .ok
  isolationPayloadFromSlice _ := .error "expected value"
  messageFromStr _ := .ok ⟨"pay", 0, 1, [7], none, "k"⟩
  isolationMessageFromStr _ := .error "expected value"
  parseMime text := if text = "application/json" then some .applicationJson else none
  percentDecode := headerText
  parseUrl _ := some { scheme := "tauri", host := some (.domain "localhost"), path := "" }

/-- A page whose payloads are JSON texts. -/
def bridgePage : Page (List UInt8) where
  invokeKey := "k"
  osName := "linux"
  processIpcMessage payload := some ("application/json", payload)
  stringify _ := some "message"
  convertFileSrc cmd := headerBytes ("/" ++ cmd)
  requestHeaders headers := ("origin", headerBytes "tauri://localhost") ::
    headers.map fun header => (String.ofList (header.1.toList.map Char.toLower), header.2)

/-- An application without a manifest, whose only command counts how often it runs. -/
def bridgeApp : App String String scopeTypes (InvokeBody (List UInt8)) Unit Nat where
  manager := siteManager
  invokeKey := "k"
  authority := .new ∅ ⟨∅, ∅, ∅, ∅⟩
  plugins := []
  invokeHandler _ count := ⟨true, [.ok ()], count + 1⟩
  debugAssertions := false

def pay : IsolationData (List UInt8) := ⟨"pay", 0, 1, [7], none⟩

def mainWebview : Webview := ⟨"main", "main"⟩

abbrev SampleStep : Bridge (List UInt8) Unit Nat → List (BridgeEvent (List UInt8) Nat) →
    Bridge (List UInt8) Unit Nat → Prop :=
  BridgeStep bridgePage AppManager.sampleUrlCrate Webview.Sample.texts Ipc.Sample.patterns 0
    bridgeCrates .brownfield bridgeApp

theorem run_blocked : ∃ es s, Execution (guarded FailsUndispatched SampleStep) { app := 0 } es s ∧
    ∃ call ∈ s.calls, call.dispatched.flatMap (·.handlers) = [.app "pay"] := by
  have hstart : Execution (guarded FailsUndispatched SampleStep) { app := 0 } [] _ := .start
  have hsend := hstart.next ⟨⟨.send pay, rfl, rfl⟩, by simp [FailsUndispatched]⟩
  have hlose := hsend.next ⟨⟨.lose 0, rfl, rfl⟩, by simp [FailsUndispatched]⟩
  have hsettle := hlose.next ⟨⟨.settle 0 none fun _ => none, rfl, rfl⟩, by
    rintro i response window call hev hcall -
    cases mem_singleton.mp hev
    cases hcall
    exact ⟨rfl, rfl⟩⟩
  have hdeliver := hsettle.next ⟨⟨.deliver 0 (some mainWebview) "tauri://localhost", rfl, rfl⟩,
    by simp [FailsUndispatched]⟩
  exact ⟨_, _, hdeliver, _, mem_cons_self, rfl⟩

end Sample

/-- The command of a message whose request is blocked runs once. -/
theorem sample_dispatched_once : ∃ es s call,
    Execution (guarded FailsUndispatched Sample.SampleStep) { app := 0 } es s ∧ call ∈ s.calls ∧
      call.dispatched.flatMap (·.handlers) = [.app "pay"] ∧ call.dispatched.length ≤ 1 := by
  obtain ⟨es, s, hrun, call, hcall, hhs⟩ := Sample.run_blocked
  exact ⟨es, s, call, hrun, hcall, hhs,
    (dispatched_at_most_once _ _ _ _ _ _ _ _ _ _ _ hrun call hcall).1⟩

/-- The backend gets the request and runs the command, and the response is lost: the page posts the
message, and the command runs again. -/
theorem sample_dispatched_twice : ∃ es s, Execution Sample.SampleStep { app := 0 } es s ∧
    s.app = 2 ∧ ∃ call ∈ s.calls,
      call.dispatched.flatMap (·.handlers) = [.app "pay", .app "pay"] := by
  have hstart : Execution Sample.SampleStep { app := 0 } [] _ := .start
  have hsend := hstart.next ⟨.send Sample.pay, rfl, rfl⟩
  have harrive := hsend.next ⟨.arrive 0 (some Sample.mainWebview), rfl, rfl⟩
  have hsettle := harrive.next ⟨.settle 0 none fun _ => none, rfl, rfl⟩
  have hdeliver := hsettle.next
    ⟨.deliver 0 (some Sample.mainWebview) "tauri://localhost", rfl, rfl⟩
  exact ⟨_, _, hdeliver, rfl, _, mem_cons_self, rfl⟩

end Tauri.Ipc
