import Tauri.Webview.Dispatch

/-!
# Channel data

A message sent on a channel is put in one queue of the application, under the next value of a
global counter; the script that the webview is made to evaluate fetches it with the counter value
in a header. The fetch command takes **whatever is queued under the id of the header**, and the
dispatcher exempts it from the access control list. Neither looks at the webview that asks.

A run interleaves sends on any channels with requests from any webviews. `Run` records what each
step did; `pendingAt` reads off the record what is queued under an id, and agrees with the queue
at every point of every run.
-/

namespace Tauri.Ipc

open Rust Acl Webview List

/-! ### Sending and fetching -/

/-- `CHANNEL_PLUGIN_NAME`. -/
def channelPluginName : String := "__TAURI_CHANNEL__"

/-- `CHANNEL_ID_HEADER_NAME`, in lower case. -/
def channelIdHeaderName : String := "tauri-channel-id"

/-- The counter `CHANNEL_DATA_COUNTER` and the `ChannelDataIpcQueue`. -/
structure ChannelState (R : Type) where
  dataCounter : UInt32
  queue : BTreeMap UInt32 R

section Channel

variable {R : Type}

/-- Queue a body under the next data id. The counter wraps around. -/
def ChannelState.queueData (s : ChannelState R) (body : R) : UInt32 × ChannelState R :=
  (s.dataCounter, ⟨s.dataCounter + 1, s.queue.insert s.dataCounter body⟩)

/-- The message handler of `JavaScriptChannelId::channel_on`, for the `i`-th message: the data id
the body is queued under, unless the interceptor consumes the message. Evaluating the script
that fetches it does not change the state. -/
def channelOn (interceptor : Option (Webview → UInt32 → Nat → R → Bool)) (webview : Webview)
    (callbackId : UInt32) (i : Nat) (body : R) (s : ChannelState R) :
    Option UInt32 × ChannelState R :=
  if (interceptor.map fun f => f webview callbackId i body).getD false then (none, s)
  else
    let (dataId, s) := s.queueData body
    (some dataId, s)

/-- `HeaderMap::get`. -/
def headerGet (headers : Headers) (name : String) : Option (List UInt8) :=
  (headers.find? fun header => header.1 == name).map (·.2)

/-- `HeaderValue::to_str`: visible ASCII and tabs only. -/
def headerToStr (value : List UInt8) : Option (List UInt8) :=
  if value.all fun b => (32 ≤ b && b < 127) || b == 9 then some value else none

/-- The data id a request asks for. -/
def channelId (headers : Headers) : Option UInt32 :=
  ((headerGet headers channelIdHeaderName).bind headerToStr).bind parseU32

/-- The command `fetch` of the channel plugin. -/
def fetch (headers : Headers) (s : ChannelState R) : InvokeResponse R × ChannelState R :=
  match channelId headers with
  | some id =>
    match s.queue[id]? with
    | some data => (.ok data, { s with queue := s.queue.erase id })
    | none => (.err "data not found", s)
  | none => (.err "missing channel id header", s)

/-- The invoke handler of the channel plugin: it knows the command `fetch` only. -/
def channelHandler (G P B : Type) : Handler G P B R (ChannelState R) := fun invoke s =>
  if invoke.command = "fetch" then
    ⟨true, [(fetch invoke.headers s).1], (fetch invoke.headers s).2⟩
  else ⟨false, [], s⟩

end Channel

/-- An application with the channel plugin. The queue is private to the channel module, so no
other handler touches it; a handler that sends on a channel is a step of its own. -/
structure ChannelApp (G P : Type) (S : ScopeTypes) (B R : Type) extends
    App G P S B R (ChannelState R) where
  channelInterceptor : Option (Webview → UInt32 → Nat → R → Bool)
  channelPlugin : plugins.find? (fun p => p.name == channelPluginName) =
    some ⟨channelPluginName, channelHandler G P B⟩
  plugins_keep : ∀ p ∈ plugins, p.name ≠ channelPluginName →
    ∀ invoke s, (p.extendApi invoke s).state = s
  invokeHandler_keeps : ∀ invoke s, (invokeHandler invoke s).state = s

section Run

variable {G P B R : Type} {S : ScopeTypes} (U : UrlCrate) (T : Texts G P) (E : Patterns G P)

/-- What a step of a run did. -/
inductive Effect (B R : Type) where
  | queued (webview : Webview) (dataId : UInt32) (body : R)
  | handedOut (webview : Webview) (request : InvokeRequest B) (body : R)
  | other

/-- The step put a body under the data id, or took one. -/
def Effect.Touches (dataId : UInt32) : Effect B R → Prop
  | .queued _ id _ => id = dataId
  | .handedOut _ request _ => channelId request.headers = some dataId
  | .other => False

/-- The body that dispatching a request handed out: the fetch command ran and answered with
it. -/
def handedOutBody (d : Dispatched R (ChannelState R)) : Option R :=
  if d.handlers = [.plugin channelPluginName "fetch"] then
    match d.calls with
    | .ok [call] =>
      match call.response with
      | .ok body => some body
      | .err _ => none
    | _ => none
  else none

/-- The effect of a send. -/
def sendEffect (webview : Webview) (body : R) : Option UInt32 → Effect B R
  | some dataId => .queued webview dataId body
  | none => .other

/-- The effect of a request. -/
def requestEffect (webview : Webview) (request : InvokeRequest B)
    (d : Dispatched R (ChannelState R)) : Effect B R :=
  match handedOutBody d with
  | some body => .handedOut webview request body
  | none => .other

/-- The runs of an application from a state: any interleaving of sends on channels of any
webview and of requests from any webview, with the effects in order. The authority, the plugins
and the configuration change between steps: each step finds the application as one of `apps`. -/
inductive Run (apps : Set (ChannelApp G P S B R)) (s₀ : ChannelState R) :
    List (Effect B R) → ChannelState R → Prop
  | start : Run apps s₀ [] s₀
  | channelOn {es : List (Effect B R)} {s : ChannelState R} (h : Run apps s₀ es s)
      {A : ChannelApp G P S B R} (hA : A ∈ apps) (webview : Webview) (callbackId : UInt32)
      (i : Nat) (body : R) :
      Run apps s₀
        (es ++ [sendEffect webview body
          (channelOn A.channelInterceptor webview callbackId i body s).1])
        (channelOn A.channelInterceptor webview callbackId i body s).2
  | fromCallbackFn {es : List (Effect B R)} {s : ChannelState R} (h : Run apps s₀ es s)
      (webview : Webview) (body : R) :
      Run apps s₀ (es ++ [.queued webview (s.queueData body).1 body]) (s.queueData body).2
  | request {es : List (Effect B R)} {s : ChannelState R} (h : Run apps s₀ es s)
      {A : ChannelApp G P S B R} (hA : A ∈ apps) (fuel : Nat) (webview : Webview)
      (request : InvokeRequest B) :
      Run apps s₀
        (es ++ [requestEffect webview request (onMessage U T E fuel A.toApp webview request s)])
        (onMessage U T E fuel A.toApp webview request s).state

/-! ### What a request takes from the queue -/

variable (A : ChannelApp G P S B R)

theorem extendApi_channel (invoke : Invoke G P B) (s : ChannelState R) :
    extendApi A.plugins channelPluginName invoke s =
      ([.plugin channelPluginName invoke.command], channelHandler G P B invoke s) := by
  rw [extendApi, A.channelPlugin]

theorem extendApi_other_state {plugin : String} (hne : plugin ≠ channelPluginName)
    (invoke : Invoke G P B) (s : ChannelState R) :
    (extendApi A.plugins plugin invoke s).2.state = s := by
  unfold extendApi
  cases hfind : A.plugins.find? fun p => p.name == plugin with
  | none => rfl
  | some p =>
    have hname : p.name = plugin := by simpa using find?_some hfind
    exact A.plugins_keep p (mem_of_find?_eq_some hfind) (hname ▸ hne) invoke s

theorem fetch_cases (headers : Headers) (s : ChannelState R) :
    (∃ id body, channelId headers = some id ∧ s.queue[id]? = some body ∧
      fetch headers s = (.ok body, { s with queue := s.queue.erase id })) ∨
    ∃ e, fetch headers s = (.err e, s) := by
  unfold fetch
  cases hid : channelId headers with
  | none => exact .inr ⟨_, rfl⟩
  | some id =>
    cases hdata : s.queue[id]? with
    | none => exact .inr ⟨"data not found", by simp only [hdata]⟩
    | some data => exact .inl ⟨id, data, rfl, hdata, by simp only [hdata]⟩

variable {webview : Webview} {request : InvokeRequest B} {s : ChannelState R}

theorem handOver_channel {invoke : Invoke G P B} : handOver webview request invoke.command
      ([.plugin channelPluginName invoke.command], channelHandler G P B invoke s) =
      if invoke.command = "fetch" then
        ⟨[.plugin channelPluginName "fetch"],
          .ok [⟨webview, request.cmd, (fetch invoke.headers s).1, request.callback, request.error⟩],
          (fetch invoke.headers s).2⟩
      else
        ⟨[.plugin channelPluginName invoke.command],
          .ok [⟨webview, request.cmd, .err ("Command " ++ invoke.command ++ " not found"),
            request.callback, request.error⟩], s⟩ := by
  unfold handOver channelHandler
  by_cases hfetch : invoke.command = "fetch"
  · simp only [hfetch, if_true]
    rfl
  · simp only [hfetch, if_false]
    rfl

/-- **A request takes at most the body under the id of its header.** -/
theorem onMessage_queue_cases (fuel : Nat) (webview : Webview) (request : InvokeRequest B)
    (s : ChannelState R) :
    (handedOutBody (onMessage U T E fuel A.toApp webview request s) = none ∧
      (onMessage U T E fuel A.toApp webview request s).state = s) ∨
    ∃ id body, channelId request.headers = some id ∧ s.queue[id]? = some body ∧
      handedOutBody (onMessage U T E fuel A.toApp webview request s) = some body ∧
      (onMessage U T E fuel A.toApp webview request s).state =
        { s with queue := s.queue.erase id } := by
  by_cases hkey : request.invokeKey = A.invokeKey
  · rcases onMessage_cases U T E hkey with
      hrejected | ⟨-, ⟨plugin, command, -, hd⟩ | ⟨-, hd⟩⟩
    · rw [hrejected]
      exact .inl ⟨rfl, rfl⟩
    · obtain ⟨invoke, hinvoke, rfl, hheaders⟩ : ∃ invoke : Invoke G P B,
          invoke = { invokeOf U E A.toApp webview request with command } ∧
          invoke.command = command ∧ invoke.headers = request.headers := ⟨_, rfl, rfl, rfl⟩
      rw [hd, ← hinvoke]
      by_cases hplug : plugin = channelPluginName
      · rw [hplug, extendApi_channel, handOver_channel, ← hheaders]
        split_ifs with hfetch
        · rcases fetch_cases invoke.headers s with ⟨id, body, hid, hdata, heq⟩ | ⟨e, heq⟩
          · rw [heq]
            exact .inr ⟨id, body, hid, hdata, rfl, rfl⟩
          · rw [heq]
            exact .inl ⟨rfl, rfl⟩
        · refine .inl ⟨if_neg fun hhs => ?_, rfl⟩
          exact hfetch (HandlerCall.plugin.inj (cons.inj hhs).1).2
      · refine .inl ⟨if_neg fun hhs => ?_, extendApi_other_state A hplug _ s⟩
        have hran : HandlerCall.plugin channelPluginName "fetch" ∈
            (extendApi A.plugins plugin invoke s).1 := by
          rw [show (extendApi A.plugins plugin invoke s).1 = _ from hhs]
          exact mem_singleton_self _
        exact hplug (HandlerCall.plugin.inj (mem_handlers_extendApi hran)).1.symm
    · rw [hd]
      refine .inl ⟨if_neg fun hhs => ?_, A.invokeHandler_keeps _ s⟩
      cases hhs
  · rw [onMessage_of_ne U T E hkey]
    exact .inl ⟨rfl, rfl⟩

/-! ### What is pending -/

/-- The body that the effects leave under a data id. -/
def pendingAt (dataId : UInt32) (es : List (Effect B R)) : Option R :=
  es.foldl (fun pending e =>
    match e with
    | .queued _ id body => if id = dataId then some body else pending
    | .handedOut _ request _ => if channelId request.headers = some dataId then none else pending
    | .other => pending) none

/-- The effects queued the body under the id, and none of them touched the id since. -/
def LeftPending (es : List (Effect B R)) (dataId : UInt32) (body : R) : Prop :=
  ∃ (before : List (Effect B R)) (sender : Webview) (since : List (Effect B R)),
    es = before ++ .queued sender dataId body :: since ∧ ∀ e ∈ since, ¬ e.Touches dataId

variable {es past : List (Effect B R)} {dataId : UInt32} {body : R}

theorem LeftPending.append (h : LeftPending es dataId body) {e : Effect B R}
    (htouch : ¬ e.Touches dataId) : LeftPending (es ++ [e]) dataId body := by
  obtain ⟨before, sender, since, rfl, hsince⟩ := h
  refine ⟨before, sender, since ++ [e], by simp, fun e' he' => ?_⟩
  rcases mem_append.mp he' with he' | he'
  · exact hsince e' he'
  · rw [mem_singleton.mp he']
    exact htouch

theorem leftPending_of_pendingAt (h : pendingAt dataId es = some body) :
    LeftPending es dataId body := by
  induction es using reverseRecOn with
  | nil => cases h
  | append_singleton es e ih =>
    rw [pendingAt, foldl_append, foldl_cons, foldl_nil] at h
    cases e with
    | queued webview =>
      dsimp only at h
      split_ifs at h with hid
      · cases h
        exact ⟨es, webview, [], by rw [hid], fun e he => absurd he not_mem_nil⟩
      · exact (ih h).append hid
    | handedOut =>
      dsimp only at h
      split_ifs at h with hid
      exact (ih h).append hid
    | other => exact (ih h).append id

theorem LeftPending.pendingAt_eq (h : LeftPending es dataId body) :
    pendingAt dataId es = some body := by
  obtain ⟨before, sender, since, rfl, hsince⟩ := h
  induction since using reverseRecOn with
  | nil => simp [pendingAt]
  | append_singleton since e ih =>
    have hpend := ih fun e' he' => hsince e' (mem_append_left _ he')
    have htouch : ¬ e.Touches dataId := hsince e (mem_append_right _ mem_cons_self)
    rw [← cons_append, ← append_assoc, pendingAt, foldl_append, ← pendingAt, hpend]
    cases e with
    | queued | handedOut => exact if_neg htouch
    | other => rfl

theorem LeftPending.queued_after {between : List (Effect B R)} {taken : R}
    (h : LeftPending (past ++ .handedOut webview request taken :: between) dataId body)
    (hid : channelId request.headers = some dataId) :
    ∃ sender, .queued sender dataId body ∈ between := by
  obtain ⟨before, sender, since, heq, hsince⟩ := h
  refine ⟨sender, ?_⟩
  rcases append_eq_append_iff.mp heq with ⟨mid, -, hmid⟩ | ⟨mid, -, hmid⟩
  · grind
  · -- the hand-out would be among the effects that do not touch the id
    cases mid with
    | nil => cases hmid
    | cons =>
      obtain ⟨-, rfl⟩ := cons.inj hmid
      exact absurd hid (hsince _ (mem_append_right _ mem_cons_self))

/-- **The queue at every point of every run** is what the effects so far left pending. -/
theorem Run.queue_eq_pendingAt {apps : Set (ChannelApp G P S B R)} {s₀ : ChannelState R}
    (h : Run U T E apps s₀ es s) (hemp : s₀.queue = ∅) (dataId : UInt32) :
    s.queue[dataId]? = pendingAt dataId es := by
  have hqueue : ∀ {es : List (Effect B R)} {s : ChannelState R} (webview : Webview) (body : R),
      s.queue[dataId]? = pendingAt dataId es → (s.queueData body).2.queue[dataId]? =
        pendingAt dataId (es ++ [.queued webview (s.queueData body).1 body]) := by
    intro es s webview body ih
    rw [pendingAt, foldl_append, foldl_cons, foldl_nil]
    simp only [ChannelState.queueData, Std.ExtTreeMap.getElem?_insert,
      Std.LawfulEqOrd.compare_eq_iff_eq]
    rw [ih]
    rfl
  induction h with
  | start => simp [hemp, pendingAt]
  | channelOn _ _ webview _ _ body ih =>
    unfold Ipc.channelOn
    split_ifs
    · rw [pendingAt, foldl_append]
      exact ih
    · exact hqueue webview body ih
  | fromCallbackFn _ webview body ih => exact hqueue webview body ih
  | @request es s _ A _ fuel webview request ih =>
    rw [pendingAt, foldl_append, foldl_cons, foldl_nil]
    rcases onMessage_queue_cases U T E A fuel webview request s with
      ⟨hbody, hstate⟩ | ⟨id, body, hid, -, hbody, hstate⟩
    · rw [hstate, requestEffect, hbody]
      exact ih
    · rw [hstate, requestEffect, hbody]
      simp only [Std.ExtTreeMap.getElem?_erase, Std.LawfulEqOrd.compare_eq_iff_eq, hid,
        Option.some.injEq]
      rw [ih]
      rfl

private theorem handedOut_last_or_before {future : List (Effect B R)} {e : Effect B R}
    (h : es ++ [e] = past ++ .handedOut webview request body :: future) :
    (es = past ∧ e = .handedOut webview request body) ∨
      ∃ future', es = past ++ .handedOut webview request body :: future' := by
  rcases eq_nil_or_concat future with rfl | ⟨future', last, rfl⟩
  · obtain ⟨hes, he⟩ := append_inj' h rfl
    exact .inl ⟨hes, (cons.inj he).1⟩
  · rw [concat_eq_append, ← cons_append, ← append_assoc] at h
    exact .inr ⟨future', (append_inj' h rfl).1⟩

theorem Run.exists_queue_of_handedOut {apps : Set (ChannelApp G P S B R)} {s₀ : ChannelState R}
    (h : Run U T E apps s₀ es s) {future : List (Effect B R)}
    (hes : es = past ++ .handedOut webview request body :: future) :
    ∃ s' id, Run U T E apps s₀ past s' ∧ channelId request.headers = some id ∧
      s'.queue[id]? = some body := by
  induction h generalizing future with
  | start => simp at hes
  | channelOn _ _ _ _ _ _ ih =>
    rcases handedOut_last_or_before hes with ⟨-, he⟩ | ⟨future', hes⟩
    · unfold Ipc.channelOn at he
      split_ifs at he <;> cases he
    · exact ih hes
  | fromCallbackFn _ _ _ ih =>
    rcases handedOut_last_or_before hes with ⟨-, he⟩ | ⟨future', hes⟩
    · cases he
    · exact ih hes
  | @request es s hrun A _ fuel webview' request' ih =>
    rcases handedOut_last_or_before hes with ⟨rfl, he⟩ | ⟨future', hes⟩
    · rcases onMessage_queue_cases U T E A fuel webview' request' s with
        ⟨hbody, -⟩ | ⟨id, body', hid, hdata, hbody, -⟩
      · rw [requestEffect, hbody] at he
        cases he
      · rw [requestEffect, hbody] at he
        cases he
        exact ⟨s, id, hrun, hid, hdata⟩
    · exact ih hes

/-- **Any webview is answered.** Whatever the authority allows, a fetch request with the key and
the id of a queued body is handed the body. -/
theorem handedOutBody_fetch (fuel : Nat) (webview : Webview)
    (hkey : request.invokeKey = A.invokeKey) (hcmd : request.cmd = fetchChannelDataCommand)
    (hid : channelId request.headers = some dataId) (hdata : s.queue[dataId]? = some body) :
    handedOutBody (onMessage U T E fuel A.toApp webview request s) = some body := by
  have hplug : pluginCommand request.cmd = some (channelPluginName, "fetch") := by
    rw [hcmd]
    decide
  have hfetch : fetch request.headers s = (.ok body, { s with queue := s.queue.erase dataId }) := by
    simp only [fetch, hid, hdata]
  have hover := @handOver_channel G P B R webview request s
    { invokeOf U E A.toApp webview request with command := "fetch" }
  simp only [if_true, invokeOf, hfetch] at hover
  simp only [onMessage, hkey, hcmd, ne_eq, not_true_eq_false, if_false, bne_self_eq_false,
    Bool.and_false, Bool.false_and, Bool.false_eq_true]
  rw [← hcmd, hplug]
  simp only [extendApi_channel, invokeOf]
  rw [hover]
  rfl

end Run

/-! ### A sample -/

namespace Sample

/-- An application with the channel plugin and no capability at all. -/
def channelApp : ChannelApp String String scopeTypes Unit String where
  manager := ⟨.linux, none, ∅⟩
  invokeKey := "key"
  authority := .new ∅ ⟨∅, ∅, ∅, ∅⟩
  plugins := [⟨channelPluginName, channelHandler String String Unit⟩]
  invokeHandler _ s := ⟨false, [], s⟩
  debugAssertions := false
  channelInterceptor := none
  channelPlugin := rfl
  plugins_keep p hp hne := by
    obtain rfl := List.mem_singleton.mp hp
    exact absurd rfl hne
  invokeHandler_keeps _ _ := rfl

/-- A remote page that asks for the data id `0`. -/
def fetchRequest : InvokeRequest Unit where
  cmd := fetchChannelDataCommand
  callback := 0
  error := 1
  url := { scheme := "https", host := some (.domain "evil.com") }
  body := ()
  headers := [(channelIdHeaderName, [48])]
  invokeKey := "key"

def noData : ChannelState String := ⟨0, ∅⟩

/-- A message on a channel of the webview `main`, fetched by the webview `guest`. -/
def stolen : List (Effect Unit String) :=
  [.queued ⟨"main", "main"⟩ 0 "secret", .handedOut ⟨"guest", "guest"⟩ fetchRequest "secret"]

theorem run_stolen : ∃ s, Run AppManager.sampleUrlCrate Webview.Sample.texts patterns {channelApp}
    noData stolen s := by
  have happ : channelApp ∈ ({channelApp} : Set _) := rfl
  have hsent : Run AppManager.sampleUrlCrate Webview.Sample.texts patterns {channelApp} noData
      [.queued ⟨"main", "main"⟩ 0 "secret"] (noData.queueData "secret").2 :=
    .channelOn .start happ ⟨"main", "main"⟩ 7 0 "secret"
  have hid : channelId fetchRequest.headers = some 0 := by decide
  have hdata : (noData.queueData "secret").2.queue[(0 : UInt32)]? = some "secret" := by decide
  have hbody := handedOutBody_fetch AppManager.sampleUrlCrate Webview.Sample.texts patterns
    channelApp 0 ⟨"guest", "guest"⟩ rfl rfl hid hdata
  have hfetched := hsent.request happ 0 ⟨"guest", "guest"⟩ fetchRequest
  rw [requestEffect, hbody] at hfetched
  exact ⟨_, hfetched⟩

end Sample

/-! ### Who is handed what -/

section HandedOut

variable {G P B R : Type} {S : ScopeTypes} (U : UrlCrate) (T : Texts G P) (E : Patterns G P)

/-- **Channel data is handed out once, to whoever names its id.** In every run, a body that a
request was handed was sent on a channel and queued under the data id that the request's header
names, and nothing was queued or handed out under this id in between. Between two bodies handed
out under one id another message was queued under it. Conversely a body that was queued, and whose
id nothing touched since, is handed to every webview that sends the fetch command with the key and
this id, whatever its origin and its capabilities. -/
theorem handedOut_was_queued {apps : Set (ChannelApp G P S B R)} {s₀ s : ChannelState R}
    {es : List (Effect B R)} (hrun : Run U T E apps s₀ es s) (hempty : s₀.queue = ∅) :
    (∀ (past : List (Effect B R)) (webview : Webview) (request : InvokeRequest B) (body : R)
        (future : List (Effect B R)),
      es = past ++ .handedOut webview request body :: future →
      ∃ dataId, channelId request.headers = some dataId ∧ LeftPending past dataId body) ∧
    (∀ (past : List (Effect B R)) (webview : Webview) (request : InvokeRequest B) (body : R)
        (between : List (Effect B R)) (webview' : Webview) (request' : InvokeRequest B) (body' : R)
        (future : List (Effect B R)),
      es = past ++ .handedOut webview request body :: between ++
        .handedOut webview' request' body' :: future →
      channelId request.headers = channelId request'.headers →
      ∃ dataId sender, channelId request.headers = some dataId ∧
        .queued sender dataId body' ∈ between) ∧
    ∀ (dataId : UInt32) (body : R), LeftPending es dataId body →
      ∀ (A : ChannelApp G P S B R) (fuel : Nat) (webview : Webview) (request : InvokeRequest B),
        request.invokeKey = A.invokeKey → request.cmd = fetchChannelDataCommand →
        channelId request.headers = some dataId →
        handedOutBody (onMessage U T E fuel A.toApp webview request s) = some body := by
  have hq : ∀ (past : List (Effect B R)) (webview : Webview) (request : InvokeRequest B)
      (body : R) (future : List (Effect B R)),
      es = past ++ .handedOut webview request body :: future →
      ∃ dataId, channelId request.headers = some dataId ∧ LeftPending past dataId body := by
    intro past webview request body future hes
    obtain ⟨s', id, hpast, hid, hdata⟩ := hrun.exists_queue_of_handedOut U T E hes
    rw [hpast.queue_eq_pendingAt U T E hempty] at hdata
    exact ⟨id, hid, leftPending_of_pendingAt hdata⟩
  refine ⟨hq, ?_, ?_⟩
  · intro past webview request body between webview' request' body' future hes hsame
    obtain ⟨dataId, hid, hpend⟩ := hq _ _ _ _ _ hes
    obtain ⟨sender, hsender⟩ := hpend.queued_after (hsame.trans hid)
    exact ⟨dataId, sender, hsame.trans hid, hsender⟩
  · intro dataId body hpend A fuel webview request hkey hcmd hid
    have hdata : s.queue[dataId]? = some body := by
      rw [hrun.queue_eq_pendingAt U T E hempty, hpend.pendingAt_eq]
    exact handedOutBody_fetch U T E A fuel webview hkey hcmd hid hdata

end HandedOut

/-- The stolen message had been queued under the id that the thief named. -/
theorem sample_stolen_was_queued : ∃ dataId,
    channelId Sample.fetchRequest.headers = some dataId ∧
    LeftPending ([.queued ⟨"main", "main"⟩ 0 "secret"] : List (Effect Unit String)) dataId
      "secret" := by
  obtain ⟨s, hrun⟩ := Sample.run_stolen
  exact (handedOut_was_queued AppManager.sampleUrlCrate Webview.Sample.texts Sample.patterns hrun
    rfl).1 [.queued ⟨"main", "main"⟩ 0 "secret"] ⟨"guest", "guest"⟩ Sample.fetchRequest "secret" []
    rfl

/-- **Channel data is not confidential.** A remote page without any capability, in another
webview, is handed the message. -/
theorem sample_guest_is_handed_secret :
    (∃ s, Run AppManager.sampleUrlCrate Webview.Sample.texts Sample.patterns {Sample.channelApp}
      Sample.noData [.queued ⟨"main", "main"⟩ 0 "secret",
        .handedOut ⟨"guest", "guest"⟩ Sample.fetchRequest "secret"] s) ∧
    Sample.channelApp.manager.aclOrigin AppManager.sampleUrlCrate Sample.fetchRequest.url =
      .remote Sample.fetchRequest.url ∧
    Sample.channelApp.authority.resolveAccess Sample.patterns Sample.fetchRequest.cmd "guest"
      "guest" (.remote Sample.fetchRequest.url) = none :=
  ⟨Sample.run_stolen, by decide, by decide⟩

end Tauri.Ipc
