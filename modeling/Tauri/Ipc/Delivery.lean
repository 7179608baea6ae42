import Tauri.Ipc.Channel

/-!
# Delivery of channel messages

The page's half of a channel and the two halves together. Each message is fetched on its own, so
messages arrive in any order; the `Channel` of the page passes them on in the order of their
indices, and keeps those that arrive early (`JsChannel.callback`).

The index of a message is drawn **before** the interceptor and `eval` decide whether it is sent at
all. `ChannelRun.Step` interleaves sends on one channel, in the steps that other threads can come
between, with the fetches of the page. An index that never arrives holds back every later message:
`accepted_delivered_iff`.

Numbers of the page are natural numbers here, as they are up to `2 ^ 53`.
-/

namespace Tauri.Ipc

open Rust Acl Webview List Function

/-! ### The channel of the page -/

/-- `Channel` in `core.ts`. -/
@[ext] structure JsChannel (T : Type) where
  nextMessageId : Nat
  pendingMessages : BTreeMap Nat T

namespace JsChannel

variable {T : Type}

def new : JsChannel T := ⟨0, ∅⟩

/-- The loop over the pending messages, with the messages passed to `onmessage`. Every round takes
one of the pending messages, so as many rounds as there are of these are enough
(`Buffered.drain`). -/
def drain : Nat → JsChannel T → List T × JsChannel T
  | 0, c => ([], c)
  | rounds + 1, c =>
    match c.pendingMessages[c.nextMessageId]? with
    | none => ([], c)
    | some message =>
      let (messages, c) :=
        drain rounds ⟨c.nextMessageId + 1, c.pendingMessages.erase c.nextMessageId⟩
      (message :: messages, c)

/-- The callback of the channel, with the messages passed to `onmessage`. -/
def callback (c : JsChannel T) (message : T) (id : Nat) : List T × JsChannel T :=
  if id = c.nextMessageId then
    let (messages, c) :=
      drain c.pendingMessages.size { c with nextMessageId := c.nextMessageId + 1 }
    (message :: messages, c)
  else ([], { c with pendingMessages := c.pendingMessages.insert id message })

/-- Payloads that arrive at a new channel one after the other, given by their indices. -/
def receive (message : Nat → T) (arrivals : List Nat) : List T × JsChannel T :=
  arrivals.foldl (fun (messages, c) id =>
    let (messages', c) := c.callback (message id) id
    (messages ++ messages', c)) ([], new)

end JsChannel

section Buffered

variable {T : Type}

/-- What the channel of the page is for: of the messages that arrived, `arrived id` under the index
`id`, those before the first missing index are passed on in order, and the others are kept. -/
structure Buffered (arrived : Nat → Option T) (messages : List T) (c : JsChannel T) : Prop where
  messages : messages.map some = (List.range c.nextMessageId).map arrived
  missing : arrived c.nextMessageId = none
  pending : ∀ id, c.pendingMessages[id]? = if c.nextMessageId ≤ id then arrived id else none

namespace Buffered

variable {arrived : Nat → Option T} {messages : List T} {c : JsChannel T}

theorem new : Buffered (fun _ => none) [] (JsChannel.new : JsChannel T) :=
  ⟨rfl, rfl, by simp [JsChannel.new]⟩

theorem drain {rounds : Nat} (hrounds : c.pendingMessages.size ≤ rounds)
    (hmsgs : messages.map some = (List.range c.nextMessageId).map arrived)
    (hpend : ∀ id, c.pendingMessages[id]? =
      if c.nextMessageId ≤ id then arrived id else none) :
    Buffered arrived (messages ++ (c.drain rounds).1) (c.drain rounds).2 := by
  have hnext : c.pendingMessages[c.nextMessageId]? = arrived c.nextMessageId := by
    rw [hpend, if_pos le_rfl]
  induction rounds generalizing c messages with
  | zero =>
    have hemp : c.pendingMessages = ∅ :=
      Std.ExtTreeMap.eq_empty_iff_size_eq_zero.mpr (Nat.le_zero.mp hrounds)
    rw [hemp, Std.ExtTreeMap.getElem?_empty] at hnext
    rw [JsChannel.drain, append_nil]
    exact ⟨hmsgs, hnext.symm, hpend⟩
  | succ rounds ih =>
    rw [JsChannel.drain]
    cases hget : c.pendingMessages[c.nextMessageId]? with
    | none =>
      rw [hget] at hnext
      rw [append_nil]
      exact ⟨hmsgs, hnext.symm, hpend⟩
    | some message =>
      rw [hget] at hnext
      let c' : JsChannel T := ⟨c.nextMessageId + 1, c.pendingMessages.erase c.nextMessageId⟩
      have hrounds' : c'.pendingMessages.size ≤ rounds := by grind
      have hmsgs' : (messages ++ [message]).map some = (range c'.nextMessageId).map arrived := by
        rw [map_append, hmsgs, range_succ, map_append, map_singleton, map_singleton, hnext]
      have hpend' : ∀ id, c'.pendingMessages[id]? =
          if c'.nextMessageId ≤ id then arrived id else none := by
        intro id
        simp only [c', Std.ExtTreeMap.getElem?_erase, Std.LawfulEqOrd.compare_eq_iff_eq, hpend]
        split_ifs <;> first | rfl | omega
      have hdrained := ih hrounds' hmsgs' hpend' (by rw [hpend', if_pos le_rfl])
      rw [append_assoc] at hdrained
      exact hdrained

section

variable (h : Buffered arrived messages c)
include h

theorem callback {id : Nat} (hid : arrived id = none) (message : T) :
    Buffered (Function.update arrived id (some message))
      (messages ++ (c.callback message id).1) (c.callback message id).2 := by
  have hrange : ∀ n ≤ id, (range n).map (update arrived id (some message)) =
      (range n).map arrived := by
    intro n hn
    refine map_congr_left fun i hi => update_of_ne ?_ _ _
    have hlt := mem_range.mp hi
    omega
  -- Indices before the next one have all arrived.
  have hle : c.nextMessageId ≤ id := by
    by_contra hlt
    have hmem : none ∈ messages.map some := by
      rw [h.messages, mem_map]
      exact ⟨id, mem_range.mpr (by omega), hid⟩
    simp at hmem
  rw [JsChannel.callback]
  split_ifs with heq
  · subst heq
    let c' : JsChannel T := { c with nextMessageId := c.nextMessageId + 1 }
    have hmsgs' : (messages ++ [message]).map some = (range c'.nextMessageId).map
        (update arrived c.nextMessageId (some message)) := by
      rw [map_append, h.messages, range_succ, map_append, hrange _ le_rfl]
      simp
    have hpend' : ∀ id, c'.pendingMessages[id]? = if c'.nextMessageId ≤ id then
        update arrived c.nextMessageId (some message) id else none := by
      intro id
      by_cases hid' : id = c.nextMessageId
      · subst hid'
        have hget := h.pending c.nextMessageId
        rw [if_pos le_rfl, h.missing] at hget
        rw [if_neg (by simp [c'])]
        exact hget
      · rw [update_of_ne hid', show c'.pendingMessages = c.pendingMessages from rfl, h.pending]
        simp only [c']
        split_ifs <;> first | rfl | omega
    have hdrained := drain (c := c') le_rfl hmsgs' hpend'
    rw [append_assoc] at hdrained
    exact hdrained
  · have hmiss : update arrived id (some message) c.nextMessageId = none := by
      rw [update_of_ne fun hid' => heq hid'.symm]
      exact h.missing
    refine ⟨by rw [append_nil, hrange _ hle]; exact h.messages, hmiss, fun id' => ?_⟩
    simp only [Std.ExtTreeMap.getElem?_insert, Std.LawfulEqOrd.compare_eq_iff_eq, h.pending]
    by_cases hid' : id = id'
    · subst hid'
      rw [if_pos rfl, if_pos hle, update_self]
    · rw [if_neg hid', update_of_ne fun heq' => hid' heq'.symm]

theorem length_messages : messages.length = c.nextMessageId := by
  simpa using congrArg length h.messages

theorem getElem?_messages (id : Nat) :
    messages[id]? = if id < c.nextMessageId then arrived id else none := by
  have hget := congrArg (fun l => l[id]?) h.messages
  simp only [getElem?_map] at hget
  split_ifs with hid
  · grind
  · rw [getElem?_eq_none_iff, h.length_messages]
    omega

theorem lt_next_iff (id : Nat) : id < c.nextMessageId ↔ ∀ j ≤ id, arrived j ≠ none := by
  constructor
  · intro hid j hj hnone
    have hget := h.getElem?_messages j
    rw [if_pos (by omega), hnone, getElem?_eq_none_iff, h.length_messages] at hget
    omega
  · intro harr
    by_contra hid
    exact harr c.nextMessageId (by omega) h.missing

end

theorem receive {arrivals : List Nat} (hnd : arrivals.Nodup) (message : Nat → T) :
    Buffered (fun id => if id ∈ arrivals then some (message id) else none)
      (JsChannel.receive message arrivals).1
      (JsChannel.receive message arrivals).2 := by
  induction arrivals using reverseRecOn with
  | nil => exact new
  | append_singleton arrivals id ih =>
    obtain ⟨hnd, -, hdisj⟩ := nodup_append.mp hnd
    have hid : id ∉ arrivals := fun hmem => hdisj id hmem id mem_cons_self rfl
    have hmiss : (fun id => if id ∈ arrivals then some (message id) else none) id = none :=
      if_neg hid
    have hstep := (ih hnd).callback hmiss (message id)
    have harr : update (fun id => if id ∈ arrivals then some (message id) else none)
        id (some (message id)) =
        fun id' => if id' ∈ arrivals ++ [id] then some (message id') else none := by
      funext id'
      by_cases heq : id' = id
      · subst heq
        simp
      · simp [heq]
    rw [harr] at hstep
    rw [JsChannel.receive, foldl_append]
    exact hstep

end Buffered

end Buffered

/-- **Order.** Messages with the indices below `n`, whatever the order they arrive in, are passed to
`onmessage` in the order of the indices, each once. After any of them, the messages with the indices
before the first missing one have been. -/
theorem receive_in_order {T : Type} (message : Nat → T) (n : Nat) {arrivals : List Nat}
    (h : arrivals.Perm (List.range n)) :
    (JsChannel.receive message arrivals).1 =
        (List.range n).map message ∧
      (JsChannel.receive message arrivals).2 = ⟨n, ∅⟩ ∧
      ∀ before, before <+: arrivals → ∃ k, (∀ id < k, id ∈ before) ∧ k ∉ before ∧
        (JsChannel.receive message before).1 =
          (List.range k).map message ∧
        (JsChannel.receive message before).2.nextMessageId = k := by
  have hnd : arrivals.Nodup := h.nodup_iff.mpr nodup_range
  have hbef : ∀ before, before <+: arrivals → ∃ k, (∀ id < k, id ∈ before) ∧ k ∉ before ∧
      (JsChannel.receive message before).1 =
        (range k).map message ∧
      (JsChannel.receive message before).2.nextMessageId = k := by
    intro before hpre
    have hbuf := Buffered.receive (hnd.sublist hpre.sublist) message
    have harr : ∀ id < _, id ∈ before := fun id hid => by
      simpa using (hbuf.lt_next_iff id).mp hid id le_rfl
    refine ⟨_, harr, by simpa using hbuf.missing, ?_, rfl⟩
    refine map_injective_iff.mpr (Option.some_injective T) ?_
    rw [hbuf.messages, map_map]
    refine map_congr_left fun id hid => ?_
    rw [if_pos (harr id (mem_range.mp hid))]
    rfl
  obtain ⟨k, hlt, hk, hmsgs, hnext⟩ := hbef arrivals prefix_rfl
  have hkn : k = n := by
    simp only [h.mem_iff, mem_range] at hlt hk
    by_contra hne
    have hnk : n < k := by omega
    exact absurd (hlt n hnk) (lt_irrefl n)
  subst hkn
  refine ⟨hmsgs, JsChannel.ext hnext (Std.ExtTreeMap.ext_getElem? fun id => ?_), hbef⟩
  rw [(Buffered.receive hnd message).pending, hnext, Std.ExtTreeMap.getElem?_empty]
  simp only [h.mem_iff, mem_range]
  split_ifs <;> first | rfl | omega

/-- Three messages that arrive with the last one first. -/
theorem sample_receive_in_order :
    (JsChannel.receive (fun id => id + 10) [2, 0, 1]).1 = [10, 11, 12] :=
  (receive_in_order (fun id => id + 10) 3 (by decide : [2, 0, 1].Perm (range 3))).1

/-! ### Both halves -/

/-- Where a message is: its send has drawn an index, the interceptor consumed it, it is queued for
the page under a data id, `eval` failed or succeeded, the page fetched it, the channel of the page
received it. -/
inductive MessagePhase where
  | started
  | consumed
  | queued (dataId : UInt32)
  | failed
  | evaluated (dataId : UInt32)
  | fetched
  | received
  deriving DecidableEq

/-- A message passed to `send`. -/
structure SentMessage (R : Type) where
  body : R
  phase : MessagePhase

namespace SentMessage

variable {R : Type}

/-- The send returned `Ok`, and the interceptor did not consume the message. -/
def Accepted (message : SentMessage R) : Prop :=
  match message.phase with
  | .evaluated _ | .fetched | .received => True
  | _ => False

/-- The page never gets the message. -/
def Skipped (message : SentMessage R) : Prop := message.phase = .consumed ∨ message.phase = .failed

/-- The send has returned, and the fetch it made the page issue is complete. -/
def Settled (message : SentMessage R) : Prop := message.Skipped ∨ message.phase = .received

end SentMessage

/-- A run of a channel: the data queued for pages, the messages sent on the channel, by index, the
channel of the page and what it passed to `onmessage`. The counter of `channel_on` is the number of
messages. -/
structure ChannelRun (R : Type) where
  data : ChannelState R
  sent : List (SentMessage R)
  page : JsChannel R
  delivered : List R

namespace ChannelRun

variable {R : Type}

def start (data : ChannelState R) : ChannelRun R := ⟨data, [], .new, []⟩

/-- A message is in a new phase. -/
def setPhase (s : ChannelRun R) (i : Nat) (body : R) (phase : MessagePhase) : ChannelRun R :=
  { s with sent := s.sent.set i ⟨body, phase⟩ }

/-- A step of a thread that sends, of the page, or of another part of the application. -/
inductive Step (webview : Webview) (callbackId : UInt32) : ChannelRun R → ChannelRun R → Prop
  /-- A send draws an index. -/
  | send (s : ChannelRun R) (body : R) :
      Step webview callbackId s { s with sent := s.sent ++ [⟨body, .started⟩] }
  /-- The interceptor consumes a message. It may have a state of its own. -/
  | consume {s : ChannelRun R} {i : Nat} {body : R}
      (interceptor : Option (Webview → UInt32 → Nat → R → Bool))
      (hsent : s.sent[i]? = some ⟨body, .started⟩)
      (h : (channelOn interceptor webview callbackId i body s.data).1 = none) :
      Step webview callbackId s (s.setPhase i body .consumed)
  /-- A message is queued for the page. -/
  | queue {s : ChannelRun R} {i : Nat} {body : R} {dataId : UInt32} {data : ChannelState R}
      (interceptor : Option (Webview → UInt32 → Nat → R → Bool))
      (hsent : s.sent[i]? = some ⟨body, .started⟩)
      (h : channelOn interceptor webview callbackId i body s.data = (some dataId, data)) :
      Step webview callbackId s { s.setPhase i body (.queued dataId) with data }
  /-- `eval` succeeds or fails, and the send returns. -/
  | eval {s : ChannelRun R} {i : Nat} {body : R} {dataId : UInt32} (ok : Bool)
      (hsent : s.sent[i]? = some ⟨body, .queued dataId⟩) :
      Step webview callbackId s
        (s.setPhase i body (if ok then .evaluated dataId else .failed))
  /-- The page's request is answered with the message. -/
  | fetch {s : ChannelRun R} {i : Nat} {body : R} {dataId : UInt32} {headers : Headers}
      {data : ChannelState R} (hsent : s.sent[i]? = some ⟨body, .evaluated dataId⟩)
      (hheaders : channelId headers = some dataId)
      (h : Ipc.fetch headers s.data = (.ok body, data)) :
      Step webview callbackId s { s.setPhase i body .fetched with data }
  /-- The answer arrives, and the callback of the channel runs. -/
  | receive {s : ChannelRun R} {i : Nat} {body : R}
      (hsent : s.sent[i]? = some ⟨body, .fetched⟩) :
      Step webview callbackId s
        { s.setPhase i body .received with
          page := (s.page.callback body i).2
          delivered := s.delivered ++ (s.page.callback body i).1 }
  /-- Other channels and requests use the queue. -/
  | other (s : ChannelRun R) (data : ChannelState R) : Step webview callbackId s { s with data }

/-- The messages that the channel of the page received. -/
def arrived (s : ChannelRun R) (i : Nat) : Option R :=
  s.sent[i]?.bind fun message => if message.phase = .received then some message.body else none

/-- All messages up to the index have been sent and are settled. -/
def Settled (s : ChannelRun R) (i : Nat) : Prop :=
  ∀ j ≤ i, ∃ message, s.sent[j]? = some message ∧ message.Settled

variable {webview : Webview} {callbackId : UInt32} {s s' : ChannelRun R}

variable {i : Nat} {body : R} {phase : MessagePhase}

theorem arrived_setPhase {phase' : MessagePhase} (h : s.sent[i]? = some ⟨body, phase⟩) :
    (s.setPhase i body phase').arrived =
      Function.update s.arrived i (if phase' = .received then some body else none) := by
  funext j
  rw [arrived, setPhase, getElem?_set]
  by_cases hj : i = j
  · grind
  · rw [if_neg hj, update_of_ne fun heq => hj heq.symm]
    rfl

theorem arrived_eq_none (h : s.sent[i]? = some ⟨body, phase⟩) (hphase : phase ≠ .received) :
    s.arrived i = none := by
  simp [arrived, h, hphase]

theorem buffered_setPhase {phase' : MessagePhase} (hs : Buffered s.arrived s.delivered s.page)
    (h : s.sent[i]? = some ⟨body, phase⟩) (hphase : phase ≠ .received)
    (hphase' : phase' ≠ .received) :
    Buffered (s.setPhase i body phase').arrived s.delivered s.page := by
  rw [arrived_setPhase h, if_neg hphase', ← arrived_eq_none h hphase, update_eq_self]
  exact hs

theorem Step.buffered (h : Step webview callbackId s s')
    (hs : Buffered s.arrived s.delivered s.page) :
    Buffered s'.arrived s'.delivered s'.page := by
  cases h with
  | send body =>
    have harr : ({ s with sent := s.sent ++ [⟨body, .started⟩] } : ChannelRun R).arrived =
        s.arrived := by
      funext i
      rw [arrived, arrived, getElem?_append]
      split_ifs with hi
      · rfl
      · grind
    rw [harr]
    exact hs
  | consume _ hsent _ | queue _ hsent _ | fetch hsent _ _ =>
    exact buffered_setPhase hs hsent (by simp) (by simp)
  | eval ok hsent => exact buffered_setPhase hs hsent (by simp) (by cases ok <;> simp)
  | @receive i body hsent =>
    have hrec := hs.callback (arrived_eq_none hsent (by simp)) body
    have harr : (s.setPhase i body .received).arrived =
        update s.arrived i (some body) := arrived_setPhase hsent
    rw [← harr] at hrec
    exact hrec
  | other => exact hs

theorem buffered_of_run {data : ChannelState R}
    (h : Relation.ReflTransGen (Step webview callbackId) (start data) s) :
    Buffered s.arrived s.delivered s.page := by
  induction h with
  | refl => exact .new
  | tail _ hstep ih => exact hstep.buffered ih

theorem arrived_of_accepted {message : SentMessage R} (hsent : s.sent[i]? = some message)
    (hacc : message.Accepted) (hset : s.Settled i) : s.arrived i = some message.body := by
  obtain ⟨message', hsent', hset'⟩ := hset i le_rfl
  cases hsent.symm.trans hsent'
  have hrec : message.phase = .received := by
    rcases hset' with (hcons | hfailed) | hrec
    · simp [SentMessage.Accepted, hcons] at hacc
    · simp [SentMessage.Accepted, hfailed] at hacc
    · exact hrec
  simp [arrived, hsent, hrec]

theorem arrived_eq_none_iff (hset : s.Settled i) : s.arrived i = none ↔
    ∃ message, s.sent[i]? = some message ∧ message.Skipped := by
  obtain ⟨message, hsent, hmsg⟩ := hset i le_rfl
  constructor
  · intro hnone
    refine ⟨message, hsent, hmsg.resolve_right fun hrec => ?_⟩
    simp [arrived, hsent, hrec] at hnone
  · rintro ⟨message', hsent', hskipped⟩
    cases hsent.symm.trans hsent'
    refine arrived_eq_none hsent fun hrec => ?_
    rcases hskipped with hcons | hfailed
    · simp [hrec] at hcons
    · simp [hrec] at hfailed

end ChannelRun

/-- **Delivery.** In every state of a run, each accepted message, once it and those before it are
settled, has been passed to `onmessage` in its place, exactly if none of those before it was
consumed by the interceptor or failed in `eval`. -/
theorem accepted_delivered_iff {R : Type} {webview : Webview} {callbackId : UInt32}
    {data : ChannelState R} {s : ChannelRun R}
    (h : Relation.ReflTransGen (ChannelRun.Step webview callbackId) (.start data) s) :
    (∀ i message, s.sent[i]? = some message → message.Accepted → s.Settled i →
      s.delivered[i]? = some message.body) ↔
    ∀ i message, s.sent[i]? = some message → message.Accepted → s.Settled i →
      ∀ j < i, ∀ message', s.sent[j]? = some message' → ¬ message'.Skipped := by
  have hbuf := ChannelRun.buffered_of_run h
  refine forall₂_congr fun i message => forall_congr' fun hsent => forall_congr' fun hacc =>
    forall_congr' fun hset => ?_
  have harr := ChannelRun.arrived_of_accepted hsent hacc hset
  have hset' : ∀ j ≤ i, s.Settled j := fun j hj k hk => hset k (hk.trans hj)
  rw [hbuf.getElem?_messages, harr]
  have hdelivered : (if i < s.page.nextMessageId then some message.body else none) =
      some message.body ↔ i < s.page.nextMessageId := by simp
  rw [hdelivered, hbuf.lt_next_iff]
  constructor
  · intro hall j hj message' hsent' hskipped
    exact hall j hj.le ((ChannelRun.arrived_eq_none_iff (hset' j hj.le)).mpr
      ⟨message', hsent', hskipped⟩)
  · intro hnone j hj harr'
    obtain ⟨message', hsent', hskipped⟩ := (ChannelRun.arrived_eq_none_iff (hset' j hj)).mp harr'
    rcases hj.lt_or_eq with hlt | rfl
    · exact hnone j hlt message' hsent' hskipped
    · rw [harr] at harr'
      cases harr'

namespace Sample

/-- The steps of a channel of the webview `main`. -/
abbrev Step : ChannelRun String → ChannelRun String → Prop := ChannelRun.Step ⟨"main", "main"⟩ 7

theorem channelId_fetchRequest : channelId fetchRequest.headers = some 0 := by decide

theorem exists_run_message : ∃ s, Relation.ReflTransGen Step (.start noData) s ∧
    s.sent = [⟨"a", .received⟩] := by
  have hsend : Relation.ReflTransGen Step (.start noData) _ := .single (.send _ "a")
  have hqueue := hsend.tail (.queue (i := 0) none rfl rfl)
  have heval := hqueue.tail (.eval (i := 0) true rfl)
  have hfetch := heval.tail (.fetch (i := 0) rfl channelId_fetchRequest rfl)
  have hrec := hfetch.tail (.receive (i := 0) rfl)
  exact ⟨_, hrec, rfl⟩

end Sample

/-- A message that is sent and fetched is delivered. -/
theorem sample_accepted_delivered : ∃ s : ChannelRun String,
    Relation.ReflTransGen Sample.Step (.start Sample.noData) s ∧ s.delivered[0]? = some "a" := by
  obtain ⟨s, hrun, hsent⟩ := Sample.exists_run_message
  refine ⟨s, hrun, (accepted_delivered_iff hrun).mpr ?_ 0 ⟨"a", .received⟩ ?_ trivial ?_⟩
  · grind
  · rw [hsent]
    rfl
  · intro j hj
    obtain rfl : j = 0 := by omega
    exact ⟨⟨"a", .received⟩, by rw [hsent]; rfl, .inr rfl⟩

/-- The interceptor consumes the first message; the second is sent and fetched, and stays with the
channel of the page. -/
theorem sample_accepted_stuck : ∃ s : ChannelRun String,
    Relation.ReflTransGen Sample.Step (.start Sample.noData) s ∧
      s.sent = [⟨"a", .consumed⟩, ⟨"b", .received⟩] ∧ s.Settled 1 ∧ s.delivered = [] := by
  have hsend : Relation.ReflTransGen Sample.Step (.start Sample.noData) _ := .single (.send _ "a")
  have hconsume := hsend.tail (.consume (i := 0) (some fun _ _ i _ => i == 0) rfl rfl)
  have hsend' := hconsume.tail (.send _ "b")
  have hqueue := hsend'.tail (.queue (i := 1) (some fun _ _ i _ => i == 0) rfl rfl)
  have heval := hqueue.tail (.eval (i := 1) true rfl)
  have hfetch := heval.tail (.fetch (i := 1) rfl Sample.channelId_fetchRequest rfl)
  have hrec := hfetch.tail (.receive (i := 1) rfl)
  refine ⟨_, hrec, rfl, fun j hj => ?_, rfl⟩
  interval_cases j
  · exact ⟨⟨"a", .consumed⟩, rfl, .inl (.inl rfl)⟩
  · exact ⟨⟨"b", .received⟩, rfl, .inr rfl⟩

end Tauri.Ipc
