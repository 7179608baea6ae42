import Tauri.Ipc.Isolation

/-!
# The bookkeeping of `invoke` in a page

`core.js` gives a page `invoke`, which registers two callbacks on `window`, one to resolve and one
to reject the promise that it returns, and hands a message with their ids to
`__TAURI_INTERNALS__.ipc`. Before `ipc` is installed it queues the message, and the first message
that is queued starts a timer, which `waitForIpc` renews until `ipc` is there. Then it hands over
the queue, which is never cleared.

The page is a state that **events** change, in any order: calls of `invoke` and of
`transformCallback`, the installation of `ipc`, the timer, the turns of the loop over the queue
and the replies. A turn of the loop is an event of its own, so that whatever `ipc` does while it
is called, further calls and replies included, is covered.

`Queue` says how far the queue has been handed over, and `exists_queue` that it always can be
said: there is a timer as long as the queue waits, and never a second one. From there every
message is handed over at most once (`Queue.handedFor_le`), and exactly once when the timer has
fired and the loop is over (`handedFor_eq_of_flushed`).
-/

namespace Tauri.Invoke

open Ipc List

/-- The functions that are given to `transformCallback`. The promise of a call goes by the id of
its first callback. -/
inductive Callback where
  | resolve (promise error : UInt32)
  | reject (promise callback : UInt32)
  | other
  deriving DecidableEq

/-- A property of `window` that `transformCallback` defines. -/
structure Property where
  callback : Callback
  once : Bool
  deriving DecidableEq

/-- The page, with what `ipc` was handed and how promises were settled. -/
structure Page (J : Type) where
  window : UInt32 → Option Property := fun _ => none
  /-- Whether `'ipc' in window.__TAURI_INTERNALS__`. -/
  ipc : Bool := false
  ipcQueue : List (IsolationData J) := []
  isWaitingForIpc : Bool := false
  /-- How many timers are set for `waitForIpc`. -/
  timers : ℕ := 0
  /-- The next index of the loop over `ipcQueue`, while it runs. -/
  loop : Option ℕ := none
  handed : List (IsolationData J) := []
  settled : List (UInt32 × Except J J) := []

variable {J : Type}

namespace Page

def delete (page : Page J) (id : UInt32) : Page J :=
  { page with window := Function.update page.window id none }

/-- `transformCallback`, where `uid` has returned `id`. -/
def transformCallback (page : Page J) (id : UInt32) (callback : Callback) (once : Bool) : Page J :=
  { page with window := Function.update page.window id (some ⟨callback, once⟩) }

/-- `resolve` or `reject` is called. -/
def settle (page : Page J) (promise : UInt32) (result : Except J J) : Page J :=
  { page with settled := page.settled ++ [(promise, result)] }

/-- `window[_id](result)`, where there is such a property. -/
def reply (page : Page J) (id : UInt32) (result : J) : Page J :=
  match page.window id with
  | none => page
  | some property =>
    let page := if property.once then page.delete id else page
    match property.callback with
    | .resolve promise error => (page.settle promise (.ok result)).delete error
    | .reject promise callback => (page.settle promise (.error result)).delete callback
    | .other => page

/-- The action of a call: `ipc` gets the message. -/
def action (page : Page J) (message : IsolationData J) : Page J :=
  { page with handed := page.handed ++ [message] }

/-- `waitForIpc`, up to the first turn of its loop. -/
def waitForIpc (page : Page J) : Page J :=
  if page.ipc then { page with loop := some 0 } else { page with timers := page.timers + 1 }

/-- A turn of the loop. The iterator looks at the array as it is. -/
def handOver (page : Page J) : Page J :=
  match page.loop with
  | none => page
  | some i =>
    match page.ipcQueue[i]? with
    | some message => { page.action message with loop := some (i + 1) }
    | none => { page with loop := none }

/-- The timer fires. It cannot while a script is running. -/
def tick (page : Page J) : Page J :=
  if 0 < page.timers ∧ page.loop = none then waitForIpc { page with timers := page.timers - 1 }
  else page

/-- `invoke`, where `uid` has returned the two ids of the message. -/
def invoke (page : Page J) (message : IsolationData J) : Page J :=
  let page := page.transformCallback message.callback
    (.resolve message.callback message.error) true
  let page := page.transformCallback message.error
    (.reject message.callback message.callback) true
  if page.ipc then page.action message
  else
    let page := { page with ipcQueue := page.ipcQueue ++ [message] }
    if page.isWaitingForIpc then page else { page.waitForIpc with isWaitingForIpc := true }

end Page

/-- What can happen in a page. -/
inductive Event (J : Type) where
  | invoke (message : IsolationData J)
  | transformCallback (id : UInt32) (once : Bool)
  | installIpc
  | tick
  | handOver
  | reply (id : UInt32) (result : J)

namespace Event

/-- The ids that `uid` returns. -/
def ids : Event J → List UInt32
  | .invoke message => [message.callback, message.error]
  | .transformCallback id _ => [id]
  | _ => []

def message? : Event J → Option (IsolationData J)
  | .invoke message => some message
  | _ => none

def isInstall : Event J → Bool
  | .installIpc => true
  | _ => false

def isHandOver : Event J → Bool
  | .handOver => true
  | _ => false

/-- How a promise is settled by a reply to one of its two callbacks. -/
def answer (message : IsolationData J) : Event J → Option (Except J J)
  | .reply id result =>
    if id = message.callback then some (.ok result)
    else if id = message.error then some (.error result)
    else none
  | _ => none

end Event

def step (page : Page J) : Event J → Page J
  | .invoke message => page.invoke message
  | .transformCallback id once => page.transformCallback id .other once
  | .installIpc => { page with ipc := true }
  | .tick => page.tick
  | .handOver => page.handOver
  | .reply id result => page.reply id result

def run (es : List (Event J)) : Page J := es.foldl step {}

def ids (es : List (Event J)) : List UInt32 := es.flatMap Event.ids

/-- The messages of the calls, in the order of the calls. -/
def calls (es : List (Event J)) : List (IsolationData J) := es.filterMap Event.message?

def beforeIpc (es : List (Event J)) : List (Event J) := es.takeWhile fun e => !e.isInstall

def afterIpc (es : List (Event J)) : List (Event J) := es.dropWhile fun e => !e.isInstall

/-- The messages with the ids of a message among those that were handed over. -/
def handedFor (page : Page J) (message : IsolationData J) : List (IsolationData J) :=
  page.handed.filter (·.callback == message.callback)

/-- The first reply to one of the callbacks of a call. -/
def firstAnswer (message : IsolationData J) (es : List (Event J)) : Option (Except J J) :=
  es.findSome? (Event.answer message)

theorem run_append (es es' : List (Event J)) : run (es ++ es') = es'.foldl step (run es) :=
  foldl_append

theorem run_concat (es : List (Event J)) (e : Event J) : run (es ++ [e]) = step (run es) e :=
  run_append es [e]

/-! ### Ids and calls -/

variable {es : List (Event J)} {e : Event J} {page : Page J} {message : IsolationData J}

theorem calls_append (es es' : List (Event J)) : calls (es ++ es') = calls es ++ calls es' :=
  filterMap_append

theorem ids_append (es es' : List (Event J)) : ids (es ++ es') = ids es ++ ids es' := flatMap_append

theorem mem_calls : message ∈ calls es ↔ .invoke message ∈ es := by
  rw [calls, mem_filterMap]
  constructor
  · rintro ⟨e, he, hmsg⟩
    cases e with
    | invoke m =>
      cases hmsg
      exact he
    | _ => cases hmsg
  · exact fun h => ⟨_, h, rfl⟩

theorem callbacks_sublist (es : List (Event J)) :
    List.Sublist ((calls es).map (·.callback)) (ids es) := by
  induction es with
  | nil => exact .slnil
  | cons e es ih =>
    cases e with
    | invoke m => exact (ih.cons m.error).cons_cons m.callback
    | transformCallback id => exact ih.cons id
    | _ => exact ih

theorem calls_before_after (es : List (Event J)) :
    calls es = calls (beforeIpc es) ++ calls (afterIpc es) := by
  rw [← calls_append, beforeIpc, afterIpc, takeWhile_append_dropWhile]

theorem any_isInstall_eq_false (h : .installIpc ∉ es) : es.any Event.isInstall = false := by
  rw [any_eq_false]
  rintro e he hinstall
  cases e with
  | installIpc => exact h he
  | _ => cases hinstall

theorem before_after_of_no_ipc (h : es.any Event.isInstall = false) :
    beforeIpc es = es ∧ afterIpc es = [] := by
  have hall : ∀ e ∈ es, (!e.isInstall) = true := by simpa [any_eq_false] using h
  exact ⟨takeWhile_eq_self_iff.mpr hall, dropWhile_eq_nil_iff.mpr hall⟩

theorem before_after_concat_of_ipc (h : es.any Event.isInstall = true) (e : Event J) :
    beforeIpc (es ++ [e]) = beforeIpc es ∧ afterIpc (es ++ [e]) = afterIpc es ++ [e] := by
  obtain ⟨i, hi, hinstall⟩ := any_eq_true.mp h
  have hdrop : es.dropWhile (fun e => !e.isInstall) ≠ [] := by
    intro hnil
    simpa [hinstall] using dropWhile_eq_nil_iff.mp hnil i hi
  have htake : (es.takeWhile fun e => !e.isInstall).length ≠ es.length := by
    intro hlen
    have happ := congrArg length
      (takeWhile_append_dropWhile (p := fun e : Event J => !e.isInstall) (l := es))
    rw [length_append, hlen] at happ
    exact hdrop (length_eq_zero_iff.mp (by omega))
  constructor
  · rw [beforeIpc, takeWhile_append, if_neg htake, beforeIpc]
  · rw [afterIpc, dropWhile_append, if_neg (by simpa using hdrop), afterIpc]

theorem before_after_concat_of_no_ipc (h : es.any Event.isInstall = false) (e : Event J) :
    beforeIpc (es ++ [e]) = es ++ beforeIpc [e] ∧ afterIpc (es ++ [e]) = afterIpc [e] := by
  obtain ⟨hbef, haft⟩ := before_after_of_no_ipc h
  constructor
  · rw [beforeIpc, takeWhile_append, if_pos (by rw [← beforeIpc, hbef]), beforeIpc]
  · rw [afterIpc, dropWhile_append, if_pos (by rw [← afterIpc, haft]; rfl), afterIpc]

open Event

theorem calls_concat_of_quiet (es : List (Event J)) (h : e.message? = none) :
    calls (beforeIpc (es ++ [e])) = calls (beforeIpc es) ∧
      calls (afterIpc (es ++ [e])) = calls (afterIpc es) := by
  have hsing : calls [e] = [] := filterMap_cons_none h
  cases hipc : es.any isInstall with
  | true =>
    obtain ⟨hbef, haft⟩ := before_after_concat_of_ipc hipc e
    exact ⟨by rw [hbef], by rw [haft, calls_append, hsing, append_nil]⟩
  | false =>
    obtain ⟨hbef, haft⟩ := before_after_concat_of_no_ipc hipc e
    obtain ⟨hbef', hafter'⟩ := before_after_of_no_ipc hipc
    obtain ⟨hnil, hnil'⟩ := append_eq_nil_iff.mp ((calls_before_after [e]).symm.trans hsing)
    rw [hbef, haft, hbef', hafter', calls_append, hnil, hnil', append_nil]
    exact ⟨rfl, rfl⟩

/-! ### The queue -/

/-- The message was queued, by its id. -/
def queued (page : Page J) (message : IsolationData J) : Bool :=
  page.ipcQueue.any (·.callback == message.callback)

/-- How far the queue has been handed over: it waits for the timer, the loop is running, or it is
over. -/
inductive Phase (page : Page J) : ℕ → Prop where
  | waiting (hloop : page.loop = none)
      (htimers : page.timers = if page.ipcQueue.isEmpty then 0 else 1) : Phase page 0
  | running {d : ℕ} (hipc : page.ipc = true) (htimers : page.timers = 0)
      (hloop : page.loop = some d) (hle : d ≤ page.ipcQueue.length) : Phase page d
  | finished (hipc : page.ipc = true) (htimers : page.timers = 0) (hloop : page.loop = none) :
      Phase page page.ipcQueue.length

variable {d : ℕ} {page' : Page J}

theorem Phase.congr (h : Phase page d) (hipc : page.ipc = true → page'.ipc = true)
    (hqueue : page'.ipcQueue = page.ipcQueue) (htimers : page'.timers = page.timers)
    (hloop : page'.loop = page.loop) : Phase page' d := by
  cases h with
  | waiting hloop' htimers' =>
    exact .waiting (hloop.trans hloop') (by rw [htimers, htimers', hqueue])
  | running hipc' htimers' hloop' hle =>
    exact .running (hipc hipc') (htimers.trans htimers') (hloop.trans hloop') (hqueue ▸ hle)
  | finished hipc' htimers' hloop' =>
    exact hqueue ▸ .finished (hipc hipc') (htimers.trans htimers') (hloop.trans hloop')

/-- What holds of the queue after some events, when `d` of its messages have been handed over. -/
structure Queue (es : List (Event J)) (page : Page J) (d : ℕ) : Prop where
  ipc : page.ipc = es.any Event.isInstall
  queue : page.ipcQueue = calls (beforeIpc es)
  isWaiting : page.isWaitingForIpc = !page.ipcQueue.isEmpty
  handed : page.handed.filter (queued page) = page.ipcQueue.take d
  direct : page.handed.filter (fun m => !queued page m) = calls (afterIpc es)
  phase : Phase page d

theorem queued_congr (h : page'.ipcQueue = page.ipcQueue) : queued page' = queued page := by
  funext m
  rw [queued, h, queued]

/-- The window after the two callbacks of a call were registered. -/
def registered (page : Page J) (message : IsolationData J) : UInt32 → Option Property :=
  Function.update
    (Function.update page.window message.callback
      (some ⟨.resolve message.callback message.error, true⟩))
    message.error (some ⟨.reject message.callback message.callback, true⟩)

theorem invoke_of_ipc (h : page.ipc = true) (message : IsolationData J) : page.invoke message =
    { page with window := registered page message, handed := page.handed ++ [message] } := by
  simp only [Page.invoke, Page.transformCallback, h, if_true]
  rfl

theorem invoke_of_no_ipc (h : page.ipc = false) (message : IsolationData J) :
    page.invoke message =
      { page with
        window := registered page message, ipcQueue := page.ipcQueue ++ [message],
        isWaitingForIpc := true,
        timers := if page.isWaitingForIpc then page.timers else page.timers + 1 } := by
  cases hwait : page.isWaitingForIpc with
  | true => simp [Page.invoke, Page.transformCallback, h, hwait, registered]
  | false => simp [Page.invoke, Page.transformCallback, Page.waitForIpc, h, hwait, registered]

theorem callback_not_mem_of_nodup (h : (ids (es ++ [.invoke message])).Nodup) {m : IsolationData J}
    (hm : m ∈ calls es) : m.callback ≠ message.callback := by
  have hsub := (callbacks_sublist (es ++ [.invoke message])).nodup h
  rw [calls_append, map_append] at hsub
  exact (nodup_append.mp hsub).2.2 _ (mem_map_of_mem hm) _ (mem_singleton_self _)

theorem reply_frame (page : Page J) (id : UInt32) (result : J) : ∃ window settled,
    page.reply id result = { page with window := window, settled := settled } := by
  rw [Page.reply]
  cases page.window id with
  | none => exact ⟨_, _, rfl⟩
  | some property =>
    obtain ⟨callback, once⟩ := property
    cases callback <;> cases once <;> exact ⟨_, _, rfl⟩

section

variable (h : Queue es page d)
include h

theorem Queue.quiet (hmsg : e.message? = none) (hipc : page'.ipc = (page.ipc || e.isInstall))
    (hqueue : page'.ipcQueue = page.ipcQueue)
    (hwait : page'.isWaitingForIpc = page.isWaitingForIpc) (hhanded : page'.handed = page.handed)
    (hphase : Phase page' d) : Queue (es ++ [e]) page' d := by
  obtain ⟨hbef, haft⟩ := calls_concat_of_quiet es hmsg
  refine ⟨?_, ?_, ?_, ?_, ?_, hphase⟩
  · rw [hipc, h.ipc, any_append, any_cons, any_nil, Bool.or_false]
  · rw [hqueue, h.queue, hbef]
  · rw [hwait, h.isWaiting, hqueue]
  · rw [hhanded, queued_congr hqueue, h.handed, hqueue]
  · rw [hhanded, queued_congr hqueue, h.direct, haft]

theorem Queue.mem_handed {m : IsolationData J} :
    m ∈ page.handed ↔ m ∈ page.ipcQueue.take d ∨ m ∈ calls (afterIpc es) := by
  rw [← h.handed, ← h.direct, mem_filter, mem_filter, ← and_or_left]
  cases queued page m <;> simp

theorem Queue.waiting_of_no_ipc (hipc : es.any Event.isInstall = false) :
    d = 0 ∧ page.loop = none ∧
      page.timers = (if page.ipcQueue.isEmpty then 0 else 1) ∧ page.handed = [] := by
  have hpage : page.ipc = false := h.ipc.trans hipc
  have haft : afterIpc es = [] := (before_after_of_no_ipc hipc).2
  cases h.phase with
  | running hrunning => exact absurd (hrunning.symm.trans hpage) (by decide)
  | finished hfinished => exact absurd (hfinished.symm.trans hpage) (by decide)
  | waiting hloop htimers =>
    refine ⟨rfl, hloop, htimers, eq_nil_iff_forall_not_mem.mpr fun m hm => ?_⟩
    simpa [haft, calls] using h.mem_handed.mp hm

theorem Queue.tick : Queue (es ++ [.tick]) page.tick d := by
  rw [Page.tick]
  split
  · rename_i hfires
    have hphase := h.phase
    cases hphase with
    | running _ htimers | finished _ htimers => exact absurd hfires.1 (by rw [htimers]; decide)
    | waiting hloop htimers =>
      have hemp : page.ipcQueue.isEmpty = false := by grind
      rw [hemp, if_neg Bool.false_ne_true] at htimers
      rw [Page.waitForIpc]
      split
      · rename_i hipc
        exact h.quiet rfl (by simp [isInstall]) rfl rfl rfl
          (.running hipc (by simp [htimers]) rfl (Nat.zero_le _))
      · exact h.quiet rfl (by simp [isInstall]) rfl rfl rfl
          (.waiting hloop (by simp [htimers, hemp]))
  · exact h.quiet rfl (by simp [isInstall]) rfl rfl rfl h.phase

theorem Queue.installIpc : Queue (es ++ [.installIpc]) { page with ipc := true } d :=
  h.quiet rfl (by simp [isInstall]) rfl rfl rfl (h.phase.congr (fun _ => rfl) rfl rfl rfl)

theorem Queue.handOver : ∃ d', Queue (es ++ [.handOver]) page.handOver d' := by
  have hsame : page.loop = none → ∃ d', Queue (es ++ [.handOver]) page.handOver d' := by
    intro hloop
    have hpage : page.handOver = page := by rw [Page.handOver, hloop]
    rw [hpage]
    exact ⟨d, h.quiet rfl (by simp [isInstall]) rfl rfl rfl h.phase⟩
  cases h.phase with
  | waiting hloop | finished _ _ hloop => exact hsame hloop
  | running hipc htimers hloop hle =>
    cases hnext : page.ipcQueue[d]? with
    | none =>
      have hd : d = page.ipcQueue.length := Nat.le_antisymm hle (getElem?_eq_none_iff.mp hnext)
      have hpage : page.handOver = { page with loop := none } := by
        simp only [Page.handOver, hloop, hnext]
      rw [hpage]
      subst hd
      exact ⟨_, h.quiet rfl (by simp [isInstall]) rfl rfl rfl (.finished hipc htimers rfl)⟩
    | some m =>
      have hpage : page.handOver = { page.action m with loop := some (d + 1) } := by
        simp only [Page.handOver, hloop, hnext]
      rw [hpage]
      have hm : m ∈ page.ipcQueue := mem_of_getElem? hnext
      have hq : queued page m = true := any_eq_true.mpr ⟨m, hm, beq_self_eq_true _⟩
      have hlt : d < page.ipcQueue.length := (List.getElem?_eq_some_iff.mp hnext).1
      obtain ⟨hbef, haft⟩ := calls_concat_of_quiet (e := .handOver) es rfl
      refine ⟨d + 1, ?_, ?_, h.isWaiting, ?_, ?_, .running hipc htimers rfl hlt⟩
      · rw [any_append]
        simpa [isInstall, Page.action] using h.ipc
      · rw [hbef]
        exact h.queue
      · change (page.handed ++ [m]).filter (queued page) = page.ipcQueue.take (d + 1)
        rw [filter_append, h.handed, filter_cons_of_pos hq, filter_nil,
          take_add_one, hnext, Option.toList_some]
      · change (page.handed ++ [m]).filter (fun m => !queued page m) = _
        rw [filter_append, h.direct, haft, filter_cons_of_neg (by simp [hq]),
          filter_nil, append_nil]

/-- With `ipc` there, the message is handed over at once. It is none of those in the queue. -/
theorem Queue.invoke_direct (hipc : es.any Event.isInstall = true)
    (hids : (ids (es ++ [.invoke message])).Nodup) :
    Queue (es ++ [.invoke message]) (page.invoke message) d := by
  obtain ⟨hbef, haft⟩ := before_after_concat_of_ipc hipc (.invoke message)
  have hq : queued page message = false := by
    rw [queued, any_eq_false]
    intro m hm
    have hcalls : m ∈ calls es := by
      rw [calls_before_after, ← h.queue]
      exact mem_append_left _ hm
    simpa using callback_not_mem_of_nodup hids hcalls
  rw [invoke_of_ipc (h.ipc.trans hipc)]
  refine ⟨?_, ?_, h.isWaiting, ?_, ?_, h.phase.congr id rfl rfl rfl⟩
  · rw [any_append, hipc, Bool.true_or]
    exact h.ipc.trans hipc
  · rw [hbef]
    exact h.queue
  · change (page.handed ++ [message]).filter (queued page) = page.ipcQueue.take d
    rw [filter_append, h.handed, filter_cons_of_neg (by simp [hq]), filter_nil, append_nil]
  · change (page.handed ++ [message]).filter (fun m => !queued page m) = _
    rw [filter_append, h.direct, filter_cons_of_pos (by simp [hq]), filter_nil, haft, calls_append]
    rfl

theorem Queue.invoke_queued (hipc : es.any Event.isInstall = false) (message : IsolationData J) :
    Queue (es ++ [.invoke message]) (page.invoke message) d := by
  obtain ⟨hbef, haft⟩ := before_after_concat_of_no_ipc hipc (.invoke message)
  obtain ⟨rfl, hloop, htimers, hhanded⟩ := h.waiting_of_no_ipc hipc
  rw [invoke_of_no_ipc (h.ipc.trans hipc)]
  refine ⟨?_, ?_, ?_, ?_, ?_, .waiting hloop ?_⟩
  · rw [any_append, hipc]
    exact h.ipc.trans hipc
  · change page.ipcQueue ++ [message] = _
    rw [hbef, calls_append, h.queue, (before_after_of_no_ipc hipc).1]
    rfl
  · simp
  · simp [hhanded]
  · rw [haft]
    simp [hhanded, calls, afterIpc, isInstall]
  · rw [htimers, h.isWaiting]
    cases page.ipcQueue.isEmpty <;> simp

theorem Queue.invoke (hids : (ids (es ++ [.invoke message])).Nodup) :
    Queue (es ++ [.invoke message]) (page.invoke message) d := by
  cases hipc : es.any isInstall with
  | true => exact h.invoke_direct hipc hids
  | false => exact h.invoke_queued hipc message

theorem Queue.step (hids : (ids (es ++ [e])).Nodup) : ∃ d', Queue (es ++ [e]) (step page e) d' := by
  cases e with
  | invoke => exact ⟨d, h.invoke hids⟩
  | installIpc => exact ⟨d, h.installIpc⟩
  | tick => exact ⟨d, h.tick⟩
  | handOver => exact h.handOver
  | transformCallback =>
    exact ⟨d, h.quiet rfl (Bool.or_false _).symm rfl rfl rfl
      (h.phase.congr (fun hipc => hipc) rfl rfl rfl)⟩
  | reply id result =>
    obtain ⟨window, settled, hpage⟩ := reply_frame page id result
    rw [Invoke.step, hpage]
    exact ⟨d, h.quiet rfl (Bool.or_false _).symm rfl rfl rfl
      (h.phase.congr (fun hipc => hipc) rfl rfl rfl)⟩

end

theorem nodup_ids_of_append {es' : List (Event J)} (h : (ids (es ++ es')).Nodup) :
    (ids es).Nodup := by
  rw [ids_append] at h
  exact (nodup_append.mp h).1

theorem exists_queue (es : List (Event J)) (hids : (ids es).Nodup) : ∃ d, Queue es (run es) d := by
  induction es using reverseRecOn with
  | nil => exact ⟨0, rfl, rfl, rfl, rfl, rfl, .waiting rfl rfl⟩
  | append_singleton es e ih =>
    obtain ⟨d, h⟩ := ih (nodup_ids_of_append hids)
    rw [run_concat]
    exact h.step hids

/-! ### Exactly once -/

theorem filter_callback_eq {l : List (IsolationData J)} (h : (l.map (·.callback)).Nodup)
    (hm : message ∈ l) : l.filter (·.callback == message.callback) = [message] := by
  induction l with
  | nil => cases hm
  | cons =>
    rw [map_cons, nodup_cons] at h
    rcases mem_cons.mp hm with rfl | hm
    · simp_all
    · grind

theorem nodup_callbacks (hids : (ids es).Nodup) :
    ((calls (beforeIpc es)).map (·.callback) ++ (calls (afterIpc es)).map (·.callback)).Nodup := by
  rw [← map_append, ← calls_before_after]
  exact (callbacks_sublist es).nodup hids

theorem Queue.handedFor_of_queued (h : Queue es page d) (hm : message ∈ page.ipcQueue) :
    handedFor page message = (page.ipcQueue.take d).filter (·.callback == message.callback) := by
  rw [← h.handed, filter_filter, handedFor]
  refine filter_congr fun m _ => ?_
  cases heq : m.callback == message.callback with
  | false => rfl
  | true =>
    have hq : queued page m = true :=
      any_eq_true.mpr ⟨message, hm, by rw [beq_iff_eq.mp heq]; exact beq_self_eq_true _⟩
    rw [hq]
    rfl

theorem Queue.handedFor_of_direct (h : Queue es page d) (hids : (ids es).Nodup)
    (hm : message ∈ calls (afterIpc es)) : handedFor page message = [message] := by
  have hnd := nodup_callbacks hids
  rw [← filter_callback_eq (nodup_append.mp hnd).2.1 hm, ← h.direct, filter_filter, handedFor]
  refine filter_congr fun m _ => ?_
  cases heq : m.callback == message.callback with
  | false => rfl
  | true =>
    have hq : queued page m = false := by
      rw [queued, any_eq_false]
      intro n hn heq'
      rw [h.queue] at hn
      refine (nodup_append.mp hnd).2.2 _ (mem_map_of_mem hn) _
        (mem_map_of_mem hm) ?_
      rw [beq_iff_eq.mp heq', beq_iff_eq.mp heq]
    rw [hq]
    rfl

theorem Queue.handedFor_le (h : Queue es page d) (hids : (ids es).Nodup) (hm : message ∈ calls es) :
    handedFor page message = [] ∨ handedFor page message = [message] := by
  rw [calls_before_after, mem_append] at hm
  rcases hm with hm | hm
  · have hone := filter_callback_eq (nodup_append.mp (nodup_callbacks hids)).1 hm
    rw [← h.queue] at hm hone
    have hsub := (take_sublist d page.ipcQueue).filter (·.callback == message.callback)
    rw [hone] at hsub
    rw [h.handedFor_of_queued hm]
    exact sublist_singleton.mp hsub
  · exact .inr (h.handedFor_of_direct hids hm)

theorem Queue.handedFor_eq (h : Queue es page page.ipcQueue.length) (hids : (ids es).Nodup)
    (hm : message ∈ calls es) : handedFor page message = [message] := by
  rw [calls_before_after, mem_append] at hm
  rcases hm with hm | hm
  · have hone := filter_callback_eq (nodup_append.mp (nodup_callbacks hids)).1 hm
    rw [← h.queue] at hm hone
    rw [h.handedFor_of_queued hm, take_length, hone]
  · exact h.handedFor_of_direct hids hm

/-- There is no timer any more, and at most `k` turns of the loop are left. -/
structure Ending (page : Page J) (k : ℕ) : Prop where
  ipc : page.ipc = true
  timers : page.timers = 0
  turns : ∀ i, page.loop = some i → page.ipcQueue.length < i + k

theorem Ending.step {k : ℕ} (h : Ending page k) (e : Event J) :
    Ending (step page e) (k - [e].countP Event.isHandOver) := by
  cases e with
  | installIpc => exact ⟨rfl, h.timers, h.turns⟩
  | transformCallback => exact ⟨h.ipc, h.timers, h.turns⟩
  | invoke =>
    rw [Invoke.step, invoke_of_ipc h.ipc]
    exact ⟨h.ipc, h.timers, h.turns⟩
  | reply id result =>
    obtain ⟨window, settled, hpage⟩ := reply_frame page id result
    rw [Invoke.step, hpage]
    exact ⟨h.ipc, h.timers, h.turns⟩
  | tick =>
    have hpage : page.tick = page := by rw [Page.tick, if_neg (by simp [h.timers])]
    rw [Invoke.step, hpage]
    exact h
  | handOver =>
    have hcnt : [(.handOver : Event J)].countP isHandOver = 1 := rfl
    rw [Invoke.step, hcnt]
    cases hloop : page.loop with
    | none =>
      have hpage : page.handOver = page := by rw [Page.handOver, hloop]
      rw [hpage]
      exact ⟨h.ipc, h.timers, fun i hi => absurd (hloop.symm.trans hi) (by simp)⟩
    | some i =>
      have hturns := h.turns i hloop
      cases hnext : page.ipcQueue[i]? with
      | none =>
        have hpage : page.handOver = { page with loop := none } := by
          simp only [Page.handOver, hloop, hnext]
        rw [hpage]
        exact ⟨h.ipc, h.timers, fun i hi => by cases hi⟩
      | some m =>
        have hpage : page.handOver = { page.action m with loop := some (i + 1) } := by
          simp only [Page.handOver, hloop, hnext]
        have hlt : i < page.ipcQueue.length := (List.getElem?_eq_some_iff.mp hnext).1
        rw [hpage]
        refine ⟨h.ipc, h.timers, fun i' hi' => ?_⟩
        obtain rfl : i + 1 = i' := Option.some.inj hi'
        change page.ipcQueue.length < i + 1 + (k - 1)
        omega

theorem Ending.run {k : ℕ} (h : Ending page k) (es : List (Event J)) :
    Ending (es.foldl Invoke.step page) (k - es.countP Event.isHandOver) := by
  induction es generalizing page k with
  | nil => exact h
  | cons e es ih =>
    have hcnt : (e :: es).countP isHandOver = [e].countP isHandOver + es.countP isHandOver := by
      rw [← countP_append, singleton_append]
    rw [foldl_cons, hcnt, ← Nat.sub_sub]
    exact ih (h.step e)

/-- When the timer has fired with `ipc` there, the loop is running or there is nothing to do. -/
theorem Queue.ending_tick (h : Queue es page d) (hipc : page.ipc = true) :
    Ending page.tick (page.ipcQueue.length + 1) := by
  rw [Page.tick]
  cases h.phase with
  | waiting hloop =>
    by_cases hfires : 0 < page.timers
    · rw [if_pos ⟨hfires, hloop⟩, Page.waitForIpc, if_pos hipc]
      refine ⟨hipc, ?_, fun i hi => ?_⟩
      · grind
      · change page.ipcQueue.length < i + (page.ipcQueue.length + 1)
        omega
    · rw [if_neg (fun hcond => hfires hcond.1)]
      exact ⟨hipc, by omega, fun i hi => absurd (hloop.symm.trans hi) (by simp)⟩
  | running _ htimers =>
    rw [if_neg (by simp [htimers])]
    exact ⟨hipc, htimers, fun i hi => by omega⟩
  | finished _ htimers hloop =>
    rw [if_neg (by simp [htimers])]
    exact ⟨hipc, htimers, fun i hi => absurd (hloop.symm.trans hi) (by simp)⟩

theorem Queue.eq_length_of_ending (h : Queue es page d) (hend : Ending page 0) :
    d = page.ipcQueue.length := by
  cases h.phase with
  | waiting hloop htimers =>
    rw [hend.timers] at htimers
    cases hemp : page.ipcQueue.isEmpty with
    | true => rw [isEmpty_iff.mp hemp, length_nil]
    | false => simp [hemp] at htimers
  | running _ _ hloop hle =>
    have hlt := hend.turns d hloop
    omega
  | finished => rfl

theorem beforeIpc_append_installIpc (es es' : List (Event J)) :
    beforeIpc (es ++ .installIpc :: es') = beforeIpc es := by
  rw [beforeIpc, takeWhile_append]
  split
  · rename_i hlen
    rw [takeWhile_cons_of_neg (by simp [isInstall]), append_nil, beforeIpc]
    have hall : es.takeWhile (fun e => !e.isInstall) <+: es := takeWhile_prefix _
    exact (hall.eq_of_length hlen).symm
  · rfl

/-- After the installation, the timer and enough turns of the loop, every message has been handed
over exactly once. -/
theorem handedFor_eq_of_flushed {es₁ es₂ es₃ : List (Event J)}
    (hids : (ids (es₁ ++ .installIpc :: es₂ ++ .tick :: es₃)).Nodup)
    (hturns : (calls es₁).length < es₃.countP Event.isHandOver)
    (hm : message ∈ calls (es₁ ++ .installIpc :: es₂ ++ .tick :: es₃)) :
    handedFor (run (es₁ ++ .installIpc :: es₂ ++ .tick :: es₃)) message = [message] := by
  obtain ⟨d, hbef⟩ := exists_queue _ (nodup_ids_of_append hids)
  have hipc : (run (es₁ ++ .installIpc :: es₂)).ipc = true := by
    rw [hbef.ipc]
    simp [isInstall]
  have hlen : (run (es₁ ++ .installIpc :: es₂)).ipcQueue.length ≤ (calls es₁).length := by
    rw [hbef.queue, beforeIpc_append_installIpc, calls_before_after es₁, length_append]
    exact Nat.le_add_right _ _
  have hend := (hbef.ending_tick hipc).run es₃
  have hrun : es₃.foldl step (run (es₁ ++ .installIpc :: es₂)).tick =
      run (es₁ ++ .installIpc :: es₂ ++ .tick :: es₃) := by
    rw [run_append _ (.tick :: es₃)]
    rfl
  rw [hrun, Nat.sub_eq_zero_of_le (by omega)] at hend
  obtain ⟨d', haft⟩ := exists_queue _ hids
  obtain rfl := haft.eq_length_of_ending hend
  exact haft.handedFor_eq hids hm

end Tauri.Invoke
