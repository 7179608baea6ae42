import Tauri.Ipc.Invoke

/-!
# The promises of `invoke`

A reply calls a property of `window`. The callbacks of a call delete themselves and each other, so
that the first reply to one of the two settles the promise and the second finds nothing to call.

`Owned` says that a callback only touches the ids of the event that registered it. With different
ids a reply to one call therefore cannot change another (`Answered.reply_of_ne`), and the state of
a call depends on the first answer to it only (`answered_run`). `invoke_bookkeeping` puts this
together with what holds of the queue.
-/

namespace Tauri.Invoke

open Ipc List

variable {J : Type} {es : List (Event J)} {e : Event J} {page : Page J} {message : IsolationData J}

/-! ### Replies -/

/-- The property that a callback deletes besides its own. -/
def Callback.deletes : Callback → List UInt32
  | .resolve _ error => [error]
  | .reject _ callback => [callback]
  | .other => []

/-- How a callback settles its promise. -/
def Callback.outcome (result : J) : Callback → List (UInt32 × Except J J)
  | .resolve promise _ => [(promise, .ok result)]
  | .reject promise _ => [(promise, .error result)]
  | .other => []

theorem delete_window (page : Page J) (j i : UInt32) :
    (page.delete j).window i = if i = j then none else page.window i :=
  Function.update_apply page.window j none i

@[simp] theorem delete_settled (page : Page J) (j : UInt32) :
    (page.delete j).settled = page.settled := rfl

variable {id : UInt32}

open Callback

open Page

theorem reply_of_some {property : Property} (h : page.window id = some property) (result : J) :
    (page.reply id result).settled = page.settled ++ property.callback.outcome result ∧
      ∀ i, (page.reply id result).window i =
        if property.once = true ∧ i = id ∨ i ∈ property.callback.deletes then none
        else page.window i := by
  have hwindow : ∀ i, (if property.once then page.delete id else page).window i =
      if property.once = true ∧ i = id then none else page.window i := by
    intro i
    cases property.once with
    | true => simp [delete_window]
    | false => simp
  have hset : (if property.once then page.delete id else page).settled = page.settled := by
    cases property.once <;> rfl
  rw [reply, h]
  cases hcb : property.callback with
  | other =>
    refine ⟨by simp [hcb, hset, outcome], fun i => ?_⟩
    simp [hcb, hwindow, deletes]
  | resolve _ error =>
    refine ⟨by simp [hcb, settle, hset, outcome], fun i => ?_⟩
    simp only [hcb, delete_window, settle, hwindow, deletes, mem_singleton]
    by_cases hi : i = error <;> simp [hi]
  | reject _ callback =>
    refine ⟨by simp [hcb, settle, hset, outcome], fun i => ?_⟩
    simp only [hcb, delete_window, settle, hwindow, deletes, mem_singleton]
    by_cases hi : i = callback <;> simp [hi]

theorem reply_of_none (h : page.window id = none) (result : J) : page.reply id result = page := by
  rw [reply, h]

variable (page)

theorem invoke_window (message : IsolationData J) :
    (page.invoke message).window = registered page message ∧
      (page.invoke message).settled = page.settled := by
  cases hipc : page.ipc with
  | true =>
    rw [invoke_of_ipc hipc]
    exact ⟨rfl, rfl⟩
  | false =>
    rw [invoke_of_no_ipc hipc]
    exact ⟨rfl, rfl⟩

theorem registered_apply (message : IsolationData J) (i : UInt32) :
    registered page message i =
      if i = message.error then some ⟨.reject message.callback message.callback, true⟩
      else if i = message.callback then some ⟨.resolve message.callback message.error, true⟩
      else page.window i := by
  simp only [registered, Function.update_apply]

theorem tick_window : page.tick.window = page.window ∧ page.tick.settled = page.settled := by
  rw [tick, waitForIpc]
  split
  · split <;> exact ⟨rfl, rfl⟩
  · exact ⟨rfl, rfl⟩

theorem handOver_window :
    page.handOver.window = page.window ∧ page.handOver.settled = page.settled := by
  rw [handOver]
  split
  · exact ⟨rfl, rfl⟩
  · split <;> exact ⟨rfl, rfl⟩

variable {page}

/-- Callbacks stay within the ids of the event that registered them, and so do promises. -/
structure Owned (es : List (Event J)) (page : Page J) : Prop where
  window : ∀ id property, page.window id = some property → ∃ e ∈ es, id ∈ e.ids ∧
    (∀ i ∈ property.callback.deletes, i ∈ e.ids) ∧
    ∀ result, ∀ entry ∈ property.callback.outcome (J := J) result, entry.1 ∈ e.ids
  settled : ∀ entry ∈ page.settled, ∃ e ∈ es, entry.1 ∈ e.ids

section

variable (h : Owned es page)
include h

theorem Owned.mono (e : Event J) : Owned (es ++ [e]) page := by
  refine ⟨fun id property hprop => ?_, fun entry hent => ?_⟩
  · obtain ⟨e', he', howned⟩ := h.window id property hprop
    exact ⟨e', mem_append_left _ he', howned⟩
  · obtain ⟨e', he', howned⟩ := h.settled entry hent
    exact ⟨e', mem_append_left _ he', howned⟩

theorem Owned.congr {page' : Page J}
    (hpage : page'.window = page.window ∧ page'.settled = page.settled) : Owned es page' :=
  ⟨hpage.1 ▸ h.window, hpage.2 ▸ h.settled⟩

theorem Owned.transformCallback (he : e ∈ es) (id : UInt32) (callback : Callback) (once : Bool)
    (hid : id ∈ e.ids) (hdeletes : ∀ i ∈ callback.deletes, i ∈ e.ids)
    (hout : ∀ result, ∀ entry ∈ callback.outcome (J := J) result, entry.1 ∈ e.ids) :
    Owned es (page.transformCallback id callback once) := by
  refine ⟨fun i property hprop => ?_, h.settled⟩
  simp only [Page.transformCallback, Function.update_apply] at hprop
  split at hprop
  · grind
  · exact h.window i property hprop

theorem Owned.invoke (he : .invoke message ∈ es) : Owned es (page.invoke message) := by
  have hres := h.transformCallback he message.callback
    (.resolve message.callback message.error) true (by simp [Event.ids])
    (by simp [deletes, Event.ids]) (by simp [outcome, Event.ids])
  have hreject := hres.transformCallback he message.error
    (.reject message.callback message.callback) true (by simp [Event.ids])
    (by simp [deletes, Event.ids]) (by simp [outcome, Event.ids])
  exact hreject.congr (invoke_window page message)

theorem Owned.reply (id : UInt32) (result : J) : Owned es (page.reply id result) := by
  cases hid : page.window id with
  | none =>
    rw [reply_of_none hid]
    exact h
  | some property =>
    obtain ⟨hset, hwindow⟩ := reply_of_some hid result
    refine ⟨fun i property' hprop => ?_, fun entry hent => ?_⟩
    · rw [hwindow] at hprop
      split at hprop
      · cases hprop
      · exact h.window i property' hprop
    · rw [hset, mem_append] at hent
      rcases hent with hent | hent
      · exact h.settled entry hent
      · obtain ⟨e, he, -, -, hout⟩ := h.window id property hid
        exact ⟨e, he, hout result entry hent⟩

theorem Owned.step (e : Event J) : Owned (es ++ [e]) (step page e) := by
  have hmono := h.mono e
  have hmem : e ∈ es ++ [e] := by simp
  cases e with
  | installIpc => exact hmono.congr ⟨rfl, rfl⟩
  | tick => exact hmono.congr (tick_window page)
  | handOver => exact hmono.congr (handOver_window page)
  | invoke => exact hmono.invoke hmem
  | reply id result => exact hmono.reply id result
  | transformCallback id once =>
    exact hmono.transformCallback hmem id .other once (by simp [Event.ids])
      (by simp [deletes]) (by simp [outcome])

end

theorem owned_run (es : List (Event J)) : Owned es (run es) := by
  induction es using reverseRecOn with
  | nil =>
    refine ⟨fun id property hprop => ?_, fun entry hent => ?_⟩
    · cases hprop
    · cases hent
  | append_singleton es e ih =>
    rw [run_concat]
    exact ih.step e

theorem eq_of_mem_ids (hids : (ids es).Nodup) {e' : Event J} (he : e ∈ es) (he' : e' ∈ es)
    {i : UInt32} (hi : i ∈ e.ids) (hi' : i ∈ e'.ids) : e = e' := by
  by_contra hne
  have hsymm : Std.Symm (Function.onFun Disjoint (Event.ids (J := J))) :=
    ⟨fun _ _ hdisj => disjoint_symm hdisj⟩
  exact (nodup_flatMap.mp hids).2.forall he he' hne hi hi'

/-! ### The promise of a call -/

/-- The state of a call after the first answer to it, if there was one. -/
def Answered (message : IsolationData J) (page : Page J) : Option (Except J J) → Prop
  | none =>
    page.window message.callback = some ⟨.resolve message.callback message.error, true⟩ ∧
      page.window message.error = some ⟨.reject message.callback message.callback, true⟩ ∧
      page.settled.filter (·.1 == message.callback) = []
  | some result =>
    page.window message.callback = none ∧ page.window message.error = none ∧
      page.settled.filter (·.1 == message.callback) = [(message.callback, result)]

variable {answer : Option (Except J J)}

theorem Answered.reply_of_mem (h : Answered message page none)
    (hne : message.callback ≠ message.error) (hid : id ∈ (Event.invoke message).ids) (result : J) :
    Answered message (page.reply id result) (Event.answer message (.reply id result)) := by
  obtain ⟨hcb, herror, hnone⟩ := h
  rcases mem_pair.mp hid with rfl | rfl
  · obtain ⟨hset, hwindow⟩ := reply_of_some hcb result
    rw [Event.answer, if_pos rfl]
    refine ⟨by simp [hwindow], by simp [hwindow, deletes], ?_⟩
    simp [hset, hnone, outcome]
  · obtain ⟨hset, hwindow⟩ := reply_of_some herror result
    rw [Event.answer, if_neg hne.symm, if_pos rfl]
    refine ⟨by simp [hwindow, deletes], by simp [hwindow], ?_⟩
    simp [hset, hnone, outcome]

section

variable (h : Answered message page answer)
include h

theorem Answered.congr {page' : Page J}
    (hcb : page'.window message.callback = page.window message.callback)
    (herror : page'.window message.error = page.window message.error)
    (hset : page'.settled.filter (·.1 == message.callback) =
      page.settled.filter (·.1 == message.callback)) : Answered message page' answer := by
  cases answer <;> exact ⟨hcb.trans h.1, herror.trans h.2.1, hset.trans h.2.2⟩

theorem Answered.reply_of_ne (howned : Owned es page) (hids : (ids es).Nodup)
    (hmem : .invoke message ∈ es) (hid : id ∉ (Event.invoke message).ids) (result : J) :
    Answered message (page.reply id result) answer := by
  cases hwindow : page.window id with
  | none =>
    rw [reply_of_none hwindow]
    exact h
  | some property =>
    obtain ⟨hset, hreply⟩ := reply_of_some hwindow result
    obtain ⟨e, he, hide, hdeletes, hout⟩ := howned.window id property hwindow
    -- The event that registered the other callback is another one, with other ids.
    have hother : ∀ i ∈ (Event.invoke message).ids, i ∉ e.ids := by
      intro i hi hie
      rw [eq_of_mem_ids hids he hmem hie hi] at hide
      exact hid hide
    have hkeep : ∀ i ∈ (Event.invoke message).ids,
        (page.reply id result).window i = page.window i := by
      intro i hi
      rw [hreply, if_neg]
      rintro (⟨-, rfl⟩ | hdelete)
      · exact hid hi
      · exact hother i hi (hdeletes i hdelete)
    have hnone : (property.callback.outcome result).filter (·.1 == message.callback) = [] := by
      rw [filter_eq_nil_iff]
      intro entry hent heq
      refine hother entry.1 ?_ (hout result entry hent)
      rw [beq_iff_eq.mp heq]
      exact mem_cons_self
    refine h.congr (hkeep _ mem_cons_self) (hkeep _ (by simp [Event.ids])) ?_
    rw [hset, filter_append, hnone, append_nil]

theorem Answered.reply (howned : Owned es page) (hids : (ids es).Nodup)
    (hmem : .invoke message ∈ es) (id : UInt32) (result : J) :
    Answered message (page.reply id result)
      (answer.or (Event.answer message (.reply id result))) := by
  by_cases hid : id ∈ (Event.invoke message).ids
  · cases answer with
    | none =>
      have hne : message.callback ≠ message.error := by
        have hnd := (nodup_flatMap.mp hids).1 _ hmem
        simpa [Event.ids] using hnd
      exact h.reply_of_mem hne hid result
    | some =>
      -- Both properties are gone, so there is nothing to call.
      have hnone : page.window id = none := by
        rcases mem_pair.mp hid with rfl | rfl
        · exact h.1
        · exact h.2.1
      rw [reply_of_none hnone, Option.some_or]
      exact h
  · have hans : Event.answer message (.reply id result) = none := by
      have hne : id ≠ message.callback ∧ id ≠ message.error := by simpa [Event.ids] using hid
      rw [Event.answer, if_neg hne.1, if_neg hne.2]
    rw [hans, Option.or_none]
    exact h.reply_of_ne howned hids hmem hid result

theorem Answered.step (howned : Owned es page) (hids : (ids (es ++ [e])).Nodup)
    (hmem : .invoke message ∈ es) :
    Answered message (step page e) (answer.or (Event.answer message e)) := by
  -- The ids of the new event are none of those of the call.
  have hfresh : ∀ i ∈ (Event.invoke message).ids, i ∉ e.ids := by
    intro i hi hie
    rw [ids_append] at hids
    exact (nodup_append.mp hids).2.2 i (mem_flatMap.mpr ⟨_, hmem, hi⟩) i
      (mem_flatMap.mpr ⟨e, mem_singleton_self e, hie⟩) rfl
  have hquiet : Event.answer message e = none →
      (∀ i ∈ (Event.invoke message).ids, (Invoke.step page e).window i = page.window i) →
      (Invoke.step page e).settled = page.settled →
      Answered message (Invoke.step page e) (answer.or (Event.answer message e)) := by
    intro hans hwindow hset
    rw [hans, Option.or_none]
    exact h.congr (hwindow _ mem_cons_self) (hwindow _ (by simp [Event.ids]))
      (by rw [hset])
  cases e with
  | installIpc => exact hquiet rfl (fun _ _ => rfl) rfl
  | tick => exact hquiet rfl (fun i _ => congrFun (tick_window page).1 i) (tick_window page).2
  | handOver =>
    exact hquiet rfl (fun i _ => congrFun (handOver_window page).1 i) (handOver_window page).2
  | reply id result => exact h.reply howned (nodup_ids_of_append hids) hmem id result
  | transformCallback id =>
    refine hquiet rfl (fun i hi => ?_) rfl
    have hne : i ≠ id := fun heq => hfresh i hi (heq ▸ mem_singleton_self _)
    exact Function.update_of_ne hne _ _
  | invoke message' =>
    obtain ⟨hwindow, hset⟩ := invoke_window page message'
    refine hquiet rfl (fun i hi => ?_) hset
    have hne : i ≠ message'.callback ∧ i ≠ message'.error := by simpa [Event.ids] using hfresh i hi
    change (page.invoke message').window i = page.window i
    rw [hwindow, registered_apply, if_neg hne.2, if_neg hne.1]

theorem Answered.settled_eq :
    page.settled.filter (·.1 == message.callback) =
      (answer.map fun result => (message.callback, result)).toList := by
  cases answer <;> exact h.2.2

theorem Answered.released (hset : ∃ entry ∈ page.settled, entry.1 = message.callback) :
    page.window message.callback = none ∧ page.window message.error = none := by
  cases answer with
  | none =>
    obtain ⟨entry, hent, heq⟩ := hset
    have hnone := filter_eq_nil_iff.mp h.2.2 entry hent
    exact absurd (beq_iff_eq.mpr heq) hnone
  | some => exact ⟨h.1, h.2.1⟩

end

theorem answered_run {es₁ es₂ : List (Event J)}
    (hids : (ids (es₁ ++ .invoke message :: es₂)).Nodup) :
    Answered message (run (es₁ ++ .invoke message :: es₂)) (firstAnswer message es₂) := by
  induction es₂ using reverseRecOn with
  | nil =>
    have hnd : ∀ e ∈ es₁ ++ [.invoke message], e.ids.Nodup := (nodup_flatMap.mp hids).1
    have hne : message.callback ≠ message.error := by
      simpa [Event.ids] using hnd (.invoke message) (by simp)
    obtain ⟨hwindow, hset⟩ := invoke_window (run es₁) message
    rw [run_concat, step]
    refine ⟨?_, ?_, ?_⟩
    · rw [hwindow, registered_apply, if_neg hne, if_pos rfl]
    · rw [hwindow, registered_apply, if_pos rfl]
    · rw [hset, filter_eq_nil_iff]
      intro entry hent heq
      obtain ⟨e, he, hid⟩ := (owned_run es₁).settled entry hent
      rw [ids_append] at hids
      refine (nodup_append.mp hids).2.2 entry.1 (mem_flatMap.mpr ⟨e, he, hid⟩)
        message.callback (mem_flatMap.mpr ⟨_, mem_singleton_self _, ?_⟩)
        (beq_iff_eq.mp heq)
      exact mem_cons_self
  | append_singleton es₂ e ih =>
    have hsplit : es₁ ++ .invoke message :: (es₂ ++ [e]) =
        es₁ ++ .invoke message :: es₂ ++ [e] := by simp
    rw [hsplit] at hids ⊢
    rw [run_concat, firstAnswer, findSome?_append, findSome?_singleton]
    exact (ih (nodup_ids_of_append hids)).step (owned_run _) hids (by simp)

/-! ### The bookkeeping as a whole -/

/-- What a page keeps in order, after any events. -/
structure Bookkeeping (es : List (Event J)) (page : Page J) : Prop where
  /-- Nothing is handed over before `ipc` is there, and only what was sent. -/
  before : .installIpc ∉ es → page.handed = []
  sent : ∀ message ∈ page.handed, message ∈ calls es
  atMostOnce : ∀ message ∈ calls es,
    handedFor page message = [] ∨ handedFor page message = [message]
  direct : ∀ message ∈ calls (afterIpc es), handedFor page message = [message]
  /-- If a message is still to be handed over then there is a timer, or the loop is running. -/
  quiescent : page.ipc = true → page.timers = 0 → page.loop = none →
    ∀ message ∈ calls es, handedFor page message = [message]
  /-- The timer and as many turns of the loop as there were calls hand over everything. -/
  flushed : ∀ es₁ es₂ es₃, es = es₁ ++ .installIpc :: es₂ ++ .tick :: es₃ →
    (calls es₁).length < es₃.countP Event.isHandOver →
      ∀ message ∈ calls es, handedFor page message = [message]
  inOrder : page.handed.filter (fun m =>
    (calls (beforeIpc es)).any (·.callback == m.callback)) <+: calls (beforeIpc es)
  settled : ∀ es₁ message es₂, es = es₁ ++ .invoke message :: es₂ →
    page.settled.filter (·.1 == message.callback) =
      ((firstAnswer message es₂).map fun result => (message.callback, result)).toList
  released : ∀ message ∈ calls es, (∃ entry ∈ page.settled, entry.1 = message.callback) →
    page.window message.callback = none ∧ page.window message.error = none

/-- **The bookkeeping of `invoke`.** Whatever happens in a page, in whatever order, as long as the
ids of its callbacks are different: no message is lost or handed over twice, those that had to
wait keep their order, and a promise follows the first answer and leaves nothing behind. -/
theorem invoke_bookkeeping (es : List (Event J)) (hids : (ids es).Nodup) :
    Bookkeeping es (run es) := by
  obtain ⟨d, h⟩ := exists_queue es hids
  refine ⟨?_, ?_, ?_, ?_, ?_, ?_, ?_, ?_, ?_⟩
  · intro hinstall
    exact (h.waiting_of_no_ipc (any_isInstall_eq_false hinstall)).2.2.2
  · intro message hm
    rw [calls_before_after, ← h.queue, mem_append]
    exact (h.mem_handed.mp hm).imp_left mem_of_mem_take
  · exact fun message hm => h.handedFor_le hids hm
  · exact fun message hm => h.handedFor_of_direct hids hm
  · intro hipc htimers hloop message hm
    have hend : Ending (run es) 0 :=
      ⟨hipc, htimers, fun i hi => absurd (hloop.symm.trans hi) (by simp)⟩
    obtain rfl := h.eq_length_of_ending hend
    exact h.handedFor_eq hids hm
  · rintro es₁ es₂ es₃ rfl hturns message hm
    exact handedFor_eq_of_flushed hids hturns hm
  · rw [← h.queue]
    exact h.handed ▸ take_prefix d _
  · rintro es₁ message es₂ rfl
    exact (answered_run hids).settled_eq
  · intro message hm hset
    obtain ⟨es₁, es₂, rfl⟩ := append_of_mem (mem_calls.mp hm)
    exact (answered_run hids).released hset

namespace Sample

def greet (callback error : UInt32) : IsolationData ℕ :=
  ⟨"greet", callback, error, 0, none⟩

/-- Two calls before `ipc` is there and one after, which overtakes them. The second promise is
rejected while the loop is running, and a late reply comes to its other callback. -/
def events : List (Event ℕ) :=
  [.invoke (greet 1 2), .invoke (greet 3 4), .tick, .installIpc, .invoke (greet 5 6), .tick,
    .handOver, .handOver, .reply 4 7, .handOver, .reply 3 8, .reply 1 9]

end Sample

/-- The hypothesis of the theorem holds of a run with all kinds of events. -/
theorem sample_bookkeeping : (ids Sample.events).Nodup ∧
    Bookkeeping Sample.events (run Sample.events) ∧
    (run Sample.events).handed.map (·.callback) = [5, 1, 3] ∧
    (run Sample.events).settled.map (·.1) = [3, 1] := by
  have hids : (ids Sample.events).Nodup := by decide
  exact ⟨hids, invoke_bookkeeping Sample.events hids, rfl, rfl⟩

end Tauri.Invoke
