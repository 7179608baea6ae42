import Tauri.Event.JsListeners

/-!
# Delivery to the pages

An emit sends to each webview a script with the ids that the webview registered for the event and
that pass the filter, and the script calls the handlers the page has under these ids. Two things
are shared where one might not expect it. The ids are removed from the application's map whichever
webview asks for it: a page can unregister the listeners of another page. And one event object
goes through all handlers of a page: a handler that changes the payload changes it for those that
are called after it, and in an object that a handler froze no later handler finds its own id.
-/

namespace Tauri.Events

open Rust List

variable {H V W : Type}

/-! ### What is sent -/

section Sent

variable {o : HashOrder JsHandler} {dispatched : String → Bool} {js : JsEventListeners}
  {event : String} {filter : Option Filter}

theorem emitJsFilter_eq_ok (hdisp : ∀ label, dispatched label = true)
    (webviews : List String) : emitJsFilter o dispatched js webviews event filter =
      .ok (webviews.filterMap fun label =>
        (getHandlers js label event).map fun handlers =>
          (label, matchingIds o handlers filter)) := by
  -- The loop carries what it has sent so far.
  have hloop : ∀ sent, webviews.foldlM (emitJs o dispatched js event filter) sent =
      .ok (sent ++ webviews.filterMap fun label =>
        (getHandlers js label event).map fun handlers =>
          (label, matchingIds o handlers filter)) := by
    induction webviews with
    | nil => simp
    | cons label _ ih =>
      intro sent
      rw [foldlM_cons, emitJs]
      cases hget : getHandlers js label event with
      | none => simp [hget, ih]
      | some => simp [hget, ih, hdisp]
  exact hloop []

theorem valuesAt_filterMap {webviews : List String} (hnd : webviews.Nodup) {label : String}
    (hlbl : label ∈ webviews) :
    (valuesAt label (webviews.filterMap fun label =>
      (getHandlers js label event).map fun handlers =>
        (label, matchingIds o handlers filter))).flatten =
      ((getHandlers js label event).map fun handlers => matchingIds o handlers filter).getD [] := by
  induction webviews with
  | nil => cases hlbl
  | cons label' webviews ih =>
    obtain ⟨hnew, hrest⟩ := nodup_cons.mp hnd
    have hvals : ∀ {label₀}, label₀ ∉ webviews →
        valuesAt label₀ (webviews.filterMap fun label => (getHandlers js label event).map
          fun handlers => (label, matchingIds o handlers filter)) = [] := by
      intro label₀ hnot
      refine valuesAt_eq_nil.mpr fun ids hmem => ?_
      obtain ⟨label, hin, heq⟩ := mem_filterMap.mp hmem
      obtain ⟨handlers, -, heq'⟩ := Option.map_eq_some_iff.mp heq
      exact hnot ((Prod.mk.inj heq').1 ▸ hin)
    rcases mem_cons.mp hlbl with rfl | hin
    · cases hget : getHandlers js label event with
      | none => simp [hget, hvals hnew]
      | some => simp [hget, valuesAt_cons, hvals hnew]
    · have hne : ¬ label' = label := by
        rintro rfl
        exact hnew hin
      cases hget : getHandlers js label' event with
      | none => simpa [hget] using ih hrest hin
      | some => simpa [hget, valuesAt_cons, hne] using ih hrest hin

theorem mem_matchingIds {handlers : HashSet JsHandler} {id : EventId} :
    id ∈ matchingIds o handlers filter ↔
      ∃ target, ⟨target, id⟩ ∈ handlers ∧ matchAnyOrFilter target filter = true := by
  simp only [matchingIds, mem_map, mem_filter, HashSet.mem_iter]
  constructor
  · rintro ⟨h, hh, rfl⟩
    exact ⟨h.target, hh⟩
  · rintro ⟨target, htarget⟩
    exact ⟨⟨target, id⟩, htarget, rfl⟩

theorem nodup_matchingIds {handlers : HashSet JsHandler}
    (hids : ∀ h ∈ handlers, ∀ h' ∈ handlers, h.id = h'.id → h = h') :
    (matchingIds o handlers filter).Nodup := by
  refine Nodup.map_on ?_ ((HashSet.nodup_iter o handlers).filter _)
  intro h hh h' hh' heq
  have hmem : ∀ {x}, x ∈ (handlers.iter o).filter (fun h => matchAnyOrFilter h.target filter) →
      x ∈ handlers := fun hx => HashSet.mem_iter.mp (mem_of_mem_filter hx)
  exact hids h (hmem hh) h' (hmem hh') heq

end Sent

/-! ### What the page calls -/

/-- Running a handler leaves the listeners under other ids than its own in the page. -/
def KeepsOthers (call : H → Page H W × EventData V → Page H W × EventData V) : Prop :=
  ∀ h page e event id listener, e.id ≠ some id → page.find event id = some listener →
    (call h (page, e)).1.find event id = some listener

/-- Running a handler leaves the payload of the event object as it is, and does not freeze it. -/
def KeepsPayload (call : H → Page H W × EventData V → Page H W × EventData V) : Prop :=
  ∀ h s, (call h s).2.payload = s.2.payload ∧ (call h s).2.frozen = s.2.frozen

section Calls

variable {call : H → Page H W × EventData V → Page H W × EventData V} {event : String}

theorem emitJsScript_calls (hoths : KeepsOthers call) (hpay : KeepsPayload call)
    {ids : List EventId} (hnd : ids.Nodup) {page : Page H W} {e : EventData V}
    (hfrozen : e.frozen = false)
    (hsto : ∀ id ∈ ids, ∃ listener, page.find event id = some listener) :
    ((Page.emitJsScript call event ids (page, e)).2.map fun c => (c.1, c.2.1)) =
        ids.filterMap (fun id => (page.handler event id).map fun h => (id, h)) ∧
      ∀ c ∈ (Page.emitJsScript call event ids (page, e)).2,
        c.2.2.payload = e.payload ∧ c.2.2.id = some c.1 := by
  induction ids generalizing page e with
  | nil => simp [Page.emitJsScript]
  | cons id ids ih =>
    obtain ⟨hid, hids⟩ := nodup_cons.mp hnd
    obtain ⟨-, hsto'⟩ := forall_mem_cons.mp hsto
    cases hh : page.handler event id with
    | none =>
      obtain ⟨hcalls, hobjs⟩ := ih hids hfrozen hsto'
      simp only [Page.emitJsScript, hh, filterMap_cons, Option.map_none]
      exact ⟨hcalls, hobjs⟩
    | some h =>
      have hset : e.setId id = { e with id := some id } := by
        rw [EventData.setId, hfrozen]
        rfl
      obtain ⟨hsame, hstill⟩ := hpay h (page, e.setId id)
      -- The listeners under the ids to come are still there.
      have hkept : ∀ id' ∈ ids, (call h (page, e.setId id)).1.find event id' =
          page.find event id' := by
        intro id' hid'
        obtain ⟨listener, hlis⟩ := hsto' id' hid'
        have hne : (e.setId id).id ≠ some id' := by grind
        rw [hoths h page (e.setId id) event id' listener hne hlis, hlis]
      have hstored'' : ∀ id' ∈ ids, ∃ listener,
          (call h (page, e.setId id)).1.find event id' = some listener := by
        intro id' hid'
        rw [hkept id' hid']
        exact hsto' id' hid'
      have hfrozen' : (call h (page, e.setId id)).2.frozen = false := by
        rw [hstill, hset]
        exact hfrozen
      obtain ⟨hcalls, hobjs⟩ := ih hids hfrozen' hstored''
      have hhs : ids.filterMap (fun id' =>
          ((call h (page, e.setId id)).1.handler event id').map fun h => (id', h)) =
          ids.filterMap fun id' => (page.handler event id').map fun h => (id', h) := by
        refine filterMap_congr fun id' hid' => ?_
        rw [Page.handler, hkept id' hid', Page.handler]
      simp only [Page.emitJsScript, hh, filterMap_cons, Option.map_some, map_cons]
      refine ⟨?_, forall_mem_cons.mpr ⟨by simp [hset], fun c hc => ?_⟩⟩
      · rw [hcalls, hhs]
      · obtain ⟨hc₁, hc₂⟩ := hobjs c hc
        exact ⟨by rw [hc₁, hsame, hset], hc₂⟩

end Calls

/-! ### Delivery -/

/-- `is_event_name_valid`, with the `char::is_alphanumeric` of Rust. -/
def isEventNameValid (isAlphanumeric : Char → Bool) (event : String) : Bool :=
  event.toList.all fun c => isAlphanumeric c || c == '-' || c == '/' || c == ':' || c == '_'

/-- `AppManager::emit_filter`, and `emit` when there is no filter: the scripts that are sent to the
webviews. -/
def AppManager.emitFilter (isAlphanumeric : Char → Bool) (o : HashOrder JsHandler)
    (order : HashOrder String) (dispatched : String → Bool) (m : AppManager H W) (event : String)
    (filter : Option Filter) : Outcome Error (List (String × List EventId)) :=
  if isEventNameValid isAlphanumeric event then
    emitJsFilter o dispatched m.jsEventListeners (order.order m.webviews.keys) event filter
  else
    .panic "Event name must include only alphanumeric characters, `-`, `/`, `:` and `_`."

/-- The id of a registration. -/
def JsEffect.listenedId : JsEffect → Option EventId
  | .listened _ _ _ id => some id
  | _ => none

section Delivery

variable {m : AppManager H W} {es : List JsEffect}

theorem listened_unique (hdist : (es.filterMap JsEffect.listenedId).Nodup) {w w' : Handle}
    {event event' : String} {target target' : EventTarget} {id : EventId}
    (h : .listened w event target id ∈ es) (h' : .listened w' event' target' id ∈ es) :
    w = w' ∧ event = event' ∧ target = target' := by
  induction es with
  | nil => cases h
  | cons e es ih =>
    have hmem : ∀ {w event target}, .listened w event target id ∈ es →
        id ∈ es.filterMap JsEffect.listenedId :=
      fun hin => mem_filterMap.mpr ⟨_, hin, rfl⟩
    rcases mem_cons.mp h with rfl | hin
    · rcases mem_cons.mp h' with heq | hin'
      · cases heq
        exact ⟨rfl, rfl, rfl⟩
      · rw [filterMap_cons] at hdist
        exact absurd (hmem hin') (nodup_cons.mp hdist).1
    · rcases mem_cons.mp h' with rfl | hin'
      · rw [filterMap_cons] at hdist
        exact absurd (hmem hin) (nodup_cons.mp hdist).1
      · refine ih (hdist.sublist ?_) hin hin'
        exact (sublist_cons_self e es).filterMap _

open AppManager

/-- In an orderly run, a listener that is registered and not removed, under the label of a webview
that is there, was registered by this webview, and its page has it. -/
theorem AppManager.find_of_live
    (h : Execution (guarded Orderly AppManager.Step) (.default : AppManager H W) es m)
    {label event : String} {v : Webview H W} (hv : m.webviews[label]? = some v) {n : Nat}
    {target : EventTarget} {id : EventId} (hlive : Live es ⟨label, n⟩ event target id) :
    n = v.number ∧ ∃ listener, v.page.find event id = some listener := by
  obtain ⟨v', listener, hv', hnum, hfind⟩ := stored_of_live h hlive
  rw [hv] at hv'
  cases hv'
  exact ⟨hnum.symm, listener, hfind⟩

/-- **Delivery to the pages.** In every run in which listeners are registered by webviews that are
there, under distinct ids, and webviews are closed without listeners: an emit whose scripts are all
dispatched sends to each webview, once each, the ids of the listeners that it registered for the
event, that no webview removed since, and whose target passes the filter, and no id of another
webview. The script then calls exactly the handlers that the page has under these ids, once each,
with the payload and their own id, if handlers neither remove listeners under other ids, nor change
the payload of the event object, nor freeze it. -/
theorem emitFilter_delivers_to_pages {isAlphanumeric : Char → Bool}
    (h : Execution (guarded Orderly AppManager.Step) (.default : AppManager H W) es m)
    (hdistinct : (es.filterMap JsEffect.listenedId).Nodup) {event : String}
    (hvalid : isEventNameValid isAlphanumeric event = true) {dispatched : String → Bool}
    (hdispatched : ∀ label, dispatched label = true) (o : HashOrder JsHandler)
    (order : HashOrder String) (filter : Option Filter)
    {call : H → Page H W × EventData V → Page H W × EventData V} (hothers : KeepsOthers call)
    (hpayload : KeepsPayload call) (payload : V) :
    ∃ sent, m.emitFilter isAlphanumeric o order dispatched event filter = .ok sent ∧
      ∀ label v, m.webviews[label]? = some v →
        let ids := (valuesAt label sent).flatten
        let calls := (Page.emitJsScript call event ids (v.page, ⟨event, payload, none, false⟩)).2
        ids.Nodup ∧
        (∀ id, id ∈ ids ↔ ∃ target, Live es ⟨label, v.number⟩ event target id ∧
          matchAnyOrFilter target filter = true) ∧
        (∀ w event' target id, .listened w event' target id ∈ es → id ∈ ids →
          w = ⟨label, v.number⟩) ∧
        (∀ id ∈ ids, ∃ listener, v.page.find event id = some listener) ∧
        (calls.map fun c => (c.1, c.2.1)) =
          ids.filterMap (fun id => (v.page.handler event id).map fun h => (id, h)) ∧
        ∀ c ∈ calls, c.2.2.payload = payload ∧ c.2.2.id = some c.1 := by
  have hperm := order.perm m.webviews.keys
  have hkeys : (order.order m.webviews.keys).Nodup := hperm.nodup_iff.mpr m.webviews.nodup_keys
  have hsent : m.emitFilter isAlphanumeric o order dispatched event filter =
      .ok ((order.order m.webviews.keys).filterMap fun label =>
        (getHandlers m.jsEventListeners label event).map fun handlers =>
          (label, matchingIds o handlers filter)) := by
    rw [emitFilter, if_pos hvalid, emitJsFilter_eq_ok hdispatched]
  refine ⟨_, hsent, fun label v hv => ?_⟩
  have hlbl : label ∈ order.order m.webviews.keys := by
    rw [hperm.mem_iff, Std.ExtTreeMap.mem_keys]
    exact BTreeMap.mem_iff_exists.mpr ⟨v, hv⟩
  rw [valuesAt_filterMap hkeys hlbl]
  intro ids calls
  have hhas : ∀ {target : EventTarget} {id : EventId},
      HasJsHandler m.jsEventListeners label event ⟨target, id⟩ ↔
        Live es ⟨label, v.number⟩ event target id := by
    intro target id
    rw [hasJsHandler_iff_live (h.mono And.left)]
    constructor
    · rintro ⟨n, hlive⟩
      obtain ⟨rfl, -⟩ := find_of_live h hv hlive
      exact hlive
    · intro hlive
      exact ⟨_, hlive⟩
  have hmem : ∀ id, id ∈ ids ↔ ∃ target, Live es ⟨label, v.number⟩ event target id ∧
      matchAnyOrFilter target filter = true := by
    intro id
    simp only [ids, ← hhas, HasJsHandler]
    cases hget : getHandlers m.jsEventListeners label event with
    | none => simp
    | some => simp [mem_matchingIds]
  have hnd : ids.Nodup := by
    simp only [ids]
    cases hget : getHandlers m.jsEventListeners label event with
    | none => simp
    | some handlers =>
      refine nodup_matchingIds fun h₁ hh₁ h₂ hh₂ heq => ?_
      have hlive₁ := hhas.mp ⟨handlers, hget, hh₁⟩
      have hlive₂ := hhas.mp ⟨handlers, hget, hh₂⟩
      rw [← heq] at hlive₂
      obtain ⟨-, -, htarget⟩ := listened_unique hdistinct hlive₁.mem hlive₂.mem
      cases h₁
      cases h₂
      simp_all
  have hsto : ∀ id ∈ ids, ∃ listener, v.page.find event id = some listener := by
    intro id hid
    obtain ⟨target, hlive, -⟩ := (hmem id).mp hid
    exact (find_of_live h hv hlive).2
  refine ⟨hnd, hmem, ?_, hsto,
    emitJsScript_calls hothers hpayload hnd rfl hsto⟩
  intro w event' target id hlis hid
  obtain ⟨target', hlive, -⟩ := (hmem id).mp hid
  exact (listened_unique hdistinct hlis hlive.mem).1

end Delivery

namespace Sample

/-- Two windows with one webview each. The first listens to `x` twice, for all targets and for its
own window; the second listens to `x` for its own window. -/
def listenCalls : List (Call Nat Unit) :=
  [.createWindow "a", .createWebview "a" "a" (), .createWindow "b", .createWebview "b" "b" (),
    .listenJs ⟨"a", 0⟩ "x" .any (some 0) true,
    .listenJs ⟨"a", 0⟩ "x" (.window "a") (some 1) true,
    .listenJs ⟨"b", 1⟩ "x" (.window "b") (some 2) true]

/-- The second webview removes a listener of the first. -/
def foreignUnlisten : List (Call Nat Unit) := listenCalls ++ [.unlistenJs ⟨"b", 1⟩ "x" 0 true]

def hashOrder (α : Type) : HashOrder α := ⟨id, fun _ => .rfl⟩

/-- A handler that does nothing. -/
def ignore (_ : Nat) (s : Page Nat Unit × EventData Nat) : Page Nat Unit × EventData Nat := s

/-- A handler that writes to the payload. -/
def overwrite (_ : Nat) (s : Page Nat Unit × EventData Nat) : Page Nat Unit × EventData Nat :=
  (s.1, { s.2 with payload := 1 })

/-- A handler that freezes the event object. -/
def freeze (_ : Nat) (s : Page Nat Unit × EventData Nat) : Page Nat Unit × EventData Nat :=
  (s.1, { s.2 with frozen := true })

/-- What an emit of `x` without a filter sends. -/
def emitX (m : AppManager Nat Unit) : Outcome Error (List (String × List EventId)) :=
  m.emitFilter Char.isAlphanum (hashOrder _) (hashOrder _) (fun _ => true) "x" none

/-- What the handlers of the page of `a` are called with, for an emit of `x` with the payload
`0`. -/
def callsOf (call : Nat → Page Nat Unit × EventData Nat → Page Nat Unit × EventData Nat) :
    List (EventId × Nat × EventData Nat) :=
  match (manage AppManager.orderly listenCalls).1.webviews["a"]?,
    emitX (manage AppManager.orderly listenCalls).1 with
  | some v, .ok sent =>
    (Page.emitJsScript call "x" (valuesAt "a" sent).flatten (v.page, ⟨"x", 0, none, false⟩)).2
  | _, _ => []

end Sample

open Sample

open AppManager

/-- In the sample, an emit to the window `a` reaches the two listeners of the first webview. -/
theorem sample_emit_reaches_own_listeners :
    ∃ sent, (Sample.manage AppManager.orderly Sample.listenCalls).1.emitFilter Char.isAlphanum
        (Sample.hashOrder _) (Sample.hashOrder _) (fun _ => true) "x"
        (emitToFilter (.window "a")) = .ok sent ∧
      ∀ id, id ∈ (valuesAt "a" sent).flatten ↔
        ∃ target, Live (Sample.manage AppManager.orderly Sample.listenCalls).2 ⟨"a", 0⟩ "x" target
            id ∧
          matchAnyOrFilter target (emitToFilter (.window "a")) = true := by
  have hdist : ((manage orderly listenCalls).2.filterMap
      JsEffect.listenedId).Nodup := by
    have hids : (manage orderly listenCalls).2.filterMap
        JsEffect.listenedId = [0, 1, 2] := rfl
    rw [hids]
    decide
  have hoths : KeepsOthers ignore := fun _ _ _ _ _ _ _ hfind => hfind
  have hpay : KeepsPayload ignore := fun _ _ => ⟨rfl, rfl⟩
  obtain ⟨sent, hsent, hdelivers⟩ := emitFilter_delivers_to_pages
    (execution_manage_orderly listenCalls) hdist
    (show isEventNameValid Char.isAlphanum "x" = true by decide) (fun _ => rfl)
    (hashOrder _) (hashOrder _) (emitToFilter (.window "a")) hoths hpay 0
  refine ⟨sent, hsent, ?_⟩
  obtain ⟨v, hv, hnum⟩ : ∃ v,
      (manage orderly listenCalls).1.webviews["a"]? = some v ∧
        v.number = 0 := ⟨_, rfl, rfl⟩
  obtain ⟨-, hmem, -⟩ := hdelivers "a" v hv
  rw [hnum] at hmem
  exact hmem

/-- In the sample, a listener of the first webview that the second removes is sent nothing any
more, although the first did not remove it; and the second handler of a page is called with the
payload that the first has written, or with the id of the first when the object was frozen. -/
theorem sample_shared_ids_and_object :
    (∃ es m, Execution (guarded Orderly AppManager.Step) .default es m ∧
      .listened ⟨"a", 0⟩ "x" .any 0 ∈ es ∧ (∀ event id, .unlistened ⟨"a", 0⟩ event id ∉ es) ∧
      Sample.emitX m = .ok [("a", [1]), ("b", [2])]) ∧
    KeepsOthers Sample.overwrite ∧ KeepsOthers Sample.freeze ∧
    Sample.callsOf Sample.overwrite =
      [(1, 1, ⟨"x", 0, some 1, false⟩), (0, 0, ⟨"x", 1, some 0, false⟩)] ∧
    Sample.callsOf Sample.freeze =
      [(1, 1, ⟨"x", 0, some 1, false⟩), (0, 0, ⟨"x", 0, some 1, true⟩)] := by
  have hlog : (manage orderly foreignUnlisten).2 =
      [.opened ⟨"a", 0⟩, .opened ⟨"b", 1⟩, .listened ⟨"a", 0⟩ "x" .any 0,
        .listened ⟨"a", 0⟩ "x" (.window "a") 1, .listened ⟨"b", 1⟩ "x" (.window "b") 2,
        .unlistened ⟨"b", 1⟩ "x" 0] := rfl
  have hsent : emitX (manage orderly foreignUnlisten).1 =
      .ok [("a", [1]), ("b", [2])] := rfl
  refine ⟨⟨_, _, execution_manage_orderly foreignUnlisten, ?_, ?_, hsent⟩, ?_, ?_,
    rfl, rfl⟩
  · simp [hlog]
  · simp [hlog]
  · exact fun _ _ _ _ _ _ _ hfind => hfind
  · exact fun _ _ _ _ _ _ _ hfind => hfind

end Tauri.Events
