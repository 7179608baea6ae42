import Tauri.Rust.Outcome
import Tauri.Rust.HashSet
import Tauri.Event.Listeners

/-!
# Listeners in the pages

A page listens to an event through two registries that are kept apart. The application has a map
`js_event_listeners`: webview label, event name, set of targets and ids. The page has an object
of its own: event name, id, handler. `Webview::listen_js` evaluates a script that stores the
handler in the page and then inserts the id in the application's map; `unlisten_js` undoes both.
An emit looks up the ids of each webview and evaluates a script that calls the handlers the page
has under these ids.

Windows and webviews come and go. A webview is known by its label, which can be used again once it
is closed; the **number** of a webview, which nothing reads, tells apart two that had one label. A
`Handle` is what a caller holds of a webview, and it can outlive it.
-/

namespace Tauri.Events

open Rust List Std.ExtTreeMap

/-! ### The application's map -/

/-- `JsHandler`. -/
structure JsHandler where
  target : EventTarget
  id : EventId
  deriving DecidableEq, Repr

/-- `js_event_listeners`. -/
abbrev JsEventListeners := BTreeMap String (BTreeMap String (HashSet JsHandler))

/-- `Listeners::listen_js`. -/
def listenJs (listeners : JsEventListeners) (event sourceWebviewLabel : String)
    (target : EventTarget) (id : EventId) : JsEventListeners :=
  listeners.upsert sourceWebviewLabel ∅ fun events =>
    events.upsert event ∅ fun handlers => handlers.insert ⟨target, id⟩

/-- `Listeners::unlisten_js`. The id is removed for the event in every webview, and with the last
handler the entry of the event. -/
def unlistenJs (jsListeners : JsEventListeners) (event : String) (id : EventId) :
    JsEventListeners :=
  jsListeners.map fun _ events =>
    match events[event]? with
    | none => events
    | some handlers =>
      let handlers := handlers.retain fun h => h.id != id
      if handlers.isEmpty then events.erase event else events.insert event handlers

/-- `Listeners::has_js_listener`. -/
def hasJsListener (jsListeners : JsEventListeners) (event : String)
    (filter : EventTarget → Bool) : Bool :=
  jsListeners.vals.any fun events =>
    (events[event]?.map fun handlers => handlers.toList.any fun h => filter h.target).getD false

/-- `js_listeners.get(label).and_then(|s| s.get(event))`. -/
def getHandlers (jsListeners : JsEventListeners) (label event : String) :
    Option (HashSet JsHandler) :=
  jsListeners[label]?.bind (·[event]?)

inductive Error where
  | failedToSendMessage
  | windowLabelAlreadyExists (label : String)
  | webviewLabelAlreadyExists (label : String)
  deriving DecidableEq, Repr

/-- The ids that `emit_js_filter` collects. -/
def matchingIds (o : HashOrder JsHandler) (handlers : HashSet JsHandler)
    (filter : Option Filter) : List EventId :=
  ((handlers.iter o).filter fun h => matchAnyOrFilter h.target filter).map JsHandler.id

/-- The closure of `emit_js_filter`: the webview is sent a script, if it has an entry for the event.
What its dispatcher answers to `eval_script` is given by `dispatched`. -/
def emitJs (o : HashOrder JsHandler) (dispatched : String → Bool)
    (jsListeners : JsEventListeners) (event : String) (filter : Option Filter)
    (sent : List (String × List EventId)) (label : String) :
    Outcome Error (List (String × List EventId)) :=
  match getHandlers jsListeners label event with
  | none => .ok sent
  | some handlers =>
    if dispatched label then .ok (sent ++ [(label, matchingIds o handlers filter)])
    else .err .failedToSendMessage

/-- `Listeners::emit_js_filter`: the webviews that a script is sent to, each with the ids in it. -/
def emitJsFilter (o : HashOrder JsHandler) (dispatched : String → Bool)
    (jsListeners : JsEventListeners) (webviews : List String) (event : String)
    (filter : Option Filter) : Outcome Error (List (String × List EventId)) :=
  webviews.foldlM (emitJs o dispatched jsListeners event filter) []

/-- The webview with this label has this handler in the map, for the event. -/
def HasJsHandler (jsListeners : JsEventListeners) (label event : String) (h : JsHandler) : Prop :=
  ∃ handlers, getHandlers jsListeners label event = some handlers ∧ h ∈ handlers

section Map

variable {js : JsEventListeners} {label event : String} {h : JsHandler}

@[simp] theorem not_hasJsHandler_empty : ¬ HasJsHandler (∅ : JsEventListeners) label event h := by
  simp [HasJsHandler, getHandlers]

theorem hasJsHandler_listenJs {event' label' : String} {target : EventTarget} {id : EventId} :
    HasJsHandler (listenJs js event' label' target id) label event h ↔
      (label = label' ∧ event = event' ∧ h = ⟨target, id⟩) ∨ HasJsHandler js label event h := by
  simp only [HasJsHandler, getHandlers, listenJs, BTreeMap.getElem?_upsert]
  by_cases hlbl : label' = label
  · subst hlbl
    simp only [if_true, Option.bind_some, BTreeMap.getElem?_upsert, true_and]
    by_cases hev : event' = event
    · subst hev
      cases hevents : js[label']? with
      | none => simp
      | some events => cases hhs : events[event']? <;> simp [hhs]
    · have hne : ¬ event = event' := fun heq => hev heq.symm
      cases hevents : js[label']? <;> simp [hev, hne]
  · have hne : ¬ label = label' := fun heq => hlbl heq.symm
    simp [hlbl, hne]

theorem hasJsHandler_unlistenJs {event' : String} {id : EventId} :
    HasJsHandler (unlistenJs js event' id) label event h ↔
      HasJsHandler js label event h ∧ ¬ (event = event' ∧ h.id = id) := by
  simp only [HasJsHandler, getHandlers, unlistenJs, Std.ExtTreeMap.getElem?_map]
  cases hevents : js[label]? with
  | none => simp
  | some events =>
    simp only [Option.map_some, Option.bind_some]
    cases hhs : events[event']? with
    | none => grind
    | some handlers =>
      -- The entry of the event is erased when no handler is left, which shows at no handler.
      by_cases hemp : (handlers.retain fun h => h.id != id).isEmpty = true
      · have hids : ∀ h ∈ handlers, h.id = id := by
          intro h hh
          by_contra hne
          have hmem : h ∈ handlers.retain fun h => h.id != id := by simp [hh, hne]
          rw [HashSet.isEmpty_eq_false_of_mem hmem] at hemp
          cases hemp
        simp only [hemp, if_true, Std.ExtTreeMap.getElem?_erase, Std.LawfulEqOrd.compare_eq_iff_eq]
        by_cases hev : event' = event
        · subst hev
          simpa [hhs] using hids h
        · have hne : ¬ event = event' := fun heq => hev heq.symm
          simp [hev, hne]
      · simp only [hemp, Bool.false_eq_true, if_false, Std.ExtTreeMap.getElem?_insert,
          Std.LawfulEqOrd.compare_eq_iff_eq]
        by_cases hev : event' = event
        · subst hev
          simp [hhs]
        · have hne : ¬ event = event' := fun heq => hev heq.symm
          simp [hev, hne]

theorem hasJsListener_iff {filter : EventTarget → Bool} :
    hasJsListener js event filter = true ↔
      ∃ label h, HasJsHandler js label event h ∧ filter h.target = true := by
  simp only [hasJsListener, HasJsHandler, getHandlers, any_eq_true, BTreeMap.mem_vals]
  constructor
  · rintro ⟨events, ⟨label, hevents⟩, hany⟩
    cases hhs : events[event]? with
    | none => simp [hhs] at hany
    | some handlers =>
      obtain ⟨h, hh, hfilt⟩ : ∃ h ∈ handlers, filter h.target = true := by
        simpa [hhs] using hany
      exact ⟨label, h, ⟨handlers, by simp [hevents, hhs], hh⟩, hfilt⟩
  · rintro ⟨label, h, ⟨handlers, hget, hh⟩, hfilt⟩
    obtain ⟨events, hevents, hhs⟩ := Option.bind_eq_some_iff.mp hget
    refine ⟨events, ⟨label, hevents⟩, ?_⟩
    simp only [hhs, Option.map_some, Option.getD_some, any_eq_true]
    exact ⟨h, hh, hfilt⟩

end Map

/-! ### The page's object -/

/-- What a page stores for a listener. There is no handler when `window['_N']` was not a function
at the time of the script. -/
structure Listener (H : Type) where
  target : EventTarget
  handler : Option H
  deriving DecidableEq, Repr

/-- A page: its listeners object, and the rest of what its code can read and write. -/
structure Page (H W : Type) where
  listeners : BTreeMap String (BTreeMap EventId (Listener H))
  world : W

/-- The object an event script passes to the handlers, one for all of them. In an object that was
frozen `id` can no longer be written. -/
structure EventData (V : Type) where
  event : String
  payload : V
  id : Option EventId
  frozen : Bool
  deriving DecidableEq, Repr

/-- `eventData.id = id`. -/
def EventData.setId {V : Type} (e : EventData V) (id : EventId) : EventData V :=
  if e.frozen then e else { e with id := some id }

variable {H V W : Type}

namespace Page

/-- `listen_js_script`. -/
def listenJsScript (page : Page H W) (event : String) (eventId : EventId)
    (listener : Listener H) : Page H W :=
  { page with
    listeners := page.listeners.upsert event ∅ fun listeners => listeners.insert eventId listener }

/-- `unlisten_js_script`. -/
def unlistenJsScript (page : Page H W) (eventName : String) (eventId : EventId) : Page H W :=
  match page.listeners[eventName]? with
  | none => page
  | some listeners =>
    { page with listeners := page.listeners.insert eventName (listeners.erase eventId) }

/-- The listener under an id, `window[listeners][event][id]`. -/
def find (page : Page H W) (event : String) (id : EventId) : Option (Listener H) :=
  page.listeners[event]?.bind (·[id]?)

/-- The handler under an id. -/
def handler (page : Page H W) (event : String) (id : EventId) : Option H :=
  (page.find event id).bind Listener.handler

/-- The function that `event_initialization_script` defines, run by `emit_js_script`: it goes
through the ids and calls the handlers it finds, with the one event object. Running a handler is
`call`, which may change the page and the object. The calls are listed with the object as it was
passed. -/
def emitJsScript (call : H → Page H W × EventData V → Page H W × EventData V) (event : String) :
    List EventId → Page H W × EventData V →
      (Page H W × EventData V) × List (EventId × H × EventData V)
  | [], s => (s, [])
  | id :: ids, (page, eventData) =>
    match page.handler event id with
    | none => emitJsScript call event ids (page, eventData)
    | some h =>
      let r := emitJsScript call event ids (call h (page, eventData.setId id))
      (r.1, (id, h, eventData.setId id) :: r.2)

theorem find_listenJsScript (page : Page H W) (event event' : String) (id id' : EventId)
    (listener : Listener H) : (page.listenJsScript event id listener).find event' id' =
      if event = event' ∧ id = id' then some listener else page.find event' id' := by
  simp only [find, listenJsScript, BTreeMap.getElem?_upsert]
  by_cases hev : event = event'
  · grind
  · simp [hev]

theorem find_unlistenJsScript (page : Page H W) (event event' : String) (id id' : EventId) :
    (page.unlistenJsScript event id).find event' id' =
      if event = event' ∧ id = id' then none else page.find event' id' := by
  rw [unlistenJsScript]
  cases hlisteners : page.listeners[event]? with
  | none =>
    by_cases hev : event = event'
    · subst hev
      simp [find, hlisteners]
    · simp [hev]
  | some =>
    simp only [find, Std.ExtTreeMap.getElem?_insert, Std.LawfulEqOrd.compare_eq_iff_eq]
    by_cases hev : event = event'
    · subst hev
      simp [hlisteners, Std.ExtTreeMap.getElem?_erase]
    · simp [hev]

end Page

/-! ### Windows and webviews -/

/-- `Webview`, as the manager keeps it. -/
structure Webview (H W : Type) where
  number : Nat
  windowLabel : String
  page : Page H W

/-- What a caller holds of a webview. -/
structure Handle where
  label : String
  number : Nat
  deriving DecidableEq, Repr

/-- The part of `AppManager` that windows, webviews and their listeners are in, and the number of
the next webview. -/
structure AppManager (H W : Type) where
  windows : BTreeMap String Unit
  webviews : BTreeMap String (Webview H W)
  jsEventListeners : JsEventListeners
  nextEventId : EventId
  created : Nat

/-- What a run leaves in the log. -/
inductive JsEffect where
  | opened (w : Handle)
  | closed (w : Handle)
  | listened (w : Handle) (event : String) (target : EventTarget) (id : EventId)
  | unlistened (w : Handle) (event : String) (id : EventId)
  deriving DecidableEq, Repr

namespace AppManager

def default : AppManager H W := ⟨∅, ∅, ∅, 0, 0⟩

/-- `prepare_window` and `attach_window`. -/
def createWindow (m : AppManager H W) (label : String) : Outcome Error (AppManager H W) :=
  if label ∈ m.windows then .err (.windowLabelAlreadyExists label)
  else .ok { m with windows := m.windows.insert label () }

/-- `prepare_webview` and `attach_webview`: the page is new. -/
def createWebview (m : AppManager H W) (label windowLabel : String) (world : W) :
    Outcome Error (AppManager H W) :=
  if label ∈ m.webviews then .err (.webviewLabelAlreadyExists label)
  else .ok { m with
    webviews := m.webviews.insert label ⟨m.created, windowLabel, ⟨∅, world⟩⟩
    created := m.created + 1 }

/-- `Window::webviews`. -/
def webviewsOf (m : AppManager H W) (windowLabel : String) : List (String × Webview H W) :=
  m.webviews.toList.filter fun w => w.2.windowLabel == windowLabel

/-- `on_window_close`. -/
def onWindowClose (m : AppManager H W) (label : String) : AppManager H W :=
  if label ∈ m.windows then
    { m with
      windows := m.windows.erase label
      webviews := ((m.webviewsOf label).map Prod.fst).foldl (fun ws w => ws.erase w) m.webviews }
  else m

/-- `on_webview_close`. -/
def onWebviewClose (m : AppManager H W) (label : String) : AppManager H W :=
  { m with webviews := m.webviews.erase label }

/-- A script that was dispatched to a webview: it changes the page, if the webview still is
there. -/
def eval (m : AppManager H W) (w : Handle) (script : Page H W → Page H W) : AppManager H W :=
  match m.webviews[w.label]? with
  | none => m
  | some v =>
    if v.number = w.number then
      { m with webviews := m.webviews.insert w.label { v with page := script v.page } }
    else m

/-- `Webview::listen_js`. What `window['_N']` is in the page is given by `handler`. -/
def listenJs (m : AppManager H W) (w : Handle) (event : String) (target : EventTarget)
    (handler : Option H) (dispatched : Bool) : AppManager H W × Outcome Error EventId :=
  let id := m.nextEventId
  let m := { m with nextEventId := id + 1 }
  if dispatched then
    let m := m.eval w fun page => page.listenJsScript event id ⟨target, handler⟩
    ({ m with jsEventListeners := Events.listenJs m.jsEventListeners event w.label target id },
      .ok id)
  else (m, .err .failedToSendMessage)

/-- `Webview::unlisten_js`. -/
def unlistenJs (m : AppManager H W) (w : Handle) (event : String) (id : EventId)
    (dispatched : Bool) : AppManager H W × Outcome Error Unit :=
  if dispatched then
    let m := m.eval w fun page => page.unlistenJsScript event id
    ({ m with jsEventListeners := Events.unlistenJs m.jsEventListeners event id }, .ok ())
  else (m, .err .failedToSendMessage)

end AppManager

/-- What happens to the manager: calls of its functions, an id that a Rust listener takes, and
code of a page. -/
inductive Call (H W : Type) where
  | createWindow (label : String)
  | createWebview (label windowLabel : String) (world : W)
  | closeWindow (label : String)
  | closeWebview (label : String)
  | listenJs (w : Handle) (event : String) (target : EventTarget) (handler : Option H)
      (dispatched : Bool)
  | unlistenJs (w : Handle) (event : String) (id : EventId) (dispatched : Bool)
  | nextEventId
  | page (w : Handle) (world : W)

namespace AppManager

/-- A call, with what it leaves in the log. -/
def perform (m : AppManager H W) : Call H W → AppManager H W × List JsEffect
  | .createWindow label => ((m.createWindow label).getD m, [])
  | .createWebview label windowLabel world =>
    match m.createWebview label windowLabel world with
    | .ok m' => (m', [.opened ⟨label, m.created⟩])
    | _ => (m, [])
  | .closeWindow label =>
    (m.onWindowClose label,
      if label ∈ m.windows then
        (m.webviewsOf label).map fun w => .closed ⟨w.1, w.2.number⟩
      else [])
  | .closeWebview label =>
    (m.onWebviewClose label, m.webviews[label]?.toList.map fun v => .closed ⟨label, v.number⟩)
  | .listenJs w event target handler dispatched =>
    ((m.listenJs w event target handler dispatched).1,
      if dispatched then [.listened w event target m.nextEventId] else [])
  | .unlistenJs w event id dispatched =>
    ((m.unlistenJs w event id dispatched).1, if dispatched then [.unlistened w event id] else [])
  | .nextEventId => ({ m with nextEventId := m.nextEventId + 1 }, [])
  | .page w world => (m.eval w fun page => { page with world := world }, [])

/-- A step of a run. -/
def Step (m : AppManager H W) (es : List JsEffect) (m' : AppManager H W) : Prop :=
  ∃ c, m.perform c = (m', es)

/-- The webview of the handle is there. -/
def Current (m : AppManager H W) (w : Handle) : Prop :=
  ∃ v, m.webviews[w.label]? = some v ∧ v.number = w.number

/-- The webview of the handle is there and its page has a listener under the id. -/
def Stored (m : AppManager H W) (w : Handle) (event : String) (id : EventId) : Prop :=
  ∃ v listener, m.webviews[w.label]? = some v ∧ v.number = w.number ∧
    v.page.find event id = some listener

/-! ### What a call does -/

section Eval

variable (m : AppManager H W) (w : Handle) (script : Page H W → Page H W)

@[simp] theorem eval_jsEventListeners :
    (m.eval w script).jsEventListeners = m.jsEventListeners := by
  rw [eval]
  split
  · rfl
  · split_ifs <;> rfl

theorem getElem?_eval (label : String) : (m.eval w script).webviews[label]? =
    m.webviews[label]?.map fun v =>
      if label = w.label ∧ v.number = w.number then { v with page := script v.page } else v := by
  rw [eval]
  cases hv : m.webviews[w.label]? <;> grind

end Eval

variable {m m' : AppManager H W} {es es' : List JsEffect} {w : Handle} {event : String}
  {target : EventTarget} {id : EventId}

theorem Step.exists_perform (h : Step m es m') : ∃ c, (m.perform c).1 = m' ∧ (m.perform c).2 = es :=
  h.imp fun _ => Prod.ext_iff.mp

/-- What a call does to the application's map: nothing, or one of its two operations, which the
log shows. -/
theorem Step.jsEventListeners (h : Step m es m') :
    (m'.jsEventListeners = m.jsEventListeners ∧
      (∀ w event target id, .listened w event target id ∉ es) ∧
      ∀ w event id, .unlistened w event id ∉ es) ∨
    (∃ w event target id,
      m'.jsEventListeners = Events.listenJs m.jsEventListeners event w.label target id ∧
      es = [.listened w event target id]) ∨
    ∃ w event id, m'.jsEventListeners = Events.unlistenJs m.jsEventListeners event id ∧
      es = [.unlistened w event id] := by
  obtain ⟨c, rfl, rfl⟩ := h.exists_perform
  cases c with
  | listenJs w event target _ dispatched =>
    cases dispatched with
    | false => exact .inl ⟨rfl, by simp [perform], by simp [perform]⟩
    | true =>
      exact .inr (.inl ⟨w, event, target, m.nextEventId, by simp [perform, AppManager.listenJs], rfl⟩)
  | unlistenJs w event id dispatched =>
    cases dispatched with
    | false => exact .inl ⟨rfl, by simp [perform], by simp [perform]⟩
    | true => exact .inr (.inr ⟨w, event, id, by simp [perform, AppManager.unlistenJs], rfl⟩)
  | createWindow =>
    refine .inl ⟨?_, by simp [perform], by simp [perform]⟩
    rw [perform, createWindow]
    split_ifs <;> rfl
  | createWebview =>
    rw [perform, createWebview]
    split_ifs <;> exact .inl ⟨rfl, by simp, by simp⟩
  | closeWindow =>
    rw [perform, onWindowClose]
    split_ifs <;> exact .inl ⟨rfl, by simp, by simp⟩
  | closeWebview | nextEventId => exact .inl ⟨rfl, by simp [perform], by simp [perform]⟩
  | page => exact .inl ⟨by simp [perform], by simp [perform], by simp [perform]⟩

/-- What a call does to the page of a webview: it leaves the listeners, or runs one of the two
scripts, which the log shows. -/
inductive PageStep (w : Handle) (page : Page H W) : List JsEffect → Page H W → Prop
  | keeps {es : List JsEffect} {page' : Page H W} (hlisteners : page'.listeners = page.listeners)
      (hno : ∀ event target id, .listened w event target id ∉ es) : PageStep w page es page'
  | listens (event : String) (target : EventTarget) (handler : Option H) (id : EventId) :
      PageStep w page [.listened w event target id]
        (page.listenJsScript event id ⟨target, handler⟩)
  | unlistens (event : String) (id : EventId) :
      PageStep w page [.unlistened w event id] (page.unlistenJsScript event id)

section Webview

variable {v : Webview H W} (hv : m.webviews[w.label]? = some v) (hnum : v.number = w.number)
include hv hnum

theorem getElem?_eval_self (script : Page H W → Page H W) :
    (m.eval w script).webviews[w.label]? = some { v with page := script v.page } := by
  rw [getElem?_eval, hv, Option.map_some, if_pos ⟨rfl, hnum⟩]

theorem getElem?_eval_of_ne {w' : Handle} (hne : w' ≠ w) (script : Page H W → Page H W) :
    (m.eval w' script).webviews[w.label]? = some v := by
  rw [getElem?_eval, hv, Option.map_some, if_neg]
  rintro ⟨hlbl, hnum'⟩
  refine hne ?_
  cases w'
  cases w
  simp only [Handle.mk.injEq]
  exact ⟨hlbl.symm, hnum'.symm.trans hnum⟩

theorem onWindowClose_webview {label : String} : .closed w ∈ (m.perform (.closeWindow label)).2 ∨
      (m.onWindowClose label).webviews[w.label]? = some v := by
  rw [perform, onWindowClose]
  split_ifs with hwindow
  · have hmem : (w.label, v) ∈ m.webviews.toList := mem_toList_iff_getElem?_eq_some.mpr hv
    by_cases hof : v.windowLabel = label
    · left
      have hw : w = ⟨w.label, v.number⟩ := by rw [hnum]
      rw [hw]
      exact mem_map.mpr ⟨(w.label, v), by simp [webviewsOf, hmem, hof], rfl⟩
    · right
      have hnot : w.label ∉ (m.webviewsOf label).map Prod.fst := by
        intro hin
        obtain ⟨⟨label', v'⟩, hin', rfl⟩ := mem_map.mp hin
        obtain ⟨hmem', hof'⟩ := mem_filter.mp hin'
        have hv' := mem_toList_iff_getElem?_eq_some.mp hmem'
        rw [hv] at hv'
        cases hv'
        exact hof (by simpa using hof')
      simpa only [BTreeMap.getElem?_eraseAll, hnot, if_false] using hv
  · exact .inr hv

theorem webview_eval {w' : Handle} {script : Page H W → Page H W}
    (hself : w' = w → PageStep w v.page es (script v.page))
    (hother : w' ≠ w → ∀ event target id, .listened w event target id ∉ es) :
    ∃ v', (m.eval w' script).webviews[w.label]? = some v' ∧ v'.number = w.number ∧
      PageStep w v.page es v'.page := by
  by_cases hw : w' = w
  · have hself' := hself hw
    rw [hw]
    exact ⟨_, getElem?_eval_self hv hnum script, hnum, hself'⟩
  · exact ⟨v, getElem?_eval_of_ne hv hnum hw script, hnum, .keeps rfl (hother hw)⟩

theorem Step.webview (h : Step m es m') : .closed w ∈ es ∨
      ∃ v', m'.webviews[w.label]? = some v' ∧ v'.number = w.number ∧
        PageStep w v.page es v'.page := by
  obtain ⟨c, rfl, rfl⟩ := h.exists_perform
  have hkeep : (m.perform c).1.webviews[w.label]? = some v →
      (∀ event target id, .listened w event target id ∉ (m.perform c).2) →
        .closed w ∈ (m.perform c).2 ∨ ∃ v', (m.perform c).1.webviews[w.label]? = some v' ∧
          v'.number = w.number ∧ PageStep w v.page (m.perform c).2 v'.page :=
    fun hv' hno => .inr ⟨v, hv', hnum, .keeps rfl hno⟩
  cases c with
  | createWindow =>
    refine hkeep ?_ (by simp [perform])
    rw [perform, createWindow]
    split_ifs <;> exact hv
  | createWebview =>
    refine hkeep ?_ ?_ <;> rw [perform, createWebview] <;> split_ifs with hmem <;> try simp
    · exact hv
    · grind
  | closeWindow =>
    rcases onWindowClose_webview hv hnum with hclosed | hv'
    · exact .inl hclosed
    · refine hkeep hv' ?_
      rw [perform]
      split_ifs <;> simp
  | closeWebview label =>
    by_cases hlbl : label = w.label
    · have hw : w = ⟨w.label, v.number⟩ := by rw [hnum]
      left
      rw [hlbl, hw]
      simp [perform, hv]
    · refine hkeep ?_ (by simp [perform])
      simpa [perform, onWebviewClose, getElem?_erase, hlbl] using hv
  | listenJs w' event target handler dispatched =>
    cases dispatched with
    | false => exact hkeep hv (by simp [perform])
    | true =>
      have hv₁ : ({ m with nextEventId := m.nextEventId + 1 } : AppManager H W).webviews[w.label]? =
          some v := hv
      exact .inr (webview_eval hv₁ hnum
        (fun hw => hw ▸ .listens event target handler m.nextEventId)
        (fun hw => by simp [perform, Ne.symm hw]))
  | unlistenJs w' event id dispatched =>
    cases dispatched with
    | false => exact hkeep hv (by simp [perform])
    | true =>
      exact .inr (webview_eval hv hnum (fun hw => hw ▸ .unlistens event id)
        (fun _ => by simp [perform]))
  | nextEventId => exact hkeep hv (by simp [perform])
  | page =>
    exact .inr (webview_eval hv hnum (fun _ => .keeps rfl (by simp [perform]))
      (fun _ => by simp [perform]))

end Webview

theorem Stored.step (h : Step m es m') (hs : Stored m w event id) :
    .closed w ∈ es ∨ .unlistened w event id ∈ es ∨ Stored m' w event id := by
  obtain ⟨v, l, hv, hnum, hl⟩ := hs
  rcases h.webview hv hnum with hclosed | ⟨v', hv', hnum', hpage⟩
  · exact .inl hclosed
  have hsto : ∀ l', v'.page.find event id = some l' → Stored m' w event id :=
    fun l' hl' => ⟨v', l', hv', hnum', hl'⟩
  generalize v'.page = page at hpage hsto
  cases hpage with
  | keeps hlisteners hno =>
    refine .inr (.inr (hsto l ?_))
    rw [Page.find, hlisteners]
    exact hl
  | listens event' target' handler id' =>
    have hfind := Page.find_listenJsScript v.page event' event id' id ⟨target', handler⟩
    split_ifs at hfind
    · exact .inr (.inr (hsto _ hfind))
    · exact .inr (.inr (hsto l (hfind.trans hl)))
  | unlistens event' id' =>
    by_cases hsame : event' = event ∧ id' = id
    · obtain ⟨rfl, rfl⟩ := hsame
      exact .inr (.inl (mem_singleton.mpr rfl))
    · refine .inr (.inr (hsto l ?_))
      rw [Page.find_unlistenJsScript, if_neg hsame]
      exact hl

theorem Current.stored_of_listened (hw : m.Current w) (h : Step m es m')
    (hlis : .listened w event target id ∈ es) : Stored m' w event id := by
  obtain ⟨v, hv, hnum⟩ := hw
  -- The call has only this effect, so it does not close the webview.
  have hes : es = [.listened w event target id] := by
    rcases h.jsEventListeners with ⟨-, hno, -⟩ | ⟨w', event', target', id', -, rfl⟩ |
      ⟨w', event', id', -, rfl⟩
    · exact absurd hlis (hno w event target id)
    · rw [mem_singleton.mp hlis]
    · cases mem_singleton.mp hlis
  subst hes
  rcases h.webview hv hnum with hclosed | ⟨v', hv', hnum', hpage⟩
  · cases mem_singleton.mp hclosed
  have hsto : ∀ l', v'.page.find event id = some l' → Stored m' w event id :=
    fun l' hl' => ⟨v', l', hv', hnum', hl'⟩
  generalize v'.page = page at hpage hsto
  cases hpage with
  | keeps _ hno => exact absurd hlis (hno event target id)
  | listens _ _ handler =>
    refine hsto ⟨target, handler⟩ ?_
    rw [Page.find_listenJsScript, if_pos ⟨rfl, rfl⟩]

end AppManager

/-! ### Registrations -/

/-- The webview `w` has registered the listener, and no call has removed it since. -/
def Live (es : List JsEffect) (w : Handle) (event : String) (target : EventTarget)
    (id : EventId) : Prop :=
  ∃ es₁ es₂, es = es₁ ++ .listened w event target id :: es₂ ∧ ∀ w', .unlistened w' event id ∉ es₂

section Live

variable {es es' : List JsEffect} {w : Handle} {event : String} {target : EventTarget}
  {id : EventId}

theorem Live.mem (h : Live es w event target id) : .listened w event target id ∈ es := by
  obtain ⟨es₁, es₂, rfl, -⟩ := h
  simp

theorem live_append : Live (es ++ es') w event target id ↔
    Live es' w event target id ∨
      (Live es w event target id ∧ ∀ w', .unlistened w' event id ∉ es') := by
  constructor
  · rintro ⟨es₁, es₂, heq, hno⟩
    rcases append_eq_append_iff.mp heq with ⟨t, rfl, heq'⟩ | ⟨t, rfl, heq'⟩
    · exact .inl ⟨t, es₂, heq', hno⟩
    · -- The registration is in the first part, or it is the first entry of the second.
      cases t with
      | nil => exact .inl ⟨[], es₂, heq'.symm, hno⟩
      | cons e t =>
        obtain ⟨rfl, rfl⟩ := cons.inj heq'
        refine .inr ⟨⟨es₁, t, rfl, fun w' hw' => hno w' (mem_append_left _ hw')⟩, ?_⟩
        exact fun w' hw' => hno w' (mem_append_right _ hw')
  · rintro (⟨es₁, es₂, rfl, hno⟩ | ⟨⟨es₁, es₂, rfl, hno⟩, hno'⟩)
    · exact ⟨es ++ es₁, es₂, by simp, hno⟩
    · refine ⟨es₁, es₂ ++ es', by simp, fun w' hw' => ?_⟩
      rcases mem_append.mp hw' with hw' | hw'
      · exact hno w' hw'
      · exact hno' w' hw'

theorem live_singleton {e : JsEffect} : Live [e] w event target id ↔
    e = .listened w event target id := by
  refine ⟨fun h => (mem_singleton.mp h.mem).symm, ?_⟩
  rintro rfl
  exact ⟨[], [], rfl, fun _ => not_mem_nil⟩

theorem live_append_listened {w' : Handle} {event' : String} {target' : EventTarget}
    {id' : EventId} : Live (es ++ [.listened w' event' target' id']) w event target id ↔
      (w = w' ∧ event = event' ∧ target = target' ∧ id = id') ∨ Live es w event target id := by
  have hno : ∀ v, JsEffect.unlistened v event id ∉ [.listened w' event' target' id'] := by simp
  have heq : JsEffect.listened w' event' target' id' = .listened w event target id ↔
      w = w' ∧ event = event' ∧ target = target' ∧ id = id' := by
    rw [eq_comm, JsEffect.listened.injEq]
  rw [live_append, live_singleton, heq, and_iff_left hno]

theorem live_append_unlistened {w' : Handle} {event' : String} {id' : EventId} :
    Live (es ++ [.unlistened w' event' id']) w event target id ↔
      Live es w event target id ∧ ¬ (event = event' ∧ id = id') := by
  have hno : (∀ v, JsEffect.unlistened v event id ∉ [.unlistened w' event' id']) ↔
      ¬ (event = event' ∧ id = id') := by simp
  have hne : ¬ JsEffect.unlistened w' event' id' = .listened w event target id := by simp
  rw [live_append, live_singleton, hno, or_iff_right hne]

end Live

/-- Listeners are registered by webviews that are there, and a webview is closed when none of its
listeners is left in the application's map. -/
def Orderly (m : AppManager H W) (es : List JsEffect) : Prop :=
  (∀ w event target id, .listened w event target id ∈ es → m.Current w) ∧
    ∀ w, .closed w ∈ es → ∀ event h, ¬ HasJsHandler m.jsEventListeners w.label event h

namespace AppManager

variable {m : AppManager H W} {es : List JsEffect}

/-- The application's map holds, under the labels, the listeners that were registered and not
removed. This is so in every run, whether their webviews are there or not. -/
theorem hasJsHandler_iff_live (h : Execution Step (default : AppManager H W) es m)
    {label event : String} {handler : JsHandler} :
    HasJsHandler m.jsEventListeners label event handler ↔
      ∃ n, Live es ⟨label, n⟩ event handler.target handler.id := by
  refine h.invariant (I := fun es m => HasJsHandler m.jsEventListeners label event handler ↔
    ∃ n, Live es ⟨label, n⟩ event handler.target handler.id) ?_ ?_
  · simp [default, Live]
  · intro es es' m m' _ ih hstep
    rcases hstep.jsEventListeners with ⟨heq, hlis, hunlisten⟩ | ⟨w, ev, target, id, heq, rfl⟩ |
      ⟨w, ev, id, heq, rfl⟩
    · have hnone : ∀ n, ¬ Live es' ⟨label, n⟩ event handler.target handler.id :=
        fun n hlive => hlis _ _ _ _ hlive.mem
      simp only [heq, ih, live_append, hnone, hunlisten, not_false_eq_true, implies_true,
        and_true, false_or]
    · have hh : handler = ⟨target, id⟩ ↔ handler.target = target ∧ handler.id = id := by
        cases handler
        simp
      simp only [heq, hasJsHandler_listenJs, ih, live_append_listened, hh]
      constructor
      · rintro (⟨rfl, rest⟩ | ⟨n, hlive⟩)
        · exact ⟨w.number, .inl ⟨rfl, rest⟩⟩
        · exact ⟨n, .inr hlive⟩
      · grind
    · simp only [heq, hasJsHandler_unlistenJs, ih, live_append_unlistened, exists_and_right]

/-- In an orderly run every listener that was registered and not removed is in the page of its
webview. -/
theorem stored_of_live (h : Execution (guarded Orderly Step) (default : AppManager H W) es m)
    {w : Handle} {event : String} {target : EventTarget} {id : EventId} :
    Live es w event target id → Stored m w event id := by
  refine h.invariant (I := fun es m => Live es w event target id → Stored m w event id) ?_ ?_
  · simp [Live]
  · rintro es es' m m' hrun ih ⟨hstep, hcur, hclosed⟩ hlive
    rcases live_append.mp hlive with hnew | ⟨hold, hno⟩
    · exact (hcur _ _ _ _ hnew.mem).stored_of_listened hstep hnew.mem
    · rcases (ih hold).step hstep with hclose | hunlisten | hs
      · have hhas : HasJsHandler m.jsEventListeners w.label event ⟨target, id⟩ :=
          (hasJsHandler_iff_live (hrun.mono And.left)).mpr ⟨w.number, hold⟩
        exact absurd hhas (hclosed w hclose event _)
      · exact absurd hunlisten (hno w)
      · exact hs

/-! ### Running calls -/

/-- Runs calls one after the other, with the log, up to the first that does not meet the
condition `ok`. -/
def runCalls (ok : AppManager H W → List JsEffect → Bool) :
    List (Call H W) → AppManager H W × List JsEffect → AppManager H W × List JsEffect
  | [], s => s
  | c :: cs, (m, es) =>
    if ok m (m.perform c).2 then runCalls ok cs ((m.perform c).1, es ++ (m.perform c).2)
    else (m, es)

theorem execution_runCalls {ok : AppManager H W → List JsEffect → Bool} {m₀ : AppManager H W}
    (cs : List (Call H W))
    (h : Execution (guarded (fun m es => ok m es) Step) m₀ es m) :
    Execution (guarded (fun m es => ok m es) Step) m₀ (runCalls ok cs (m, es)).2
      (runCalls ok cs (m, es)).1 := by
  induction cs generalizing m es with
  | nil => exact h
  | cons c cs ih =>
    rw [runCalls]
    split_ifs with hok
    · have hnext : guarded (fun m es => ok m es) Step m (m.perform c).2 (m.perform c).1 :=
        ⟨⟨c, rfl⟩, hok⟩
      exact ih (h.next hnext)
    · exact h

/-- A test for `Orderly`. -/
def orderly (m : AppManager H W) (es : List JsEffect) : Bool :=
  es.all fun
    | .listened w _ _ _ => m.webviews[w.label]?.any fun v => v.number == w.number
    | .closed w => m.jsEventListeners[w.label]?.all fun events => events.vals.all HashSet.isEmpty
    | _ => true

theorem orderly_sound (h : m.orderly es = true) : Orderly m es := by
  have hall := all_eq_true.mp h
  refine ⟨fun w event target id hmem => ?_, fun w hmem event handler hhas => ?_⟩
  · obtain ⟨v, hv, hnum⟩ := (Option.any_eq_true ..).mp (hall _ hmem)
    exact ⟨v, hv, by simpa using hnum⟩
  · obtain ⟨handlers, hget, hmem'⟩ := hhas
    obtain ⟨events, hevents, hhs⟩ := Option.bind_eq_some_iff.mp hget
    have hemp := hall _ hmem
    simp only [hevents, Option.all_some, all_eq_true] at hemp
    have hnot := hemp handlers (BTreeMap.mem_vals.mpr ⟨event, hhs⟩)
    rw [HashSet.isEmpty_eq_false_of_mem hmem'] at hnot
    cases hnot

end AppManager

namespace Sample

/-- Running calls from an empty manager. -/
def manage (ok : AppManager Nat Unit → List JsEffect → Bool) (calls : List (Call Nat Unit)) :
    AppManager Nat Unit × List JsEffect :=
  AppManager.runCalls ok calls (.default, [])

theorem execution_manage (ok : AppManager Nat Unit → List JsEffect → Bool)
    (calls : List (Call Nat Unit)) :
    Execution (guarded (fun m es => ok m es) AppManager.Step) .default (manage ok calls).2
      (manage ok calls).1 :=
  AppManager.execution_runCalls calls .start

theorem execution_manage_orderly (calls : List (Call Nat Unit)) :
    Execution (guarded Orderly AppManager.Step) .default (manage AppManager.orderly calls).2
      (manage AppManager.orderly calls).1 := by
  have hguard : ∀ {m : AppManager Nat Unit} {es m'},
      guarded (fun m es => m.orderly es) AppManager.Step m es m' →
      guarded Orderly AppManager.Step m es m' :=
    fun h => ⟨h.1, AppManager.orderly_sound h.2⟩
  exact (execution_manage AppManager.orderly calls).mono hguard

end Sample

end Tauri.Events
