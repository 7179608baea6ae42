import Tauri.Acl.Types
import Tauri.App.Restart
import Tauri.Runtime.Windows

/-!
# The event loop and the last window

`handle_event_loop` handles one event of the operating system or one message at a time. It calls the
callback of the application and the listeners of the window, which may create windows, register
listeners and answer: with `prevent_close` to `CloseRequested`, and with `prevent_exit` to
`ExitRequested`. When the last window is destroyed the application is asked whether it wants to go
on, and the loop ends if it does not object.

Everything that changes the runtime is an `Act`, and `Loop.does` is the one way to do it: it applies
the act and puts it on the record, with the runtime as it was before. A run is a sequence of events,
each with what the handlers answer, so that a callback with a state of its own is covered.

`Sound` is the exit protocol, as a property of the record. **The store is looked at before
`ExitRequested` and not after it**: a window that a handler creates there does not keep the loop
from its end, although one that is created for `Destroyed` does. And of what is sent for
`CloseRequested` only the first value is read. A run without the two is sound, and no other one is
(`sound_run_iff`).
-/

namespace Tauri.Wry

open Rust List Option
open Acl (Target)
open App (ControlFlow)

/-! ### Events -/

/-- The window events of the runtime. `CloseRequested` carries the channel for the answer. -/
inductive WindowEvent where
  | resized
  | moved
  | closeRequested (signalTx : Nat)
  | destroyed
  | scaleFactorChanged
  | focused (focused : Bool)
  | themeChanged
  | dragDrop
  deriving DecidableEq

/-- The events of the callback. -/
inductive RunEvent where
  | ready
  | resumed
  | mainEventsCleared
  | exit
  | exitRequested (code : Option Int32)
  | windowEvent (label : String) (event : WindowEvent)
  | webviewEvent (label : String)
  | userEvent
  | opened
  | reopen
  deriving DecidableEq

/-- The events of a native window; those that nothing is done for are one. -/
inductive TaoWindowEvent where
  | resized
  | moved
  | closeRequested
  | destroyed
  | scaleFactorChanged
  | focused (focused : Bool)
  | themeChanged
  | unreported
  deriving DecidableEq

inductive StartCause where
  | init
  | poll
  | resumeTimeReached
  | waitCancelled
  deriving DecidableEq

/-- `SynthesizedWindowEvent`. -/
inductive SynthesizedWindowEvent where
  | focused (focused : Bool)
  | dragDrop
  deriving DecidableEq

/-- The events of the event loop, with the messages among them. `messages` is any other message, a
task included: what it does on the main thread. -/
inductive Event where
  | newEvents (cause : StartCause)
  | mainEventsCleared
  | loopDestroyed
  | redrawRequested
  | windowEvent (native : Nat) (event : TaoWindowEvent)
  | webviewEvent (window webview : Nat)
  | synthesizedWindowEvent (window : Nat) (event : SynthesizedWindowEvent)
  | requestExit (code : Int32)
  | close (window : Nat)
  | destroy (window : Nat)
  | userEvent
  | messages (messages : List Message)
  | opened
  | reopen
  deriving DecidableEq

/-- `ExitRequestedEventAction`. -/
inductive ExitRequestedEventAction where
  | prevent
  deriving DecidableEq

/-- What a handler does while it is called: the messages it sends, which are handled at once, and
what it sends over the channel of `CloseRequested` or of `ExitRequested`. -/
structure Reply where
  messages : List Message := []
  closeSignals : List Bool := []
  exitActions : List ExitRequestedEventAction := []
  deriving DecidableEq

/-- The code of the application, at one event: the callback, the listeners of the windows and of the
webviews, and the order in which the maps of listeners are visited. -/
structure Handlers where
  callback : RunEvent → Reply := fun _ => {}
  listener : Nat → WindowEvent → Reply := fun _ _ => {}
  webviewListener : Nat → Reply := fun _ => {}
  values : List Nat → List Nat := id
  values_perm : ∀ l, (values l).Perm l := by simp

/-! ### What happens -/

structure Runtime extends Context where
  controlFlow : ControlFlow := .wait

namespace Runtime

def handleUserMessages (s : Runtime) (messages : List Message) : Runtime :=
  { s with toContext := s.toContext.handleUserMessages messages }

end Runtime

/-- What the event loop does. -/
inductive Act where
  /-- The callback is called, and replies. -/
  | callback (event : RunEvent) (reply : Reply)
  | listener (listener : Nat) (event : WindowEvent) (reply : Reply)
  | webviewListener (listener : Nat) (reply : Reply)
  | messages (messages : List Message)
  /-- The answer to a request to close the window is read. -/
  | tryRecv (window signalTx : Nat)
  /-- The window is closed, because of the request with the channel, if there was one. -/
  | close (window : Nat) (signalTx : Option Nat)
  | remove (window : Nat)
  | exit
  deriving DecidableEq

namespace Act

/-- What the act does to the runtime. -/
def effect : Act → Runtime → Runtime
  | callback _ reply, s => s.handleUserMessages reply.messages
  | listener _ _ reply, s => s.handleUserMessages reply.messages
  | webviewListener _ reply, s => s.handleUserMessages reply.messages
  | messages ms, s => s.handleUserMessages ms
  | tryRecv _ _, s => s
  | close window _, s =>
    { s with windows := s.windows.modify window fun w => { w with inner := false } }
  | remove window, s => { s with windows := s.windows.erase window }
  | exit, s => { s with controlFlow := .exit }

/-- The channel of the request that the act is about. -/
def signalTx : Act → Option Nat
  | callback (.windowEvent _ (.closeRequested tx)) _ => some tx
  | listener _ (.closeRequested tx) _ => some tx
  | tryRecv _ tx => some tx
  | close _ tx => tx
  | _ => none

/-- What is sent to the event loop over the channel of a request. -/
def closeSignals : Act → List Bool
  | callback _ reply => reply.closeSignals
  | listener _ _ reply => reply.closeSignals
  | _ => []

end Act

/-- An act, and the runtime before it. -/
structure Record where
  act : Act
  before : Runtime

/-- The runtime after the act. -/
def Record.after (r : Record) : Runtime := r.act.effect r.before

/-- The event loop: the runtime, the next channel, and the record of what has happened, the most
recent first. -/
structure Loop where
  now : Runtime
  nextChannel : Nat := 0
  trace : List Record := []

namespace Loop

variable (h : Handlers) (s : Loop)

def does (a : Act) : Loop := { s with now := a.effect s.now, trace := ⟨a, s.now⟩ :: s.trace }

def callback (event : RunEvent) : Loop := s.does (.callback event (h.callback event))

/-- The handlers of a window, in the order of the map. The map is locked meanwhile: a handler that
registers a listener for the same window does not return, which is not told apart here. -/
def listeners (ids : List Nat) (event : WindowEvent) : Loop :=
  (h.values ids).foldl (fun s id => s.does (.listener id event (h.listener id event))) s

/-- A window event for the callback, and then for the listeners, with those that the callback has
added. -/
def deliver (window : Nat) (event : WindowEvent) : Loop :=
  match s.now.windows[window]? with
  | some w =>
    let s := s.callback h (.windowEvent w.label event)
    s.listeners h ((s.now.windows[window]?.map (·.windowEventListeners)).getD []) event
  | none => s

/-- `on_window_close`. A window that is closed already is left as it is. -/
def onWindowClose (window : Nat) (signalTx : Option Nat) : Loop :=
  if s.now.windows.isOpen window then s.does (.close window signalTx) else s

/-- `on_close_requested`. -/
def onCloseRequested (window : Nat) : Loop :=
  match s.now.windows[window]? with
  | some w =>
    let tx := s.nextChannel
    let event := WindowEvent.closeRequested tx
    let s := { s with nextChannel := tx + 1 }
    let s := s.listeners h w.windowEventListeners event
    let s := s.callback h (.windowEvent w.label event)
    let s := s.does (.tryRecv window tx)
    -- what the listeners and the callback have sent
    let sent := (h.values w.windowEventListeners).flatMap fun id =>
      (h.listener id event).closeSignals
    let sent := sent ++ (h.callback (.windowEvent w.label event)).closeSignals
    if sent.head? = some true then s else s.onWindowClose window (some tx)
  | none => s

/-- `RunEvent::ExitRequested`, and the end of the loop unless the callback prevents it. -/
def exitRequested (code : Option Int32) : Loop :=
  let s := s.callback h (.exitRequested code)
  if (h.callback (.exitRequested code)).exitActions.head? = some .prevent then s else s.does .exit

/-- The branch for `TaoWindowEvent::Destroyed`. -/
def onDestroyed (window : Nat) : Loop :=
  if s.now.windows.contains window then
    let s := s.does (.remove window)
    if s.now.windows.isEmpty then s.exitRequested h none else s
  else s

end Loop

/-- `WindowEventWrapper::parse`. -/
def TaoWindowEvent.parse (target : Target) (w : WindowWrapper) : TaoWindowEvent → Option WindowEvent
  | .resized => if w.inner then some .resized else none
  | .moved => some .moved
  | .destroyed => some .destroyed
  | .scaleFactorChanged => some .scaleFactorChanged
  | .focused b =>
    match target with
    | .linux | .macOS => some (.focused b)
    | _ => none
  | .themeChanged => some .themeChanged
  | .closeRequested | .unreported => none

/-- `WindowEventWrapper::from`. -/
def SynthesizedWindowEvent.parse : SynthesizedWindowEvent → WindowEvent
  | .focused b => .focused b
  | .dragDrop => .dragDrop

namespace Loop

variable (target : Target) (h : Handlers) (s : Loop)

/-- The branch of `handle_event_loop` for the events of a native window. -/
def onWindowEvent (window : Nat) (event : TaoWindowEvent) : Loop :=
  let s := match s.now.windows[window]?.bind (event.parse target) with
    | some parsed => s.deliver h window parsed
    | none => s
  match event with
  | .closeRequested => s.onCloseRequested h window
  | .destroyed => s.onDestroyed h window
  -- `Resized` and `ThemeChanged` are passed on to the webviews
  | _ => s

/-- The branch of `handle_event_loop` for a webview event. -/
def onWebviewEvent (window webview : Nat) : Loop :=
  match (s.now.windows.webviews window).find? (·.id = webview) with
  | some w =>
    let s := s.callback h (.webviewEvent w.label)
    let w := (s.now.windows.webview? webview).getD w
    (h.values w.webviewEventListeners).foldl
      (fun s id => s.does (.webviewListener id (h.webviewListener id))) s
  | none => s

/-- `handle_event_loop`. The control flow is `Exit` or it is not, so that setting it to `Wait` when
it is not `Exit` changes nothing. -/
def handleEventLoop : Event → Loop
  | .newEvents .init => s.callback h .ready
  | .newEvents .poll => s.callback h .resumed
  | .newEvents _ => s
  | .mainEventsCleared => s.callback h .mainEventsCleared
  | .loopDestroyed => s.callback h .exit
  | .redrawRequested => s
  | .windowEvent native event =>
    match s.now.windowIdMap[native]? with
    | some window => s.onWindowEvent target h window event
    | none => s
  | .webviewEvent window webview => s.onWebviewEvent h window webview
  | .synthesizedWindowEvent window event => s.deliver h window event.parse
  | .requestExit code => s.exitRequested h (some code)
  | .close window => s.onCloseRequested h window
  | .destroy window => s.onWindowClose window none
  | .userEvent => s.callback h .userEvent
  | .messages ms => s.does (.messages ms)
  | .opened => s.callback h .opened
  | .reopen => s.callback h .reopen

/-- The events of a run, each with the handlers as they are then. -/
def run (steps : List (Handlers × Event)) : Loop :=
  steps.foldl (fun s step => s.handleEventLoop target step.1 step.2) s

end Loop

/-! ### The exit protocol -/

namespace Record

variable (r : Record)

/-- The store goes from one window to none. -/
def Empties : Prop := r.before.windows.size = 1 ∧ r.after.windows.size = 0

/-- `ExitRequested` without a code. -/
def Asks : Prop := ∃ reply, r.act = .callback (.exitRequested none) reply

/-- An `ExitRequested` that is not prevented. -/
def Leaves : Prop :=
  ∃ code reply, r.act = .callback (.exitRequested code) reply ∧ reply.exitActions = []

end Record

/-- What the handlers have sent over a channel, in this order. -/
def sent (tx : Nat) : List Record → List Bool
  | [] => []
  | r :: t => sent tx t ++ if r.act.signalTx = some tx then r.act.closeSignals else []

/-- The record is the history of the runtime from `start` on: nothing changes between two acts. -/
def History (start : Runtime) : List Record → Runtime → Prop
  | [], now => now = start
  | r :: t, now => now = r.after ∧ History start t r.before

/-- **The exit protocol.** -/
structure Sound (start : Runtime) (s : Loop) : Prop where
  history : History start s.trace s.now
  /-- `ExitRequested` without a code comes right after the store has gone from one window to none,
  and only then. -/
  asked : ∀ r t, r :: t <:+ s.trace → (r.Asks ↔ ∃ q, t.head? = some q ∧ q.Empties)
  /-- It is not still to come. -/
  answered : ∀ q, s.trace.head? = some q → ¬q.Empties
  /-- The control flow is set to `Exit` after an `ExitRequested` that was not prevented, and without
  windows if it had no code. -/
  exits : ∀ r t, r :: t <:+ s.trace → r.act = .exit →
    ∃ q code reply, t.head? = some q ∧ q.act = .callback (.exitRequested code) reply ∧
      reply.exitActions = [] ∧ (code = none → r.before.windows.isEmpty)
  /-- A request to close that a handler has prevented does not close a window. -/
  closes : ∀ tx, true ∈ sent tx s.trace →
    ∀ r ∈ s.trace, ∀ window, r.act ≠ .close window (some tx)

/-- Whoever lets the application exit for want of a window does not create one. -/
def LeavesEmpty (t : List Record) : Prop :=
  ∀ r ∈ t, ∀ reply, r.act = .callback (.exitRequested none) reply → reply.exitActions = [] →
    ∀ m ∈ reply.messages, m.createsWindow = false

/-- Nothing is sent ahead of the answer that is to keep an open window from being closed. -/
def FirstSignal (t : List Record) : Prop :=
  ∀ r ∈ t, ∀ window tx, r.act = .tryRecv window tx → r.before.windows.isOpen window →
    true ∈ sent tx t → (sent tx t).head? = some true

/-! ### One event -/

/-- The act belongs neither to the exit protocol nor to a request to close, and removes nothing. -/
def Act.isPlain : Act → Bool
  | .callback (.exitRequested _) _ => false
  | .callback (.windowEvent _ (.closeRequested _)) _ => false
  | .listener _ (.closeRequested _) _ => false
  | .close _ (some _) => false
  | .tryRecv .. | .remove _ | .exit => false
  | _ => true

theorem TaoWindowEvent.parse_ne_closeRequested {target : Target} {w : WindowWrapper}
    {event : TaoWindowEvent} {parsed : WindowEvent} (h : event.parse target w = some parsed)
    (tx : Nat) : parsed ≠ .closeRequested tx := by
  rintro rfl
  unfold TaoWindowEvent.parse at h
  split at h <;> (try split at h) <;> cases h

namespace Loop

variable {P : Loop → Prop}

theorem deliver_induction (h : Handlers) (s : Loop) (window : Nat) (event : WindowEvent)
    (hev : ∀ tx, event ≠ .closeRequested tx)
    (hdoes : ∀ s a, a.isPlain → P s → P (s.does a)) (hs : P s) : P (s.deliver h window event) := by
  have hcb (label : String) (reply : Reply) :
      (Act.callback (.windowEvent label event) reply).isPlain := by
    cases event with
    | closeRequested tx => exact absurd rfl (hev tx)
    | _ => rfl
  have hlis (id : Nat) (reply : Reply) : (Act.listener id event reply).isPlain := by
    cases event with
    | closeRequested tx => exact absurd rfl (hev tx)
    | _ => rfl
  unfold deliver
  split
  · exact foldlRecOn _ _ (hdoes s _ (hcb _ _) hs) fun s hs id _ =>
      hdoes s _ (hlis id _) hs
  · exact hs

/-- What is kept by plain acts, by requests to exit and to close and by the end of a window is kept
by an event. -/
theorem handleEventLoop_induction (target : Target) (h : Handlers) (s : Loop) (e : Event)
    (hdoes : ∀ s a, a.isPlain → P s → P (s.does a))
    (hexit : ∀ s code, P s → P (s.exitRequested h (some code)))
    (hclose : ∀ s window, P s → P (s.onCloseRequested h window))
    (hdestroyed : ∀ s window, P s → P (s.onDestroyed h window)) (hs : P s) :
    P (s.handleEventLoop target h e) := by
  have hdeliver := fun window event hev =>
    deliver_induction (P := P) h s window event hev hdoes hs
  cases e with
  | newEvents cause =>
    cases cause with
    | init | poll => exact hdoes _ _ rfl hs
    | resumeTimeReached | waitCancelled => exact hs
  | mainEventsCleared | loopDestroyed | userEvent | opened | reopen | messages ms =>
    exact hdoes _ _ rfl hs
  | redrawRequested => exact hs
  | windowEvent _ event =>
    simp only [handleEventLoop, onWindowEvent]
    split
    case h_2 => exact hs
    case h_1 window _ =>
      have hdelivered : P (match s.now.windows[window]?.bind (event.parse target) with
          | some parsed => s.deliver h window parsed
          | none => s) := by
        split
        case h_2 => exact hs
        case h_1 parsed hparsed =>
          obtain ⟨w, -, hparsed⟩ := bind_eq_some_iff.mp hparsed
          exact hdeliver window parsed (TaoWindowEvent.parse_ne_closeRequested hparsed)
      split
      · exact hclose _ _ hdelivered
      · exact hdestroyed _ _ hdelivered
      · exact hdelivered
  | webviewEvent =>
    simp only [handleEventLoop, onWebviewEvent]
    split
    · exact foldlRecOn _ _ (hdoes _ _ rfl hs) fun s hs _ _ => hdoes s _ rfl hs
    · exact hs
  | synthesizedWindowEvent window event =>
    refine hdeliver window event.parse ?_
    cases event <;> simp [SynthesizedWindowEvent.parse]
  | requestExit => exact hexit _ _ hs
  | close => exact hclose _ _ hs
  | destroy =>
    simp only [handleEventLoop, onWindowClose]
    split
    · exact hdoes _ _ rfl hs
    · exact hs

end Loop

/-! ### One act -/

/-- The act belongs to the exit protocol. -/
def Act.ofExit : Act → Bool
  | .callback (.exitRequested _) _ => true
  | .exit => true
  | _ => false

variable {a : Act}

theorem Act.ofExit_of_isPlain (ha : a.isPlain) : a.ofExit = false := by
  cases a with
  | callback event => cases event <;> first | rfl | cases ha
  | exit => cases ha
  | _ => rfl

theorem Act.signalTx_of_isPlain (ha : a.isPlain) : a.signalTx = none := by
  unfold Act.signalTx
  split
  · cases ha
  · cases ha
  · cases ha
  · rename_i tx
    cases tx with
    | none => rfl
    | some tx => cases ha
  · rfl

open Std.ExtTreeMap

theorem Act.size_le_effect (ha : ∀ window, a ≠ .remove window) (s : Runtime) :
    s.windows.size ≤ (a.effect s).windows.size := by
  cases a with
  | callback _ reply | listener _ _ reply | webviewListener _ reply =>
    exact s.size_le_handleUserMessages reply.messages
  | messages ms => exact s.size_le_handleUserMessages ms
  | close => exact size_modify.ge
  | remove window => exact absurd rfl (ha window)
  | tryRecv | exit => exact le_rfl

theorem Record.not_empties {r : Record} (hr : ∀ window, r.act ≠ .remove window) : ¬r.Empties := by
  rintro ⟨hone, hnone⟩
  have hle := Act.size_le_effect hr r.before
  unfold Record.after at hnone
  omega

/-- How a record of the exit protocol goes with the one before it. -/
structure Record.Fits (r : Record) (t : List Record) : Prop where
  asks_iff : r.Asks ↔ ∃ q, t.head? = some q ∧ q.Empties
  exit_iff : r.act = .exit ↔ ∃ q, t.head? = some q ∧ q.Leaves

/-- The record keeps to the exit protocol, whatever is created meanwhile. -/
structure Regular (start : Runtime) (s : Loop) : Prop where
  history : History start s.trace s.now
  fits : ∀ r t, r :: t <:+ s.trace → r.Fits t

/-- Between two events nothing of the exit protocol is open. -/
structure Settled (start : Runtime) (s : Loop) : Prop extends Regular start s where
  quiet : ∀ q, s.trace.head? = some q → ¬q.Empties ∧ ¬q.Leaves

variable {start : Runtime} {s : Loop} {h : Handlers}

theorem Regular.does (hs : Regular start s) (ha : Record.Fits ⟨a, s.now⟩ s.trace) :
    Regular start (s.does a) where
  history := ⟨rfl, hs.history⟩
  fits := by
    intro r t hsuf
    rcases suffix_cons_iff.mp hsuf with heq | hsuf
    · obtain ⟨rfl, rfl⟩ := cons.inj heq
      exact ha
    · exact hs.fits r t hsuf

namespace Settled

variable {a : Act}

variable (hs : Settled start s)
include hs

theorem fits_does (ha : a.ofExit = false) :
    Record.Fits ⟨a, s.now⟩ s.trace where
  asks_iff := by
    constructor
    · rintro ⟨reply, rfl⟩
      cases ha
    · rintro ⟨q, hq, hempties⟩
      exact absurd hempties (hs.quiet q hq).1
  exit_iff := by
    constructor
    · rintro rfl
      cases ha
    · rintro ⟨q, hq, hleaves⟩
      exact absurd hleaves (hs.quiet q hq).2

theorem does_of_not_empties (ha : a.ofExit = false) (hempties : ¬Record.Empties ⟨a, s.now⟩) :
    Settled start (s.does a) where
  toRegular := hs.toRegular.does (hs.fits_does ha)
  quiet := by
    intro q hq
    obtain rfl : _ = q := some.inj hq
    refine ⟨hempties, ?_⟩
    rintro ⟨code, reply, hact, -⟩
    change a = _ at hact
    rw [hact] at ha
    cases ha

theorem does (ha : a.ofExit = false) (hremove : ∀ window, a ≠ .remove window) :
    Settled start (s.does a) :=
  hs.does_of_not_empties ha (Record.not_empties hremove)

theorem callback {event : RunEvent} (hev : ∀ code, event ≠ .exitRequested code) :
    Settled start (s.callback h event) := by
  refine hs.does ?_ (by simp)
  cases event with
  | exitRequested code => exact absurd rfl (hev code)
  | _ => rfl

theorem listeners (ids : List Nat) (event : WindowEvent) :
    Settled start (s.listeners h ids event) :=
  foldlRecOn (h.values ids) _ hs fun _ hs _ _ => hs.does rfl (by simp)

theorem onWindowClose (window : Nat) (tx : Option Nat) :
    Settled start (s.onWindowClose window tx) := by
  unfold Loop.onWindowClose
  split
  · exact hs.does rfl (by simp)
  · exact hs

theorem setChannel (n : Nat) : Settled start { s with nextChannel := n } :=
  ⟨⟨hs.history, hs.fits⟩, hs.quiet⟩

theorem onCloseRequested (window : Nat) : Settled start (s.onCloseRequested h window) := by
  unfold Loop.onCloseRequested
  split
  · rename_i w _
    let event := WindowEvent.closeRequested s.nextChannel
    have hasked :=
      (hs.setChannel (s.nextChannel + 1)).listeners (h := h) w.windowEventListeners event
    have hread : Settled start ((Loop.callback h _ (.windowEvent w.label event)).does
        (.tryRecv window s.nextChannel)) := (hasked.callback (by simp)).does rfl (by simp)
    dsimp only
    split
    · exact hread
    · exact hread.onWindowClose _ _
  · exact hs

end Settled

theorem Regular.exitRequested (hs : Regular start s) {code : Option Int32}
    (hleaves : ∀ q, s.trace.head? = some q → ¬q.Leaves)
    (hcode : code = none ↔ ∃ q, s.trace.head? = some q ∧ q.Empties) :
    Settled start (s.exitRequested h code) := by
  set reply := h.callback (.exitRequested code) with hreply
  let r : Record := ⟨.callback (.exitRequested code) reply, s.now⟩
  have hempties : ¬r.Empties := Record.not_empties (by simp [r])
  have hfits : r.Fits s.trace := by
    constructor
    · rw [← hcode]
      simp [Record.Asks, r]
    · simp only [r, reduceCtorEq, false_iff, not_exists, not_and]
      exact hleaves
  have hcalled : Regular start (s.callback h (.exitRequested code)) := hs.does hfits
  have hprevent : reply.exitActions.head? = some .prevent ↔ reply.exitActions ≠ [] := by
    cases reply.exitActions with
    | nil => simp
    | cons action _ => cases action; simp
  unfold Loop.exitRequested
  dsimp only
  rw [← hreply]
  split
  case isTrue hprev =>
    refine ⟨hcalled, ?_⟩
    intro q hq
    obtain rfl : r = q := some.inj hq
    refine ⟨hempties, ?_⟩
    rintro ⟨code', reply', hact, hnil⟩
    obtain ⟨-, rfl⟩ : RunEvent.exitRequested code = .exitRequested code' ∧ reply = reply' := by
      simpa [r] using hact
    exact hprevent.mp hprev hnil
  case isFalse hprev =>
    have hnil : reply.exitActions = [] := by
      by_contra hne
      exact hprev (hprevent.mpr hne)
    refine ⟨hcalled.does ⟨?_, ?_⟩, ?_⟩
    · -- no second request: the callback has not emptied the store
      refine iff_of_false (by simp [Record.Asks]) ?_
      rintro ⟨q, hq, hq'⟩
      obtain rfl : r = q := some.inj hq
      exact hempties hq'
    · exact iff_of_true rfl ⟨r, rfl, code, reply, rfl, hnil⟩
    · intro q hq
      obtain rfl : _ = q := some.inj hq
      exact ⟨Record.not_empties (by simp), by simp [Record.Leaves]⟩

namespace Settled

theorem onDestroyed (hs : Settled start s) (window : Nat) :
    Settled start (s.onDestroyed h window) := by
  unfold Loop.onDestroyed
  split
  case isFalse => exact hs
  case isTrue hmem =>
    let r : Record := ⟨.remove window, s.now⟩
    have hsize : r.after.windows.size = s.now.windows.size - 1 := by
      simp [r, Record.after, Act.effect, size_erase, hmem]
    have hpos : s.now.windows.size ≠ 0 := by
      intro hzero
      rw [eq_empty_iff_size_eq_zero.mpr hzero] at hmem
      simp at hmem
    have hemp : (s.does (.remove window)).now.windows.isEmpty ↔ r.Empties := by
      change r.after.windows.isEmpty ↔ s.now.windows.size = 1 ∧ r.after.windows.size = 0
      rw [isEmpty_eq_size_beq_zero, beq_iff_eq, hsize]
      omega
    dsimp only
    split
    case isFalse hne => exact hs.does_of_not_empties rfl (mt hemp.mpr hne)
    case isTrue he =>
      refine (hs.toRegular.does (hs.fits_does rfl)).exitRequested ?_ ?_
      · intro q hq
        obtain rfl : r = q := some.inj hq
        simp [Record.Leaves, r]
      · exact iff_of_true rfl ⟨r, rfl, hemp.mp he⟩

/-- **Step.** -/
theorem handleEventLoop (hs : Settled start s) (target : Target) (e : Event) :
    Settled start (s.handleEventLoop target h e) :=
  s.handleEventLoop_induction target h e
    (fun _ _ ha hs => hs.does (Act.ofExit_of_isPlain ha) (by rintro _ rfl; cases ha))
    (fun _ code hs => hs.toRegular.exitRequested (fun q hq => (hs.quiet q hq).2)
      (iff_of_false (some_ne_none code) fun ⟨q, hq, hempties⟩ => (hs.quiet q hq).1 hempties))
    (fun _ window hs => hs.onCloseRequested window) (fun _ window hs => hs.onDestroyed window) hs

end Settled

/-! ### Requests to close -/

/-- The act calls a handler. -/
def Act.isCall : Act → Bool
  | .callback .. | .listener .. | .webviewListener .. => true
  | _ => false

variable {n tx : Nat} {l t : List Record}

theorem sent_append (tx : Nat) (l t : List Record) : sent tx (l ++ t) = sent tx t ++ sent tx l := by
  induction l with
  | nil => simp [sent]
  | cons r l ih => simp [sent, ih]

theorem sent_eq_nil (h : ∀ r ∈ t, r.act.signalTx = some tx → r.act.closeSignals = []) :
    sent tx t = [] := by
  induction t with
  | nil => rfl
  | cons r t ih =>
    obtain ⟨hr, ht⟩ := forall_mem_cons.mp h
    simpa [sent, ih ht] using hr

/-- Every channel is read once, and what was sent over it first decides. -/
structure Channels (n : Nat) (t : List Record) : Prop where
  lt : ∀ r ∈ t, ∀ tx, r.act.signalTx = some tx → tx < n
  read : ∀ r ∈ t, ∀ tx, r.act.signalTx = some tx → ∃ q ∈ t, ∃ window, q.act = .tryRecv window tx
  decided : ∀ r ∈ t, ∀ window tx, r.act = .tryRecv window tx →
    ((∃ q ∈ t, ∃ window', q.act = .close window' (some tx)) ↔
      r.before.windows.isOpen window ∧ (sent tx t).head? ≠ some true)

namespace Channels

theorem cons (ht : Channels n t) {r : Record} (hr : r.act.signalTx = none) :
    Channels n (r :: t) where
  lt := by
    refine forall_mem_cons.mpr ⟨?_, ht.lt⟩
    intro tx htx
    cases hr.symm.trans htx
  read := by
    refine forall_mem_cons.mpr ⟨?_, ?_⟩
    · intro tx htx
      cases hr.symm.trans htx
    · intro q hq tx htx
      obtain ⟨v, hv, window, hread⟩ := ht.read q hq tx htx
      exact ⟨v, mem_cons_of_mem r hv, window, hread⟩
  decided := by
    refine forall_mem_cons.mpr ⟨?_, ?_⟩
    · intro window tx hread
      rw [hread] at hr
      cases hr
    · intro v hv window tx hread
      have hsent : sent tx (r :: t) = sent tx t := by simp [sent, hr]
      have hclose : ∀ window', r.act ≠ .close window' (some tx) := by
        intro window' hclose
        rw [hclose] at hr
        cases hr
      rw [hsent, ← ht.decided v hv window tx hread]
      simp [hclose]

theorem append (ht : Channels n t) (hl : ∀ r ∈ l, r.act.signalTx = some n)
    (hread : ∃ q ∈ l, ∃ window, q.act = .tryRecv window n)
    (hdecided : ∀ r ∈ l, ∀ window, r.act = .tryRecv window n →
      ((∃ q ∈ l, ∃ window', q.act = .close window' (some n)) ↔
        r.before.windows.isOpen window ∧ (sent n l).head? ≠ some true)) :
    Channels (n + 1) (l ++ t) := by
  have hold : ∀ r ∈ t, r.act.signalTx ≠ some n := fun r hr htx => (ht.lt r hr n htx).false
  have hsentNew : sent n (l ++ t) = sent n l := by
    rw [sent_append, sent_eq_nil fun r hr htx => absurd htx (hold r hr), nil_append]
  have hsentOld {tx : Nat} (htx : tx < n) : sent tx (l ++ t) = sent tx t := by
    have hnil : sent tx l = [] :=
      sent_eq_nil fun r hr h => absurd (some.inj (h.symm.trans (hl r hr))) htx.ne
    rw [sent_append, hnil, append_nil]
  refine ⟨?_, ?_, ?_⟩
  · intro r hr tx htx
    rcases mem_append.mp hr with hr | hr
    · obtain rfl := some.inj (htx.symm.trans (hl r hr))
      exact Nat.lt_succ_self tx
    · exact (ht.lt r hr tx htx).trans (Nat.lt_succ_self n)
  · intro r hr tx htx
    rcases mem_append.mp hr with hr | hr
    · grind
    · obtain ⟨q, hq, window, hact⟩ := ht.read r hr tx htx
      exact ⟨q, mem_append_right _ hq, window, hact⟩
  · intro r hr window tx hact
    have htx : r.act.signalTx = some tx := by rw [hact]; rfl
    rcases mem_append.mp hr with hr | hr
    · obtain rfl := some.inj (htx.symm.trans (hl r hr))
      rw [hsentNew, ← hdecided r hr window hact]
      simp only [mem_append, or_and_right, exists_or]
      refine or_iff_left ?_
      rintro ⟨q, hq, window', hclose⟩
      exact hold q hq (by rw [hclose]; rfl)
    · have hlt := ht.lt r hr tx htx
      rw [hsentOld hlt, ← ht.decided r hr window tx hact]
      simp only [mem_append, or_and_right, exists_or]
      refine or_iff_right ?_
      rintro ⟨q, hq, window', hclose⟩
      have hn := hl q hq
      rw [hclose] at hn
      exact hlt.ne (some.inj hn)

/-- A request to close: the handlers are called, the answer is read, and the window is closed if it
is open and the first thing sent is not `true`. -/
theorem request (ht : Channels n t) (hl : ∀ r ∈ l, r.act.signalTx = some n ∧ r.act.isCall)
    (window : Nat) (now : Runtime) {c : List Record}
    (hc : c = if now.windows.isOpen window ∧ (sent n l).head? ≠ some true then
      [⟨.close window (some n), now⟩] else []) :
    Channels (n + 1) (c ++ ⟨.tryRecv window n, now⟩ :: l ++ t) := by
  let v : Record := ⟨.tryRecv window n, now⟩
  have hcl : ∀ r ∈ c, r = ⟨.close window (some n), now⟩ := by simp_all
  have hsent : sent n (c ++ ⟨.tryRecv window n, now⟩ :: l) = sent n l := by
    have hnil : sent n c = [] := by
      refine sent_eq_nil fun r hr _ => ?_
      rw [hcl r hr]
      rfl
    simp [sent_append, sent, hnil, Act.closeSignals]
  refine ht.append ?_ ⟨v, by simp [v], window, rfl⟩ ?_
  · simp only [forall_mem_append, forall_mem_cons]
    refine ⟨fun r hr => ?_, rfl, fun r hr => (hl r hr).1⟩
    rw [hcl r hr]
    rfl
  · rw [hsent]
    simp only [forall_mem_append, forall_mem_cons]
    refine ⟨?_, ?_, ?_⟩
    · simp_all
    · intro window' hact
      obtain ⟨rfl, -⟩ := Act.tryRecv.inj hact
      by_cases hcond : now.windows.isOpen window ∧ (sent n l).head? ≠ some true
      · simp_all
      · rw [if_neg hcond] at hc
        refine iff_of_false ?_ hcond
        rintro ⟨q, hq, window', hclose⟩
        rw [hc, nil_append] at hq
        rcases mem_cons.mp hq with rfl | hq
        · cases hclose
        · have hcall := (hl q hq).2
          rw [hclose] at hcall
          cases hcall
    · intro r hr window' hact
      have hcall := (hl r hr).2
      rw [hact] at hcall
      cases hcall

variable (hs : Channels s.nextChannel s.trace)
include hs

theorem does {a : Act} (ha : a.signalTx = none) :
    Channels (s.does a).nextChannel (s.does a).trace :=
  hs.cons ha

theorem exitRequested (code : Option Int32) :
    Channels (s.exitRequested h code).nextChannel (s.exitRequested h code).trace := by
  have hcalled : Channels (s.callback h (.exitRequested code)).nextChannel
      (s.callback h (.exitRequested code)).trace := hs.does rfl
  unfold Loop.exitRequested
  dsimp only
  split
  · exact hcalled
  · exact hcalled.does rfl

theorem onDestroyed (window : Nat) :
    Channels (s.onDestroyed h window).nextChannel (s.onDestroyed h window).trace := by
  have hrm : Channels (s.does (.remove window)).nextChannel (s.does (.remove window)).trace :=
    hs.does rfl
  unfold Loop.onDestroyed
  split
  · dsimp only
    split
    · exact hrm.exitRequested none
    · exact hrm
  · exact hs

end Channels

theorem Loop.exists_trace_listeners (h : Handlers) (s : Loop) (ids : List Nat) (tx : Nat) :
    ∃ l, (s.listeners h ids (.closeRequested tx)).trace = l ++ s.trace ∧
      (∀ r ∈ l, r.act.signalTx = some tx ∧ r.act.isCall) ∧
      sent tx l =
        (h.values ids).flatMap fun id => (h.listener id (.closeRequested tx)).closeSignals := by
  unfold Loop.listeners
  induction h.values ids generalizing s with
  | nil => exact ⟨[], rfl, by simp, rfl⟩
  | cons id ids ih =>
    let a := Act.listener id (.closeRequested tx) (h.listener id (.closeRequested tx))
    obtain ⟨l, htrace, hl, hsent⟩ := ih (s.does a)
    refine ⟨l ++ [⟨a, s.now⟩], ?_, ?_, ?_⟩
    · rw [foldl_cons, htrace]
      simp [Loop.does]
    · simp only [forall_mem_append, forall_mem_singleton]
      exact ⟨hl, rfl, rfl⟩
    · rw [sent_append, hsent]
      simp [sent, a, Act.signalTx, Act.closeSignals]

@[simp]
theorem Loop.nextChannel_listeners (h : Handlers) (s : Loop) (ids : List Nat)
    (event : WindowEvent) :
    (s.listeners h ids event).nextChannel = s.nextChannel :=
  foldlRecOn (motive := fun s' : Loop => s'.nextChannel = s.nextChannel) (h.values ids) _ rfl
    fun _ hs _ _ => hs

theorem Channels.onCloseRequested (hs : Channels s.nextChannel s.trace) (window : Nat) :
    Channels (s.onCloseRequested h window).nextChannel (s.onCloseRequested h window).trace := by
  unfold Loop.onCloseRequested
  split
  case h_2 => exact hs
  case h_1 w _ =>
    let event := WindowEvent.closeRequested s.nextChannel
    let opened : Loop := { s with nextChannel := s.nextChannel + 1 }
    obtain ⟨l, htrace, hl, hsent⟩ :=
      opened.exists_trace_listeners h w.windowEventListeners s.nextChannel
    let asked := opened.listeners h w.windowEventListeners event
    let called := asked.callback h (.windowEvent w.label event)
    let r : Record :=
      ⟨.callback (.windowEvent w.label event) (h.callback (.windowEvent w.label event)), asked.now⟩
    have hcalls : ∀ q ∈ r :: l, q.act.signalTx = some s.nextChannel ∧ q.act.isCall :=
      List.forall_mem_cons.mpr ⟨⟨rfl, rfl⟩, hl⟩
    have hcalled : called.trace = r :: l ++ s.trace := congrArg (List.cons r) htrace
    have hchannel : called.nextChannel = s.nextChannel + 1 := opened.nextChannel_listeners h _ _
    have hsent' : sent s.nextChannel (r :: l) =
        (h.values w.windowEventListeners).flatMap (fun id => (h.listener id event).closeSignals) ++
          (h.callback (.windowEvent w.label event)).closeSignals := by
      rw [sent, if_pos (hcalls r List.mem_cons_self).1, hsent]
      rfl
    have hread (c : List Record)
        (hc : c = if called.now.windows.isOpen window ∧
          (sent s.nextChannel (r :: l)).head? ≠ some true then
            [⟨.close window (some s.nextChannel), called.now⟩] else []) :
        Channels called.nextChannel (c ++ ⟨.tryRecv window s.nextChannel, called.now⟩ ::
          called.trace) := by
      have hreq := hs.request hcalls window called.now hc
      rw [List.append_assoc, List.cons_append, ← hcalled, ← hchannel] at hreq
      exact hreq
    rw [hsent'] at hread
    dsimp only
    split
    case isTrue hprev => exact hread [] (if_neg fun hcond => hcond.2 hprev).symm
    case isFalse hprev =>
      unfold Loop.onWindowClose
      split
      case isTrue hopen => exact hread _ (if_pos ⟨hopen, hprev⟩).symm
      case isFalse hopen => exact hread [] (if_neg fun hcond => hopen hcond.1).symm

/-- **Step.** -/
theorem Channels.handleEventLoop (hs : Channels s.nextChannel s.trace) (target : Target)
    (e : Event) : Channels (s.handleEventLoop target h e).nextChannel
      (s.handleEventLoop target h e).trace :=
  s.handleEventLoop_induction (P := fun s => Channels s.nextChannel s.trace) target h e
    (fun _ _ ha hs => hs.does (Act.signalTx_of_isPlain ha))
    (fun _ code hs => hs.exitRequested (some code)) (fun _ window hs => hs.onCloseRequested window)
    (fun _ window hs => hs.onDestroyed window) hs

/-! ### Runs -/

/-- **Run.** -/
theorem settled_run (target : Target) (start : Runtime) (steps : List (Handlers × Event)) :
    Settled start (Loop.run target ⟨start, 0, []⟩ steps) := by
  refine foldlRecOn steps _ ⟨⟨rfl, ?_⟩, ?_⟩ fun _ hs step _ => hs.handleEventLoop target step.2
  · intro r t hsuf
    simp at hsuf
  · simp

theorem channels_run (target : Target) (start : Runtime) (steps : List (Handlers × Event)) :
    Channels (Loop.run target ⟨start, 0, []⟩ steps).nextChannel
      (Loop.run target ⟨start, 0, []⟩ steps).trace := by
  refine foldlRecOn (motive := fun s : Loop => Channels s.nextChannel s.trace) steps _ ?_
    fun _ hs step _ => hs.handleEventLoop target step.2
  constructor <;> simp

theorem History.before_eq {now : Runtime} {r q : Record} (hs : History start t now)
    (hsuf : r :: q :: l <:+ t) : r.before = q.after := by
  induction t generalizing now with
  | nil => simp at hsuf
  | cons p t ih =>
    rcases suffix_cons_iff.mp hsuf with heq | hsuf
    · obtain ⟨rfl, rfl⟩ := cons.inj heq
      exact hs.2.1
    · exact ih hs.2 hsuf

namespace Settled

theorem isEmpty_iff (hs : Settled start s) {r q : Record} {reply : Reply}
    (hsuf : r :: q :: t <:+ s.trace) (hq : q.act = .callback (.exitRequested none) reply) :
    r.before.windows.isEmpty ↔ ∀ m ∈ reply.messages, m.createsWindow = false := by
  have hsuffix' : q :: t <:+ s.trace := (suffix_cons r (q :: t)).trans hsuf
  obtain ⟨p, hp, -, hemp⟩ := (hs.fits q t hsuffix').asks_iff.mp ⟨reply, hq⟩
  obtain ⟨t', rfl⟩ := head?_eq_some_iff.mp hp
  rw [← hs.history.before_eq hsuffix'] at hemp
  rw [hs.history.before_eq hsuf, Record.after, hq]
  refine q.before.isEmpty_handleUserMessages ?_ reply.messages
  rw [isEmpty_eq_size_beq_zero, hemp]
  rfl

theorem exists_exit (hs : Settled start s) {q : Record} (hq : q ∈ s.trace) (hleaves : q.Leaves) :
    ∃ r t, r :: q :: t <:+ s.trace ∧ r.act = .exit := by
  obtain ⟨l, t, htrace⟩ := append_of_mem hq
  rcases eq_nil_or_concat l with rfl | ⟨l, r, rfl⟩
  · exact absurd hleaves (hs.quiet q (by simp [htrace])).2
  · have hsuf : r :: q :: t <:+ s.trace := ⟨l, by simp [htrace]⟩
    exact ⟨r, t, hsuf, (hs.fits r (q :: t) hsuf).exit_iff.mpr ⟨q, rfl, hleaves⟩⟩

end Settled

/-- **The application exits by itself only without windows**, and a request to close that was
prevented closes nothing, exactly in the runs in which the callback does not create a window for an
`ExitRequested` without a code that it lets pass, and in which the first value sent for a request to
close an open window is `true` if any is. -/
theorem sound_run_iff (target : Target) (start : Runtime) (steps : List (Handlers × Event)) :
    Sound start (Loop.run target ⟨start, 0, []⟩ steps) ↔
      LeavesEmpty (Loop.run target ⟨start, 0, []⟩ steps).trace ∧
        FirstSignal (Loop.run target ⟨start, 0, []⟩ steps).trace := by
  have hs := settled_run target start steps
  have hch := channels_run target start steps
  generalize Loop.run target ⟨start, 0, []⟩ steps = s at hs hch
  constructor
  · intro hsound
    constructor
    · intro q hq reply hact hnil
      obtain ⟨r, t, hsuf, hexit⟩ := hs.exists_exit hq ⟨none, reply, hact, hnil⟩
      obtain ⟨q', code, reply', hq', hact', -, hemp⟩ := hsound.exits r (q :: t) hsuf hexit
      obtain rfl : q = q' := some.inj hq'
      obtain ⟨rfl, rfl⟩ : code = none ∧ reply' = reply := by simpa using hact'.symm.trans hact
      exact (hs.isEmpty_iff hsuf hact).mp (hemp rfl)
    · intro r hr window tx hread hopen htrue
      by_contra hfirst
      obtain ⟨q, hq, window', hclose⟩ := (hch.decided r hr window tx hread).mpr ⟨hopen, hfirst⟩
      exact hsound.closes tx htrue q hq window' hclose
  · rintro ⟨hleaves, hfirst⟩
    refine ⟨hs.history, fun r t h => (hs.fits r t h).asks_iff, fun q hq => (hs.quiet q hq).1,
      ?_, ?_⟩
    · intro r t hsuf hexit
      obtain ⟨q, hq, code, reply, hact, hnil⟩ := (hs.fits r t hsuf).exit_iff.mp hexit
      refine ⟨q, code, reply, hq, hact, hnil, ?_⟩
      rintro rfl
      obtain ⟨t', rfl⟩ := head?_eq_some_iff.mp hq
      have hmem : q ∈ s.trace := hsuf.mem (by simp)
      exact (hs.isEmpty_iff hsuf hact).mpr (hleaves q hmem reply hact hnil)
    · intro tx htrue r hr window hclose
      obtain ⟨q, hq, window', hread⟩ := hch.read r hr tx (by rw [hclose]; rfl)
      obtain ⟨hopen, hne⟩ := (hch.decided q hq window' tx hread).mp ⟨r, hr, window, hclose⟩
      exact hne (hfirst q hq window' tx hread hopen htrue)

namespace Sample

/-- One window, with a listener. -/
def main : Runtime where
  windows := (∅ : WindowsStore).insert 0 { label := "main", windowEventListeners := [3] }
  windowIdMap := (∅ : BTreeMap Nat Nat).insert 7 0

/-- The application creates its next window when it is asked whether it wants to exit. -/
def creating : Handlers where
  callback
    | .exitRequested none => { messages := [.createWindow 1 8 "next" (some [])] }
    | _ => {}

/-- The listener has nothing against closing the window, and the callback has. -/
def divided : Handlers where
  listener _ _ := { closeSignals := [false] }
  callback _ := { closeSignals := [true] }

end Sample

/-- The last window is destroyed and the application exits with the window that it has created, and
a window is closed although the callback has prevented it. -/
theorem lastWindow_not_sound :
    ¬Sound Sample.main
        (Loop.run .linux ⟨Sample.main, 0, []⟩ [(Sample.creating, .windowEvent 7 .destroyed)]) ∧
      ¬Sound Sample.main
        (Loop.run .linux ⟨Sample.main, 0, []⟩
          [(Sample.divided, .windowEvent 7 .closeRequested)]) := by
  constructor
  · intro hs
    obtain ⟨q, code, reply, hq, hact, -, hemp⟩ := hs.exits _ _ (suffix_refl _) rfl
    obtain rfl := some.inj hq
    obtain ⟨rfl, -⟩ : code = none ∧ _ := by simpa using hact.symm
    cases hemp rfl
  · intro hs
    exact hs.closes 0 (by decide) _ mem_cons_self 0 rfl

end Tauri.Wry
