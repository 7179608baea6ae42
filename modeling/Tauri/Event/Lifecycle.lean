import Tauri.Event.JsListeners

/-!
# Listeners of closed webviews

Closing a window removes it and its webviews from the manager, and closing a webview removes the
webview; nothing removes the entries that a webview has in the application's map of listeners. A
listener that was not removed by its page outlives it, and speaks for the next webview with the
label: a window is not closed on request while some listener for its close requests is in the map,
since the listener is expected to destroy the window. With the listener of an old page there is
none that will.

Where pages remove their listeners before they are closed, every listener in the map belongs to a
webview that is there.
-/

namespace Tauri.Events

open Rust

variable {H W : Type}

/-- `WINDOW_CLOSE_REQUESTED_EVENT`. -/
def windowCloseRequestedEvent : String := "tauri://close-requested"

/-- The targets that `Window::has_js_listener` looks for. -/
def forWindow (windowLabel : String) : EventTarget → Bool
  | .window label | .webviewWindow label => label == windowLabel
  | _ => false

namespace AppManager

/-- `on_window_event` at a `CloseRequested` event: whether the close is prevented. -/
def preventsClose (m : AppManager H W) (windowLabel : String) : Bool :=
  hasJsListener m.jsEventListeners windowCloseRequestedEvent (forWindow windowLabel)

variable {m : AppManager H W} {es : List JsEffect}

/-- What makes `has_js_listener` true, in any run: a registration that no call has removed, of a
webview that is there or not. -/
theorem hasJsListener_iff_live (h : Execution Step (default : AppManager H W) es m)
    {event : String} {filter : EventTarget → Bool} :
    hasJsListener m.jsEventListeners event filter = true ↔
      ∃ w target id, Live es w event target id ∧ filter target = true := by
  rw [hasJsListener_iff]
  constructor
  · rintro ⟨label, handler, hhas, hfilt⟩
    obtain ⟨n, hlive⟩ := (hasJsHandler_iff_live h).mp hhas
    exact ⟨⟨label, n⟩, handler.target, handler.id, hlive, hfilt⟩
  · rintro ⟨w, target, id, hlive, hfilt⟩
    exact ⟨w.label, ⟨target, id⟩, (hasJsHandler_iff_live h).mpr ⟨w.number, hlive⟩, hfilt⟩

/-- **Listeners of existing webviews.** In every run in which listeners are registered by webviews
that are there and webviews are closed when none of their listeners is left: `has_js_listener` is
true only if a webview that is there has registered a matching listener that was not removed. In
particular a close request is prevented only by such a listener for the window. -/
theorem hasJsListener_of_existing
    (h : Execution (guarded Orderly Step) (default : AppManager H W) es m) :
    (∀ event filter, hasJsListener m.jsEventListeners event filter = true →
      ∃ w target id, m.Current w ∧ Live es w event target id ∧ filter target = true) ∧
    ∀ windowLabel, m.preventsClose windowLabel = true →
      ∃ w target id, m.Current w ∧ Live es w windowCloseRequestedEvent target id ∧
        (target = .window windowLabel ∨ target = .webviewWindow windowLabel) := by
  have hexisting : ∀ event filter, hasJsListener m.jsEventListeners event filter = true →
      ∃ w target id, m.Current w ∧ Live es w event target id ∧ filter target = true := by
    intro event filter hhas
    obtain ⟨w, target, id, hlive, hfilt⟩ := (hasJsListener_iff_live (h.mono And.left)).mp hhas
    obtain ⟨v, -, hv, hnum, -⟩ := stored_of_live h hlive
    exact ⟨w, target, id, ⟨v, hv, hnum⟩, hlive, hfilt⟩
  refine ⟨hexisting, fun windowLabel hprev => ?_⟩
  obtain ⟨w, target, id, hcur, hlive, hfor⟩ := hexisting _ _ hprev
  refine ⟨w, target, id, hcur, hlive, ?_⟩
  cases target <;> simp_all [forWindow]

end AppManager

namespace Sample

/-- A window `main` whose page listens to its close requests. -/
def listensToClose : List (Call Nat Unit) :=
  [.createWindow "main", .createWebview "main" "main" (),
    .listenJs ⟨"main", 0⟩ windowCloseRequestedEvent (.window "main") (some 0) true]

/-- The window is closed, and there is a new one with the label. -/
def reopens : List (Call Nat Unit) :=
  [.closeWindow "main", .createWindow "main", .createWebview "main" "main" ()]

/-- The page removes its listener before the window is closed, and the new page listens too. -/
def unlistensBeforeClose : List (Call Nat Unit) :=
  listensToClose ++ [.unlistenJs ⟨"main", 0⟩ windowCloseRequestedEvent 0 true] ++ reopens ++
    [.listenJs ⟨"main", 1⟩ windowCloseRequestedEvent (.window "main") (some 0) true]

end Sample

open Sample

/-- In the sample, the first page removed its listener: the close of the new window is prevented by
the new page. -/
theorem sample_close_prevented_by_new_page :
    let run := Sample.manage AppManager.orderly Sample.unlistensBeforeClose
    run.1.preventsClose "main" = true ∧
      ∃ w target id, run.1.Current w ∧ Live run.2 w windowCloseRequestedEvent target id ∧
        (target = .window "main" ∨ target = .webviewWindow "main") := by
  intro run
  have hprev : run.1.preventsClose "main" = true := rfl
  have hrun := execution_manage_orderly unlistensBeforeClose
  exact ⟨hprev, (AppManager.hasJsListener_of_existing hrun).2 "main" hprev⟩

/-- In the sample, the window is closed while its page listens to close requests. The close of the
new window with the label is prevented, although no webview that is there has registered
anything. -/
theorem sample_close_prevented_by_old_page : ∃ es m,
    Execution AppManager.Step (.default : AppManager Nat Unit) es m ∧
      m.preventsClose "main" = true ∧ m.Current ⟨"main", 1⟩ ∧
      ∀ w, m.Current w → ∀ event target id, ¬ Live es w event target id := by
  have hrun := (execution_manage (fun _ _ => true)
    (listensToClose ++ reopens)).mono And.left
  have hlog : (manage (fun _ _ => true) (listensToClose ++ reopens)).2 =
      [.opened ⟨"main", 0⟩, .listened ⟨"main", 0⟩ windowCloseRequestedEvent (.window "main") 0,
        .closed ⟨"main", 0⟩, .opened ⟨"main", 1⟩] := rfl
  have hnew : (manage (fun _ _ => true)
      (listensToClose ++ reopens)).1.webviews["main"]? =
        some ⟨1, "main", ⟨∅, ()⟩⟩ := rfl
  refine ⟨_, _, hrun, rfl, ⟨_, hnew, rfl⟩, ?_⟩
  rintro w ⟨v, hv, hnum⟩ event target id hlive
  -- The only registration is that of the first webview.
  have hmem := hlive.mem
  rw [hlog] at hmem
  obtain ⟨rfl, -⟩ : w = ⟨"main", 0⟩ ∧ event = windowCloseRequestedEvent ∧
      target = .window "main" ∧ id = 0 := by simpa using hmem
  rw [hnew] at hv
  cases hv
  cases hnum

end Tauri.Events
