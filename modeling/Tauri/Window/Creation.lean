import Tauri.Event.JsListeners
import Tauri.Rust.Registry

/-!
# Creating windows and webviews from several threads

A window is created in three steps: `prepare_window` looks its label up in the manager, the runtime
creates the window, and `attach_window` writes the manager's entry. Webviews are created likewise,
with a window of their own (`WebviewWindowBuilder`) or in a window that is there (`add_child`). The
manager is locked in each step and not between them. Windows are closed by the runtime, which tells
the manager the label, and webviews by `Webview::close`, which removes the entry of the label.

The labels of windows and those of webviews are each a `Registry`, and the steps are the operations
of one.
-/

namespace Tauri.Window

open Rust Std.ExtTreeMap
open Events (Error)

/-! ### The manager and the runtime -/

/-- A webview of the runtime: its label and the number of its window. -/
structure RuntimeWebview where
  label : String
  window : Nat
  deriving DecidableEq

/-- An entry of the manager for a webview: the number of the webview, and the label of the window
that it was attached to. -/
structure ManagedWebview where
  id : Nat
  windowLabel : String
  deriving DecidableEq

/-- The entries of the manager, and the windows and webviews of the runtime by number. -/
structure Desktop where
  windows : BTreeMap String Nat := ∅
  webviews : BTreeMap String ManagedWebview := ∅
  runtimeWindows : BTreeMap Nat String := ∅
  runtimeWebviews : BTreeMap Nat RuntimeWebview := ∅
  nextWindowId : Nat := 0
  nextWebviewId : Nat := 0
  fresh_window : ∀ {id}, nextWindowId ≤ id → runtimeWindows[id]? = none := by simp
  fresh_webview : ∀ {id}, nextWebviewId ≤ id → runtimeWebviews[id]? = none := by simp

namespace Desktop

variable (s : Desktop)

/-- `prepare_window`. -/
def prepareWindow (label : String) : Except Error Unit :=
  if label ∈ s.windows then .error (.windowLabelAlreadyExists label) else .ok ()

/-- `prepare_webview`. -/
def prepareWebview (label : String) : Except Error Unit :=
  if label ∈ s.webviews then .error (.webviewLabelAlreadyExists label) else .ok ()

/-- The runtime creates a window. -/
def createWindow (label : String) : Desktop :=
  { s with
    runtimeWindows := s.runtimeWindows.insert s.nextWindowId label
    nextWindowId := s.nextWindowId + 1
    fresh_window := by
      intro id hid
      rw [Std.ExtTreeMap.getElem?_insert, if_neg (by rw [compare_eq_iff_eq]; omega)]
      exact s.fresh_window (by omega) }

/-- The runtime creates a webview in a window. -/
def createWebview (label : String) (window : Nat) : Desktop :=
  { s with
    runtimeWebviews := s.runtimeWebviews.insert s.nextWebviewId ⟨label, window⟩
    nextWebviewId := s.nextWebviewId + 1
    fresh_webview := by
      intro id hid
      rw [Std.ExtTreeMap.getElem?_insert, if_neg (by rw [compare_eq_iff_eq]; omega)]
      exact s.fresh_webview (by omega) }

/-- The runtime takes a number for a window. -/
def skipWindowId : Desktop :=
  { s with
    nextWindowId := s.nextWindowId + 1
    fresh_window := fun hid => s.fresh_window (by omega) }

/-- The runtime takes a number for a webview. -/
def skipWebviewId : Desktop :=
  { s with
    nextWebviewId := s.nextWebviewId + 1
    fresh_webview := fun hid => s.fresh_webview (by omega) }

/-- `attach_window`. -/
def attachWindow (label : String) (id : Nat) : Desktop :=
  { s with windows := s.windows.insert label id }

/-- `attach_webview`. -/
def attachWebview (label : String) (id : Nat) (windowLabel : String) : Desktop :=
  { s with webviews := s.webviews.insert label ⟨id, windowLabel⟩ }

/-- `on_window_close`. -/
def onWindowClose (label : String) : Desktop :=
  if label ∈ s.windows then
    { s with
      windows := s.windows.erase label
      webviews := s.webviews.filter fun _ webview => webview.windowLabel != label }
  else s

/-- `on_webview_close`. -/
def onWebviewClose (label : String) : Desktop := { s with webviews := s.webviews.erase label }

/-- The runtime removes a window and the webviews in it. -/
def removeWindow (id : Nat) : Desktop :=
  { s with
    runtimeWindows := s.runtimeWindows.erase id
    runtimeWebviews := s.runtimeWebviews.filter fun _ webview => webview.window != id
    fresh_window := by
      intro id' hid
      simp [Std.ExtTreeMap.getElem?_erase, s.fresh_window hid]
    fresh_webview := by
      intro id' hid
      simp [s.fresh_webview hid] }

/-- The runtime removes a webview. -/
def removeWebview (id : Nat) : Desktop :=
  { s with
    runtimeWebviews := s.runtimeWebviews.erase id
    fresh_webview := by
      intro id' hid
      simp [Std.ExtTreeMap.getElem?_erase, s.fresh_webview hid] }

/-- The `Destroyed` event of a window. -/
def destroyed (id : Nat) (label : String) : Desktop := (s.onWindowClose label).removeWindow id

/-- `Webview::close`. -/
def closeWebview (id : Nat) (label : String) : Desktop := (s.removeWebview id).onWebviewClose label

end Desktop

/-! ### Threads -/

/-- Where a thread is in the creation of a window or a webview. -/
inductive Phase where
  | idle
  /-- `with_webview`, after `prepare_webview`. -/
  | webviewPrepared (label : String)
  /-- `build_internal`, after `prepare_window`. -/
  | windowPrepared (label : String) (webview : Bool)
  /-- `build_internal`, with the window of the runtime and the webview in it. -/
  | windowCreated (label : String) (id : Nat) (webview : Option Nat)
  /-- `build_internal`, after `attach_window`, with a webview that is not attached yet. -/
  | windowAttached (label : String) (id webview : Nat)
  /-- `WebviewBuilder::build` in a window, after `prepare_webview`. -/
  | childPrepared (label : String) (window : Nat) (windowLabel : String)
  /-- `WebviewBuilder::build` in a window, with the webview of the runtime. -/
  | childCreated (label : String) (id window : Nat) (windowLabel : String)

/-- What a thread does. -/
inductive Event where
  | preparedWindow (label : String)
  | preparedWebview (label : String)
  | failed (error : Error)
  | created
  /-- The runtime returns an error. -/
  | createFailed
  /-- The runtime logs an error and returns, as if the window or the webview were created. -/
  | createLogged
  | attached
  | destroyed (id : Nat)
  | webviewClosed (id : Nat) (label : String)

/-- A creation goes on with a phase, or it returns the error. -/
def goOn (event : Event) (phase : Phase) : Except Error Unit → Event × Phase
  | .ok () => (event, phase)
  | .error e => (.failed e, .idle)

/-- The number and the label are those of a window, which may be closed. -/
def Desktop.IsWindow (s : Desktop) (id : Nat) (label : String) : Prop :=
  id < s.nextWindowId ∧ ∀ label', s.runtimeWindows[id]? = some label' → label' = label

/-- The steps of a thread: those of a creation, and at any time the closing of a window or of a
webview. -/
inductive Move (s : Desktop) : Phase → List Event → Desktop → Phase → Prop
  /-- `with_webview` begins. -/
  | prepareWebview (label : String) {r : Event × Phase}
      (h : goOn (.preparedWebview label) (.webviewPrepared label) (s.prepareWebview label) = r) :
      Move s .idle [r.1] s r.2
  /-- `with_webview` goes on to `build_internal`. -/
  | prepareWebviewWindow (label : String) {r : Event × Phase}
      (h : goOn (.preparedWindow label) (.windowPrepared label true) (s.prepareWindow label) = r) :
      Move s (.webviewPrepared label) [r.1] s r.2
  /-- `build` begins. -/
  | prepareWindow (label : String) {r : Event × Phase}
      (h : goOn (.preparedWindow label) (.windowPrepared label false) (s.prepareWindow label) = r) :
      Move s .idle [r.1] s r.2
  /-- `build` in a window begins. -/
  | prepareChild (label : String) {window : Nat} {windowLabel : String}
      (hwindow : s.IsWindow window windowLabel) {r : Event × Phase}
      (h : goOn (.preparedWebview label) (.childPrepared label window windowLabel)
        (s.prepareWebview label) = r) :
      Move s .idle [r.1] s r.2
  | createWindow (label : String) :
      Move s (.windowPrepared label false) [.created] (s.createWindow label)
        (.windowCreated label s.nextWindowId none)
  | createWebviewWindow (label : String) :
      Move s (.windowPrepared label true) [.created]
        ((s.createWindow label).createWebview label s.nextWindowId)
        (.windowCreated label s.nextWindowId (some s.nextWebviewId))
  | createChild (label windowLabel : String) {window : Nat} (h : window ∈ s.runtimeWindows) :
      Move s (.childPrepared label window windowLabel) [.created] (s.createWebview label window)
        (.childCreated label s.nextWebviewId window windowLabel)
  | failWindow (label : String) (webview : Bool) :
      Move s (.windowPrepared label webview) [.createFailed] s .idle
  | failChild (label windowLabel : String) (window : Nat) :
      Move s (.childPrepared label window windowLabel) [.createFailed] s .idle
  | logWindow (label : String) :
      Move s (.windowPrepared label false) [.createLogged] s.skipWindowId
        (.windowCreated label s.nextWindowId none)
  | logWebviewWindow (label : String) :
      Move s (.windowPrepared label true) [.createLogged] s.skipWindowId.skipWebviewId
        (.windowCreated label s.nextWindowId (some s.nextWebviewId))
  | logChild (label windowLabel : String) (window : Nat) :
      Move s (.childPrepared label window windowLabel) [.createLogged] s.skipWebviewId
        (.childCreated label s.nextWebviewId window windowLabel)
  | attachWindow (label : String) (id : Nat) :
      Move s (.windowCreated label id none) [.attached] (s.attachWindow label id) .idle
  | attachWebviewWindow (label : String) (id webview : Nat) :
      Move s (.windowCreated label id (some webview)) [.attached] (s.attachWindow label id)
        (.windowAttached label id webview)
  | attachWebview (label : String) (id webview : Nat) :
      Move s (.windowAttached label id webview) [.attached] (s.attachWebview label webview label)
        .idle
  | attachChild (label windowLabel : String) (id window : Nat) :
      Move s (.childCreated label id window windowLabel) [.attached]
        (s.attachWebview label id windowLabel) .idle
  | destroyed (phase : Phase) {id : Nat} {label : String}
      (h : s.runtimeWindows[id]? = some label) :
      Move s phase [.destroyed id] (s.destroyed id label) phase
  | closeWebview (phase : Phase) (id : Nat) (label : String) :
      Move s phase [.webviewClosed id label] (s.closeWebview id label) phase

namespace Phase

/-- The window that a thread is about to make. -/
def windowClaim : Phase → Claim String Nat
  | windowPrepared label _ => .prepared label
  | windowCreated label id _ => .created label id
  | _ => .none

/-- The webview that a thread is about to make. -/
def webviewClaim : Phase → Claim String Nat
  | webviewPrepared label | windowPrepared label true | childPrepared label _ _ => .prepared label
  | windowCreated label _ (some id) | windowAttached label _ id | childCreated label id _ _ =>
    .created label id
  | _ => .none

/-- The window that a thread has created, or has created a webview in, with something left to be
attached, and its label. -/
def parent : Phase → Option (Nat × String)
  | windowCreated label id _ | windowAttached label id _ => some (id, label)
  | childCreated _ _ window windowLabel => some (window, windowLabel)
  | _ => none

end Phase

section Condition

variable {ι : Type}

/-- **The condition** on a step, by what it does. -/
def Event.Orderly (s : Desktop × (ι → Phase)) : Event → Prop
  | preparedWindow label => ∀ i, (s.2 i).windowClaim.label ≠ some label
  | preparedWebview label => ∀ i, (s.2 i).webviewClaim.label ≠ some label
  | createLogged => False
  | destroyed id => ∀ i label, (s.2 i).parent ≠ some (id, label)
  | webviewClosed id label => ∃ webview, s.1.webviews[label]? = some webview ∧ webview.id = id
  | failed _ | created | createFailed | attached => True

/-- A label without an entry is prepared only if no creation with the label is unfinished, the
runtime creates what it returns, a window is closed only if no creation of the window or in it is
unfinished, and a webview only if the manager has an entry for it. -/
def OrderlyStep (s : Desktop × (ι → Phase)) (es : List Event) : Prop := ∀ e ∈ es, e.Orderly s

end Condition

/-! ### What the steps do to the runtime -/

namespace Desktop

variable {s : Desktop} {id : Nat} {label : String}

theorem getElem?_createWindow (h : s.runtimeWindows[id]? = some label) (label' : String) :
    (s.createWindow label').runtimeWindows[id]? = some label := by
  have hne : s.nextWindowId ≠ id := by
    rintro rfl
    rw [s.fresh_window (Nat.le_refl _)] at h
    cases h
  simp [createWindow, getElem?_insert, hne, h]

theorem getElem?_createWindow_self (s : Desktop) (label' : String) :
    (s.createWindow label').runtimeWindows[s.nextWindowId]? = some label' := by
  simp [createWindow]

theorem getElem?_createWebview {webview : RuntimeWebview}
    (h : s.runtimeWebviews[id]? = some webview) (label' : String) (window : Nat) :
    (s.createWebview label' window).runtimeWebviews[id]? = some webview := by
  have hne : s.nextWebviewId ≠ id := by
    rintro rfl
    rw [s.fresh_webview (Nat.le_refl _)] at h
    cases h
  simp [createWebview, getElem?_insert, hne, h]

variable (s)

theorem getElem?_createWebview_self (label' : String) (window : Nat) :
    (s.createWebview label' window).runtimeWebviews[s.nextWebviewId]? = some ⟨label', window⟩ := by
  simp [createWebview]

theorem runtimeWindows_destroyed (id : Nat) (label : String) (id' : Nat) :
    (s.destroyed id label).runtimeWindows[id']? =
      if id = id' then none else s.runtimeWindows[id']? := by
  have hwindows : (s.onWindowClose label).runtimeWindows = s.runtimeWindows := by
    rw [onWindowClose]
    split_ifs <;> rfl
  simp [destroyed, removeWindow, hwindows, getElem?_erase]

theorem runtimeWebviews_destroyed (id : Nat) (label : String) (id' : Nat) :
    (s.destroyed id label).runtimeWebviews[id']? =
      s.runtimeWebviews[id']?.filter (·.window != id) := by
  have hwebs : (s.onWindowClose label).runtimeWebviews = s.runtimeWebviews := by
    rw [onWindowClose]
    split_ifs <;> rfl
  simp [destroyed, removeWindow, hwebs]

theorem runtimeWebviews_closeWebview (id : Nat) (label : String) (id' : Nat) :
    (s.closeWebview id label).runtimeWebviews[id']? =
      if id = id' then none else s.runtimeWebviews[id']? := by
  simp [closeWebview, onWebviewClose, removeWebview, getElem?_erase]

variable {s}

theorem webviews_of_destroyed {label' : String} {webview : ManagedWebview}
    (h : (s.destroyed id label).webviews[label']? = some webview) :
    s.webviews[label']? = some webview := by
  have hwebs : (s.destroyed id label).webviews = (s.onWindowClose label).webviews := rfl
  rw [hwebs, onWindowClose] at h
  split_ifs at h
  · simp only [getElem?_filter', Option.filter_eq_some_iff] at h
    exact h.1
  · exact h

end Desktop

/-! ### The registries -/

namespace Desktop

variable (s : Desktop)

/-- The labels of windows. -/
def windowRegistry : Registry String Nat where
  entries label := s.windows[label]?
  live id := s.runtimeWindows[id]?

/-- The labels of webviews. -/
def webviewRegistry : Registry String Nat where
  entries label := s.webviews[label]?.map (·.id)
  live id := s.runtimeWebviews[id]?.map (·.label)

variable {label : String}

theorem entries_of_prepareWindow (h : s.prepareWindow label = .ok ()) :
    s.windowRegistry.entries label = none := by
  rw [prepareWindow] at h
  split_ifs at h with hmem
  exact getElem?_eq_none hmem

theorem entries_of_prepareWebview (h : s.prepareWebview label = .ok ()) :
    s.webviewRegistry.entries label = none := by
  rw [prepareWebview] at h
  split_ifs at h with hmem
  simp [webviewRegistry, getElem?_eq_none hmem]

variable (label)

theorem windowRegistry_createWindow :
    (s.createWindow label).windowRegistry = s.windowRegistry.create label s.nextWindowId :=
  congrArg (Registry.mk _) (BTreeMap.getElem?_insert_eq_update ..)

theorem webviewRegistry_createWebview (window : Nat) :
    (s.createWebview label window).webviewRegistry =
      s.webviewRegistry.create label s.nextWebviewId :=
  congrArg (Registry.mk _) (BTreeMap.map_getElem?_insert_eq_update ..)

theorem windowRegistry_attachWindow (id : Nat) :
    (s.attachWindow label id).windowRegistry = s.windowRegistry.attach label id :=
  congrArg (Registry.mk · _) (BTreeMap.getElem?_insert_eq_update ..)

theorem webviewRegistry_attachWebview (id : Nat) (windowLabel : String) :
    (s.attachWebview label id windowLabel).webviewRegistry = s.webviewRegistry.attach label id :=
  congrArg (Registry.mk · _) (BTreeMap.map_getElem?_insert_eq_update ..)

variable {label}

variable {s}

variable {id : Nat}

theorem windowRegistry_destroyed (hent : s.windows[label]? = some id)
    (hlbl : ∀ label' : String, s.windows[label']? = some id → label' = label) :
    (s.destroyed id label).windowRegistry = s.windowRegistry.close (· == id) := by
  have hmem : label ∈ s.windows := BTreeMap.mem_iff_exists.mpr ⟨id, hent⟩
  rw [Registry.close_eq_erase hent hlbl]
  refine congrArg₂ Registry.mk (funext fun label' => ?_) (funext fun id' => ?_)
  · simp only [destroyed, onWindowClose, hmem, if_true, removeWindow, windowRegistry,
      getElem?_erase, compare_eq_iff_eq]
  · rw [runtimeWindows_destroyed, windowRegistry]

/-- Closing a window that has an entry closes the webviews in it, if the entries for webviews have
the labels of their windows. -/
theorem webviewRegistry_destroyed (hmem : label ∈ s.windows)
    (hwebs : ∀ (label' : String) (webview : ManagedWebview),
      s.webviews[label']? = some webview → ∃ w, s.runtimeWebviews[webview.id]? = some w ∧
        (webview.windowLabel = label ↔ w.window = id)) :
    (s.destroyed id label).webviewRegistry =
      s.webviewRegistry.close fun webview => s.runtimeWebviews[webview]?.any (·.window == id) := by
  refine congrArg₂ Registry.mk (funext fun label' => ?_) (funext fun id' => ?_)
  · simp only [destroyed, onWindowClose, hmem, if_true, removeWindow,
      getElem?_filter', webviewRegistry]
    cases hlbl' : s.webviews[label']? with
    | none => rfl
    | some => grind
  · rw [runtimeWebviews_destroyed, webviewRegistry]
    obtain hid' | ⟨w, hid'⟩ := Option.eq_none_or_eq_some s.runtimeWebviews[id']?
    · simp [hid']
    · grind

theorem webviewRegistry_closeWebview (hent : s.webviewRegistry.entries label = some id)
    (hlbl : ∀ label', s.webviewRegistry.entries label' = some id → label' = label) :
    (s.closeWebview id label).webviewRegistry = s.webviewRegistry.close (· == id) := by
  rw [Registry.close_eq_erase hent hlbl]
  refine congrArg₂ Registry.mk (funext fun label' => ?_) (funext fun id' => ?_)
  · simp only [closeWebview, onWebviewClose, removeWebview, webviewRegistry,
      getElem?_erase, compare_eq_iff_eq]
    split_ifs <;> rfl
  · rw [runtimeWebviews_closeWebview, webviewRegistry]
    split_ifs <;> rfl

end Desktop

namespace Phase

variable {phase : Phase} {label : String} {id : Nat}

theorem not_created (h : phase.parent = none) :
    (∀ label id, phase.windowClaim ≠ .created label id) ∧
      ∀ label id, phase.webviewClaim ≠ .created label id := by
  match phase, h with
  | idle, _ | webviewPrepared _, _ | windowPrepared _ true, _ | windowPrepared _ false, _
  | childPrepared _ _ _, _ => exact ⟨fun _ _ => nofun, fun _ _ => nofun⟩

theorem parent_of_windowClaim (h : phase.windowClaim = .created label id) :
    phase.parent = some (id, label) := by
  cases phase <;> cases h
  rfl

theorem parent_of_webviewClaim (h : phase.webviewClaim = .created label id) :
    ∃ window windowLabel, phase.parent = some (window, windowLabel) := by
  cases hpar : phase.parent with
  | none => exact absurd h ((not_created hpar).2 label id)
  | some parent => exact ⟨parent.1, parent.2, rfl⟩

end Phase

end Tauri.Window
