import Tauri.Rust.Map

/-!
# The windows of the runtime

The runtime keeps its windows in a map by id, and every window has the list of its webviews. The map
belongs to the main thread: a message to a window or to a webview is handled there, at once when it
is the main thread that sends it (`send_user_message`), and otherwise when the event loop gets to
it. `handleUserMessage` is what a message does to the map.

A message creates windows and webviews, moves webviews and drops them, and registers listeners. **No
message removes a window**: that is for the event loop, when the native window is gone. So a store
that has a window keeps one, and an empty one stays empty up to the first window that is created
(`isEmpty_handleUserMessages`).
-/

namespace Tauri.Wry

open Rust Std.ExtTreeMap

/-- `WebviewWrapper`. The listeners are the keys of the map with the handlers. -/
structure WebviewWrapper where
  id : Nat
  label : String
  webviewEventListeners : List Nat := []
  deriving DecidableEq

/-- `WindowWrapper`. `inner` says whether the native window is there; it is dropped when the window
is closed, some time before the window leaves the store. -/
structure WindowWrapper where
  label : String
  inner : Bool := true
  webviews : List WebviewWrapper := []
  windowEventListeners : List Nat := []
  deriving DecidableEq

/-- `WindowsStore`. -/
abbrev WindowsStore := BTreeMap Nat WindowWrapper

/-- The errors of the runtime that a message is answered with. -/
inductive Error where
  | failedToSendMessage
  deriving DecidableEq

/-- The messages that change the store. What the operating system and the webview engine make of a
message is a part of it: the id of the native window, the webview that was built, if it was, and
whether the native reparenting succeeds. -/
inductive Message where
  /-- `CreateWindow`. The webviews are those of the new window, `none` when its webview cannot be
  built. -/
  | createWindow (window native : Nat) (label : String) (webviews : Option (List WebviewWrapper))
  /-- `CreateRawWindow`, with the native window that was built. -/
  | createRawWindow (window : Nat) (label : String) (native : Option Nat)
  | createWebview (window : Nat) (webview : Option WebviewWrapper)
  | addWindowEventListener (window listener : Nat)
  | addWebviewEventListener (window webview listener : Nat)
  | closeWebview (window webview : Nat)
  | reparent (window webview target : Nat) (native : Bool)
  deriving DecidableEq

/-- The message puts a window in the store. -/
def Message.createsWindow : Message → Bool
  | .createWindow _ _ _ webviews => webviews.isSome
  | .createRawWindow _ _ native => native.isSome
  | _ => false

namespace WindowsStore

variable (windows : WindowsStore)

/-- The webview list of a window, empty for a window that is not in the store. -/
def webviews (window : Nat) : List WebviewWrapper :=
  (windows[window]?.map WindowWrapper.webviews).getD []

/-- The webview, in whatever window it is. -/
def webview? (webview : Nat) : Option WebviewWrapper :=
  (windows.vals.flatMap WindowWrapper.webviews).find? (·.id = webview)

/-- The window is in the store and its native window has not been dropped. -/
def isOpen (window : Nat) : Bool := (windows[window]?.map WindowWrapper.inner).getD false

/-- A change of the webview list of a window. -/
def modifyWebviews (window : Nat) (f : List WebviewWrapper → List WebviewWrapper) : WindowsStore :=
  windows.modify window fun w => { w with webviews := f w.webviews }

/-- The branch for `WebviewMessage::Reparent`: the webview is taken out of the list it is in, and
is put in the target's list if the target is open and the native reparenting succeeds. With it what
is sent to the caller, which is nothing when the target is not open. -/
def reparent (window webview target : Nat) (native : Bool) :
    WindowsStore × Option (Except Error Unit) :=
  match (windows.webviews window).find? (·.id = webview) with
  | some w =>
    let windows := modifyWebviews windows window (List.eraseP (·.id = webview))
    if isOpen windows target then
      if native then (modifyWebviews windows target (· ++ [w]), some (.ok ()))
      else (windows, some (.error .failedToSendMessage))
    else (windows, none)
  | none => (windows, some (.error .failedToSendMessage))

end WindowsStore

/-- What the main thread owns: the windows, and their ids by the ids of the native windows. -/
structure Context where
  windows : WindowsStore := ∅
  windowIdMap : BTreeMap Nat Nat := ∅

namespace Context

/-- A message to an open window. -/
def withOpenWindow (c : Context) (window : Nat) (f : WindowWrapper → WindowWrapper) : Context :=
  if c.windows.isOpen window then { c with windows := c.windows.modify window f } else c

/-- `handle_user_message`. -/
def handleUserMessage (c : Context) : Message → Context
  | .createWindow window native label webviews =>
    -- the native window is known even when its webview cannot be built
    let c := { c with windowIdMap := c.windowIdMap.insert native window }
    match webviews with
    | some webviews =>
      { c with windows := c.windows.insert window { label := label, webviews := webviews } }
    | none => c
  | .createRawWindow window label (some native) =>
    { windowIdMap := c.windowIdMap.insert native window
      windows := c.windows.insert window { label := label } }
  | .createRawWindow _ _ none => c
  | .createWebview window (some webview) =>
    c.withOpenWindow window fun w => { w with webviews := w.webviews ++ [webview] }
  | .createWebview _ none => c
  | .addWindowEventListener window listener =>
    c.withOpenWindow window fun w =>
      { w with windowEventListeners := w.windowEventListeners.insert listener }
  | .addWebviewEventListener window webview listener =>
    c.withOpenWindow window fun w =>
      { w with
        webviews := w.webviews.map fun v =>
          if v.id = webview then
            { v with webviewEventListeners := v.webviewEventListeners.insert listener }
          else v }
  | .closeWebview window webview =>
    c.withOpenWindow window fun w => { w with webviews := w.webviews.eraseP (·.id = webview) }
  | .reparent window webview target native =>
    { c with windows := (WindowsStore.reparent c.windows window webview target native).1 }

/-- Messages handled one after the other. -/
def handleUserMessages (c : Context) (messages : List Message) : Context :=
  messages.foldl handleUserMessage c

end Context

/-! ### The number of windows -/

namespace WindowsStore

variable (windows : WindowsStore)

@[simp]
theorem size_modifyWebviews (window : Nat) (f : List WebviewWrapper → List WebviewWrapper) :
    (modifyWebviews windows window f).size = windows.size :=
  size_modify

@[simp]
theorem size_reparent (window webview target : Nat) (native : Bool) :
    (reparent windows window webview target native).1.size = windows.size := by
  unfold reparent
  split
  · dsimp only
    split
    · split <;> simp
    · simp
  · rfl

end WindowsStore

namespace Context

variable (c : Context)

@[simp]
theorem size_withOpenWindow (window : Nat) (f : WindowWrapper → WindowWrapper) :
    (c.withOpenWindow window f).windows.size = c.windows.size := by
  unfold withOpenWindow
  split
  · exact size_modify
  · rfl

theorem size_handleUserMessage (m : Message) :
    c.windows.size ≤ (c.handleUserMessage m).windows.size ∧
      (m.createsWindow = false → (c.handleUserMessage m).windows.size = c.windows.size) ∧
      (m.createsWindow → 0 < (c.handleUserMessage m).windows.size) := by
  have hinsert (window : Nat) (w : WindowWrapper) :
      c.windows.size ≤ (c.windows.insert window w).size ∧ 0 < (c.windows.insert window w).size := by
    have hmem : window ∈ c.windows.insert window w := by simp
    refine ⟨size_le_size_insert, ?_⟩
    rw [Nat.pos_iff_ne_zero]
    intro h
    rw [eq_empty_iff_size_eq_zero.mpr h] at hmem
    simp at hmem
  cases m with
  | createWindow _ _ _ webviews =>
    cases webviews <;> simp [handleUserMessage, Message.createsWindow, hinsert]
  | createRawWindow _ _ native =>
    cases native <;> simp [handleUserMessage, Message.createsWindow, hinsert]
  | createWebview _ webview =>
    cases webview <;> simp [handleUserMessage, Message.createsWindow]
  | _ => simp [handleUserMessage, Message.createsWindow]

theorem size_le_handleUserMessages (messages : List Message) :
    c.windows.size ≤ (c.handleUserMessages messages).windows.size :=
  List.foldlRecOn (motive := fun c' => c.windows.size ≤ c'.windows.size) messages
    handleUserMessage le_rfl fun c' h m _ => h.trans (c'.size_handleUserMessage m).1

theorem isEmpty_handleUserMessages (h : c.windows.isEmpty) (messages : List Message) :
    (c.handleUserMessages messages).windows.isEmpty ↔ ∀ m ∈ messages, m.createsWindow = false := by
  induction messages generalizing c with
  | nil => simp [handleUserMessages, h]
  | cons m messages ih =>
    obtain ⟨-, hsame, hpos⟩ := c.size_handleUserMessage m
    simp only [isEmpty_eq_size_beq_zero, beq_iff_eq] at h ih ⊢
    rw [List.forall_mem_cons]
    change ((c.handleUserMessage m).handleUserMessages messages).windows.size = 0 ↔ _
    cases hm : m.createsWindow with
    | false => simpa using ih (c.handleUserMessage m) ((hsame hm).trans h)
    | true =>
      have hle := (c.handleUserMessage m).size_le_handleUserMessages messages
      have := hpos hm
      simp only [reduceCtorEq, false_and, iff_false]
      omega

end Context

end Tauri.Wry
