import Tauri.Runtime.Windows

/-!
# Reparenting a webview

The parent of a webview is kept three times: the webview list of a window in the runtime, the window
id that the dispatcher of the webview sends its messages with, and the window that `Webview` names,
which is the one that `on_message` asks the access control list about. `Webview::reparent` changes
all of them, the last one first:

* without the feature `unstable` it refuses to move a webview out of or into a webview window. The
  test runs **under the lock of the window that the webview names**, and asks every registered
  webview for its window, this one included, so that it never returns;
* it names the target, and nothing takes this back when the rest fails;
* the main thread takes the webview out of its list and puts it in the target's. When the target is
  closed the webview is dropped and nobody is told, and the caller **panics** in `recv().unwrap()`.
  When the native reparenting fails the webview is dropped as well, and the caller gets an error;
* the dispatcher takes the new id, if it got an answer and it was `Ok`.

So a call is all or nothing only when it succeeds, when it is refused by the test, and when it was
not to change anything (`atomic_iff`).
-/

namespace Tauri.Parents

open Rust
open Wry (WindowsStore WebviewWrapper WindowWrapper)

/-- `tauri::Window`, with the id of the window of the runtime. -/
structure Window where
  id : Nat
  label : String
  deriving DecidableEq

inductive Error where
  | cannotReparentWebviewWindow
  | runtime (e : Wry.Error)
  deriving DecidableEq

/-- How a call ends, if it does. -/
inductive Call (α : Type) where
  | returned (a : α)
  | panicked
  | blocked

/-- What becomes of a message to the main thread. The main thread itself handles it at once. For
another thread the proxy may refuse it, the event loop may end before it gets to it, and the main
thread may never get to it, because it waits for the lock of the dispatcher, which the caller
holds. -/
inductive Delivery where
  | handled
  | refused
  | dropped
  | pending
  deriving DecidableEq

/-- How often the webview is in the list of the window. -/
def count (windows : WindowsStore) (webview window : Nat) : Nat :=
  (windows.webviews window).countP (·.id = webview)

/-- A webview, with the windows of the runtime and with the other webviews of the manager, each with
the window it names. The webview is in no list but that of the dispatcher's window, and there at
most once. -/
structure State where
  windows : WindowsStore
  id : Nat
  label : String
  /-- The window that the webview names. -/
  window : Window
  /-- The window id of the dispatcher. -/
  windowId : Nat
  /-- The manager has the webview. -/
  registered : Bool
  others : List (String × Window)
  count_le : ∀ w, count windows id w ≤ if w = windowId then 1 else 0

/-! ### What the main thread does -/

section Store

variable {windows : WindowsStore} {webview window target : Nat}

theorem webviews_modifyWebviews {f : List WebviewWrapper → List WebviewWrapper}
    (hf : f [] = [] ∨ windows.isOpen window) (w : Nat) :
    (windows.modifyWebviews window f).webviews w =
      if w = window then f (windows.webviews window) else windows.webviews w := by
  unfold WindowsStore.modifyWebviews WindowsStore.webviews
  rw [Std.ExtTreeMap.getElem?_modify]
  simp only [Std.LawfulEqOrd.compare_eq_iff_eq, eq_comm (a := window)]
  split
  case isFalse => rfl
  case isTrue =>
    cases hw : windows[window]? with
    | some v => rfl
    | none =>
      rcases hf with hf | hopen
      · simp [hf]
      · simp [WindowsStore.isOpen, hw] at hopen

theorem isOpen_modifyWebviews (f : List WebviewWrapper → List WebviewWrapper) (w : Nat) :
    (windows.modifyWebviews window f).isOpen w = windows.isOpen w := by
  unfold WindowsStore.modifyWebviews WindowsStore.isOpen
  rw [Std.ExtTreeMap.getElem?_modify]
  split
  case isFalse => rfl
  case isTrue h =>
    obtain rfl := Std.LawfulEqOrd.eq_of_compare h
    cases windows[window]? <;> rfl

theorem countP_eraseP {α : Type} (p : α → Bool) (l : List α) :
    (l.eraseP p).countP p = l.countP p - 1 := by
  induction l with
  | nil => rfl
  | cons a l ih => by_cases ha : p a <;> simp [ha, ih]

theorem find?_eq_none_iff :
    (windows.webviews window).find? (·.id = webview) = none ↔ count windows webview window = 0 := by
  simp [count, List.countP_eq_zero]

variable (hcnt : ∀ w, count windows webview w ≤ if w = window then 1 else 0)
include hcnt

theorem count_takeOut (w : Nat) :
    count (windows.modifyWebviews window (List.eraseP (·.id = webview))) webview w = 0 := by
  have hw := hcnt w
  unfold count at hw ⊢
  rw [webviews_modifyWebviews (.inl rfl)]
  split
  case isTrue h =>
    subst h
    rw [if_pos rfl] at hw
    rw [countP_eraseP]
    omega
  case isFalse h =>
    rw [if_neg h] at hw
    omega

theorem count_putIn (hopen : windows.isOpen target) {v : WebviewWrapper} (hv : v.id = webview)
    (w : Nat) :
    count ((windows.modifyWebviews window (List.eraseP (·.id = webview))).modifyWebviews target
      (· ++ [v])) webview w = if w = target then 1 else 0 := by
  have htaken := count_takeOut hcnt
  unfold count at htaken ⊢
  rw [webviews_modifyWebviews (.inr (by rwa [isOpen_modifyWebviews]))]
  split
  · simp [htaken, hv]
  · exact htaken w

variable {windows' : WindowsStore}

/-- What the message does: nothing for a webview that is not in the list of its window, and
otherwise the webview is dropped, with or without an answer, or it is moved. -/
theorem reparent_cases (target : Nat) (native : Bool) {sent : Option (Except Wry.Error Unit)}
    (h : windows.reparent window webview target native = (windows', sent)) :
    (count windows webview window = 0 ∧ windows' = windows ∧
        sent = some (.error .failedToSendMessage)) ∨
      (count windows webview window ≠ 0 ∧ windows.isOpen target = false ∧ sent = none) ∨
      (count windows webview window ≠ 0 ∧ native = false ∧
        sent = some (.error .failedToSendMessage) ∧ ∀ w, count windows' webview w = 0) ∨
      (count windows webview window ≠ 0 ∧ windows.isOpen target ∧ native ∧ sent = some (.ok ()) ∧
        ∀ w, count windows' webview w = if w = target then 1 else 0) := by
  unfold WindowsStore.reparent at h
  split at h
  case h_2 hfind =>
    obtain ⟨rfl, rfl⟩ := Prod.mk.inj h
    exact .inl ⟨find?_eq_none_iff.mp hfind, rfl, rfl⟩
  case h_1 v hfind =>
    have hpres : count windows webview window ≠ 0 := by
      intro habsent
      cases hfind.symm.trans (find?_eq_none_iff.mpr habsent)
    have hv : v.id = webview := by simpa using List.find?_some hfind
    dsimp only at h
    rw [isOpen_modifyWebviews] at h
    split_ifs at h with hopen hnat
    · obtain ⟨rfl, rfl⟩ := Prod.mk.inj h
      exact .inr (.inr (.inr ⟨hpres, hopen, hnat, rfl, count_putIn hcnt hopen hv⟩))
    · obtain ⟨rfl, rfl⟩ := Prod.mk.inj h
      exact .inr (.inr (.inl ⟨hpres, by simpa using hnat, rfl, count_takeOut hcnt⟩))
    · obtain ⟨rfl, rfl⟩ := Prod.mk.inj h
      exact .inr (.inl ⟨hpres, by simpa using hopen, rfl⟩)

theorem count_of_ok {native : Bool}
    (h : windows.reparent window webview target native = (windows', some (.ok ()))) (w : Nat) :
    count windows' webview w = if w = target then 1 else 0 := by
  obtain ⟨-, -, hsent⟩ | ⟨-, -, hsent⟩ | ⟨-, -, hsent, -⟩ | ⟨-, -, -, -, hmoved⟩ :=
    reparent_cases hcnt target native h
  · cases hsent
  · cases hsent
  · cases hsent
  · exact hmoved w

theorem count_of_error {native : Bool} {e : Wry.Error}
    (h : windows.reparent window webview target native = (windows', some (.error e))) (w : Nat) :
    count windows' webview w ≤ count windows webview w := by
  obtain ⟨-, rfl, -⟩ | ⟨-, -, hsent⟩ | ⟨-, -, -, hdrop⟩ | ⟨-, -, -, hsent, -⟩ :=
    reparent_cases hcnt target native h
  · exact le_rfl
  · cases hsent
  · rw [hdrop w]
    exact Nat.zero_le _
  · cases hsent

end Store

/-! ### The call -/

namespace State

variable (s : State)

/-- `Window::webviews`: the labels of the webviews that name the window. Every registered webview
is asked for its window, under the lock of the window it names; `none` when the thread holds the
lock of this webview already. -/
def webviews (held : Bool) (w : Window) : Option (List String) :=
  if held && s.registered then none
  else
    let all := (if s.registered then [(s.label, s.window)] else []) ++ s.others
    some ((all.filter (·.2.label = w.label)).map Prod.fst)

/-- `Window::is_webview_window`. -/
def isWebviewWindow (held : Bool) (w : Window) : Option Bool :=
  (s.webviews held w).map fun labels => labels.all (· = w.label)

/-- The test without `unstable`. The guard of `window_ref` lives up to the end of the condition. -/
def cannotReparent (target : Window) : Option Bool := do
  let own ← s.isWebviewWindow true s.window
  if own then return true else s.isWebviewWindow true target

/-- `WryWebviewDispatcher::reparent`, which waits for the answer. -/
def dispatcherReparent (delivery : Delivery) (native : Bool) (windowId : Nat) :
    Call (State × Except Error Unit) :=
  match delivery with
  | .refused => .returned (s, .error (.runtime .failedToSendMessage))
  | .dropped => .panicked
  | .pending => .blocked
  | .handled =>
    match h : s.windows.reparent s.windowId s.id windowId native with
    | (windows, some (.ok ())) =>
      .returned ({ s with
        windows := windows, windowId := windowId
        count_le := fun w => (count_of_ok s.count_le h w).le }, .ok ())
    | (windows, some (.error e)) =>
      .returned ({ s with
        windows := windows
        count_le := fun w => (count_of_error s.count_le h w).trans (s.count_le w) },
        .error (.runtime e))
    -- the sender is dropped, and `recv` fails
    | (_, none) => .panicked

/-- `Webview::reparent`, after the test. -/
def move (delivery : Delivery) (native : Bool) (target : Window) :
    Call (State × Except Error Unit) :=
  dispatcherReparent { s with window := target } delivery native target.id

/-- `Webview::reparent`. -/
def reparent (unstable : Bool) (delivery : Delivery) (native : Bool) (target : Window) :
    Call (State × Except Error Unit) :=
  if unstable then s.move delivery native target
  else
    match s.cannotReparent target with
    | none => .blocked
    | some true => .returned (s, .error .cannotReparentWebviewWindow)
    | some false => s.move delivery native target

/-- **All or nothing.** The call returns. With `Ok` the webview is in the target's list and in no
other, and the dispatcher and the webview name the target; with an error everything is as it was. -/
def Atomic (target : Window) (c : Call (State × Except Error Unit)) : Prop :=
  ∃ s' result, c = .returned (s', result) ∧
    (result = .ok () → (∀ w, count s'.windows s'.id w = if w = target.id then 1 else 0) ∧
      s'.windowId = target.id ∧ s'.window = target) ∧
    (∀ e, result = .error e → (∀ w, count s'.windows s'.id w = count s.windows s.id w) ∧
      s'.windowId = s.windowId ∧ s'.window = s.window)

/-- No webview but the one with the label of the window names it. -/
def OnlyOwn (w : Window) : Prop := ∀ p ∈ s.others, p.2.label = w.label → p.1 = w.label

instance (w : Window) : Decidable (s.OnlyOwn w) := inferInstanceAs (Decidable (∀ p ∈ s.others, _))

variable {s} {target : Window} {delivery : Delivery} {native unstable : Bool}

theorem not_atomic_panicked : ¬s.Atomic target .panicked := by
  rintro ⟨s', result, h, -⟩
  cases h

theorem not_atomic_blocked : ¬s.Atomic target .blocked := by
  rintro ⟨s', result, h, -⟩
  cases h

theorem atomic_error_iff {s' : State} {e : Error} :
    s.Atomic target (.returned (s', .error e)) ↔
      (∀ w, count s'.windows s'.id w = count s.windows s.id w) ∧ s'.windowId = s.windowId ∧
        s'.window = s.window := by
  constructor
  · rintro ⟨s', result, h, -, herror⟩
    cases h
    exact herror e rfl
  · intro h
    exact ⟨s', .error e, rfl, nofun, fun _ _ => h⟩

theorem atomic_handled_iff :
    s.Atomic target (s.move .handled native target) ↔
      (count s.windows s.id s.windowId ≠ 0 ∧ s.windows.isOpen target.id ∧ native) ∨
        (target = s.window ∧ count s.windows s.id s.windowId = 0) := by
  unfold move dispatcherReparent
  dsimp only
  split
  case h_1 windows h =>
    obtain ⟨-, -, hsent⟩ | ⟨-, -, hsent⟩ | ⟨-, -, hsent, -⟩ |
        ⟨hpres, hopen, hnat, -, hmoved⟩ :=
      reparent_cases s.count_le target.id native h
    · cases hsent
    · cases hsent
    · cases hsent
    · exact iff_of_true ⟨_, _, rfl, fun _ => ⟨hmoved, rfl, rfl⟩, nofun⟩
        (.inl ⟨hpres, hopen, hnat⟩)
  case h_2 windows e h =>
    rw [atomic_error_iff]
    obtain ⟨habsent, rfl, -⟩ | ⟨-, -, hsent⟩ | ⟨hpres, hnat, -, hdrop⟩ |
      ⟨-, -, -, hsent, -⟩ := reparent_cases s.count_le target.id native h
    · simp [habsent]
    · cases hsent
    · grind
    · cases hsent
  case h_3 windows h =>
    refine iff_of_false not_atomic_panicked ?_
    obtain ⟨-, -, hsent⟩ | ⟨hpres, hclosed, -⟩ | ⟨-, -, hsent, -⟩ | ⟨-, -, -, hsent, -⟩ :=
      reparent_cases s.count_le target.id native h
    · cases hsent
    · simp [hpres, hclosed]
    · cases hsent
    · cases hsent

theorem atomic_move_iff :
    s.Atomic target (s.move delivery native target) ↔
      (delivery = .handled ∧ count s.windows s.id s.windowId ≠ 0 ∧ s.windows.isOpen target.id ∧
          native) ∨
        (target = s.window ∧ (delivery = .refused ∨
          (delivery = .handled ∧ count s.windows s.id s.windowId = 0))) := by
  cases delivery with
  | handled => simpa using atomic_handled_iff
  | refused =>
    have href : s.move .refused native target =
        .returned ({ s with window := target }, .error (.runtime .failedToSendMessage)) := rfl
    rw [href, atomic_error_iff]
    simp
  | dropped => exact iff_of_false not_atomic_panicked (by simp)
  | pending => exact iff_of_false not_atomic_blocked (by simp)

theorem isWebviewWindow_of_not_registered (h : s.registered = false) (held : Bool) (w : Window) :
    s.isWebviewWindow held w = some (decide (s.OnlyOwn w)) := by
  simp only [isWebviewWindow, webviews, h, Bool.and_false, Bool.false_eq_true, if_false,
    List.nil_append, Option.map_some, Option.some.injEq]
  rw [Bool.eq_iff_iff, decide_eq_true_iff]
  simp [OnlyOwn, imp_iff_not_or]

theorem cannotReparent_of_not_registered (h : s.registered = false) (target : Window) :
    s.cannotReparent target = some (decide (s.OnlyOwn s.window ∨ s.OnlyOwn target)) := by
  by_cases hown : s.OnlyOwn s.window <;>
    simp [cannotReparent, isWebviewWindow_of_not_registered h, hown]

/-- **Reparenting is all or nothing** exactly when the test does not block (the feature `unstable`
does without it, and a webview that the manager does not have is not asked), and then either the
test refuses the call, or the webview is in the list of its window, the target is open and the
message is handled with success, or the target is the window that the webview names already and the
message is answered with an error before anything is moved. -/
theorem atomic_iff (s : State) (unstable : Bool) (delivery : Delivery) (native : Bool)
    (target : Window) :
    s.Atomic target (s.reparent unstable delivery native target) ↔
      (unstable = true ∨ s.registered = false) ∧
        ((unstable = false ∧ (s.OnlyOwn s.window ∨ s.OnlyOwn target)) ∨
          (delivery = .handled ∧ count s.windows s.id s.windowId ≠ 0 ∧
            s.windows.isOpen target.id ∧ native) ∨
          (target = s.window ∧ (delivery = .refused ∨
            (delivery = .handled ∧ count s.windows s.id s.windowId = 0)))) := by
  rw [← atomic_move_iff]
  cases unstable with
  | true => simp [reparent]
  | false =>
    cases hreg : s.registered with
    | true =>
      have hblocked : s.reparent false delivery native target = .blocked := by
        simp [reparent, cannotReparent, isWebviewWindow, webviews, hreg]
      rw [hblocked]
      exact iff_of_false not_atomic_blocked (by simp)
    | false =>
      by_cases href : s.OnlyOwn s.window ∨ s.OnlyOwn target
      · have herror : s.reparent false delivery native target =
            .returned (s, .error .cannotReparentWebviewWindow) := by
          simp [reparent, cannotReparent_of_not_registered hreg, href]
        rw [herror, atomic_error_iff]
        simp [href]
      · have hmove : s.reparent false delivery native target = s.move delivery native target := by
          simp [reparent, cannotReparent_of_not_registered hreg, href]
        rw [hmove]
        simp [href]

end State

namespace Sample

/-- A webview in the first of two windows; the second one may be closed. -/
def state (opened registered : Bool) : State where
  windows := ((∅ : WindowsStore).insert
    0 { label := "first", webviews := [⟨5, "notes", []⟩] }).insert
    1 { label := "second", inner := opened }
  id := 5
  label := "notes"
  window := ⟨0, "first"⟩
  windowId := 0
  registered := registered
  others := []
  count_le := by
    intro w
    rcases w with _ | _ | w
    · decide +revert
    · decide +revert
    · simp [count, WindowsStore.webviews]

def second : Window := ⟨1, "second"⟩

end Sample

/-- Without `unstable` the call does not return. With it the call panics when the target is closed,
and when the native reparenting fails it returns an error, the webview is in no list and names the
target. -/
theorem reparent_not_atomic :
    ¬(Sample.state true true).Atomic Sample.second
        ((Sample.state true true).reparent false .handled true Sample.second) ∧
      ¬(Sample.state false true).Atomic Sample.second
        ((Sample.state false true).reparent true .handled true Sample.second) ∧
      ¬(Sample.state true true).Atomic Sample.second
        ((Sample.state true true).reparent true .handled false Sample.second) := by
  refine ⟨State.not_atomic_blocked, State.not_atomic_panicked, ?_⟩
  rintro ⟨s', result, h, -, herror⟩
  obtain ⟨rfl, rfl⟩ := Prod.mk.inj (Call.returned.inj h)
  obtain ⟨-, -, hwindow⟩ := herror _ rfl
  cases hwindow

end Tauri.Parents
