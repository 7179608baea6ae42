import Tauri.Rust.Locks
import Tauri.Rust.Map

/-!
# Menu events and the handlers that register handlers

A menu event goes through the handlers of the application and then through those of the windows.
Each of the two collections has a lock of its own, which is held while its handlers run; and each
of the two functions that register a handler takes one of the locks. So a handler may register one
of the **other** kind, and blocks forever where it registers one of its own kind: the event does not
return, and neither does the event loop it is handled in.

What a handler does at an event is arbitrary, and given with the event (`does`): the handlers that
it registers, in order. The log has the handlers that were called, as the registrations they come
from.
-/

namespace Tauri.MenuEvents

open Rust List

/-- The locks of `MenuManager`. -/
inductive Lock where
  | globalEventListeners
  | eventListeners
  deriving DecidableEq

/-- A handler, with what it is registered for. -/
inductive Registration (H : Type) where
  /-- `MenuManager::on_menu_event`. -/
  | app (h : H)
  /-- `Window::on_menu_event`. -/
  | window (label : String) (h : H)
  deriving DecidableEq

/-- The handlers of `MenuManager`, and the calls. -/
structure Listeners (H : Type) where
  globalEventListeners : List H := []
  eventListeners : BTreeMap String H := ∅
  calls : List (Registration H) := []

variable {H : Type}

namespace Listeners

/-- The state after a registration. -/
def add (r : Registration H) (s : Listeners H) : Listeners H :=
  match r with
  | .app h => { s with globalEventListeners := s.globalEventListeners ++ [h] }
  | .window label h => { s with eventListeners := s.eventListeners.insert label h }

def log (r : Registration H) (s : Listeners H) : Listeners H := { s with calls := s.calls ++ [r] }

/-- The registrations of the application. -/
def apps (s : Listeners H) : List (Registration H) := s.globalEventListeners.map .app

/-- The registrations for windows, the windows being those with these labels, in an order in which
the map is visited. -/
def windows (isWindow : String → Bool) (visit : List (String × H) → List (String × H))
    (s : Listeners H) : List (Registration H) :=
  ((visit s.eventListeners.toList).filter fun e => isWindow e.1).map fun e => .window e.1 e.2

end Listeners

/-- The handler of a registration. -/
def Registration.handler : Registration H → H
  | app h => h
  | window _ h => h

/-- The lock that a registration takes. -/
def Registration.lock : Registration H → Lock
  | app _ => .globalEventListeners
  | window _ _ => .eventListeners

/-- `on_menu_event`, of the manager or of a window. -/
def onMenuEvent (r : Registration H) : Locking Lock (Listeners H) Unit :=
  .withLock r.lock (.modify (.add r))

section Event

variable (does : H → List (Registration H)) (isWindow : String → Bool)
  (visit : List (String × H) → List (String × H))

/-- A handler is called. -/
def call (r : Registration H) : Locking Lock (Listeners H) Unit := do
  .modify (.log r)
  (does r.handler).forM onMenuEvent

/-- The loop over the handlers of the application. -/
def callApps : Locking Lock (Listeners H) Unit :=
  .withLock .globalEventListeners <| .read fun s =>
    s.globalEventListeners.forM fun h => call does (.app h)

/-- The loop over the handlers of the windows, the windows being those with these labels. The map is
visited in some order. -/
def callWindows : Locking Lock (Listeners H) Unit :=
  .withLock .eventListeners <| .read fun s =>
    (visit s.eventListeners.toList).forM fun e =>
      if isWindow e.1 then call does (.window e.1 e.2) else pure ()

/-- The part of `on_event_loop_event` for a menu event. -/
def menuEvent : Locking Lock (Listeners H) Unit := do
  callApps does
  callWindows does isWindow visit

end Event

/-! ### The event without locks -/

section Unlocked

variable (does : H → List (Registration H)) (isWindow : String → Bool)
  {visit : List (String × H) → List (String × H)} {held : Lock → Bool}

/-- The state after some registrations. -/
def Listeners.addAll (rs : List (Registration H)) (s : Listeners H) : Listeners H :=
  rs.foldl (fun s r => s.add r) s

/-- The state after a call. -/
def Listeners.call (r : Registration H) (s : Listeners H) : Listeners H :=
  (s.log r).addAll (does r.handler)

/-- The state after some calls. -/
def Listeners.callAll (rs : List (Registration H)) (s : Listeners H) : Listeners H :=
  rs.foldl (fun s r => s.call does r) s

variable (r : Registration H)

theorem does_onMenuEvent :
    Locking.Does held (fun _ => held r.lock = false) (Listeners.add r) (onMenuEvent r) := by
  rcases hlock : held r.lock with _ | _
  · exact (Locking.Does.withLock_free hlock (.modify _)).congr (by simp) fun _ _ => rfl
  · exact (Locking.Does.withLock_held hlock _).congr (by simp) (by simp)

theorem does_call :
    Locking.Does held (fun _ => ∀ r' ∈ does r.handler, held r'.lock = false)
      (fun s => s.call does r) (call does r) := by
  refine ((Locking.Does.modify _).bind (Locking.Does.forM does_onMenuEvent (by simp) _)).congr ?_ ?_
  · simp
  · exact fun _ _ => rfl

/-- A handler that registers none of its own kind. -/
def Crosses (r : Registration H) : Prop := ∀ r' ∈ does r.handler, r'.lock ≠ r.lock

instance (r : Registration H) : Decidable (Crosses does r) :=
  inferInstanceAs (Decidable (∀ r' ∈ does r.handler, r'.lock ≠ r.lock))

theorem does_call_locked :
    Locking.Does (Function.update (fun _ => false) r.lock true) (fun _ => Crosses does r)
      (fun s => s.call does r) (call does r) := by
  refine (does_call does r).congr (fun _ => ?_) fun _ _ => rfl
  simp only [Crosses, Function.update_apply, ite_eq_right_iff, Bool.true_eq_false, imp_false]

open Listeners

theorem does_callApps :
    Locking.Does (fun _ => false) (fun s : Listeners H => ∀ r ∈ s.apps, Crosses does r)
      (fun s => s.callAll does s.apps) (callApps does) := by
  refine .withLock_free rfl ?_
  have hbody : ∀ h : H, Locking.Does
      (Function.update (fun _ => false) Lock.globalEventListeners true)
      (fun _ => Crosses does (.app h)) (fun s => s.call does (.app h)) (call does (.app h)) :=
    fun h => does_call_locked does (.app h)
  refine (Locking.Does.read fun s : Listeners H => Locking.Does.forM hbody (by simp)
    s.globalEventListeners).congr (fun s => ?_) fun s _ => ?_
  · simp [apps]
  · simp [callAll, apps, foldl_map]

theorem does_callWindows :
    Locking.Does (fun _ => false)
      (fun s : Listeners H => ∀ r ∈ s.windows isWindow visit, Crosses does r)
      (fun s => s.callAll does (s.windows isWindow visit)) (callWindows does isWindow visit) := by
  refine .withLock_free rfl ?_
  have hbody : ∀ e : String × H, Locking.Does
      (Function.update (fun _ => false) Lock.eventListeners true)
      (fun _ => isWindow e.1 = true → Crosses does (.window e.1 e.2))
      (fun s => if isWindow e.1 then s.call does (.window e.1 e.2) else s)
      (if isWindow e.1 then call does (.window e.1 e.2) else pure ()) := by
    intro e
    split_ifs with he
    · exact (does_call_locked does (.window e.1 e.2)).congr (by simp [he]) fun _ _ => rfl
    · exact Locking.Does.pure.congr (by simp [he]) fun _ _ => rfl
  refine (Locking.Does.read fun s => Locking.Does.forM hbody (by simp)
    (visit s.eventListeners.toList)).congr (fun s => ?_) fun s _ => ?_
  · simp only [windows, forall_mem_map, mem_filter, and_imp]
  · simp [callAll, windows, foldl_map, foldl_filter]

theorem does_menuEvent : Locking.Does (fun _ => false)
    (fun s : Listeners H => (∀ r ∈ s.apps, Crosses does r) ∧
      ∀ r ∈ (s.callAll does s.apps).windows isWindow visit, Crosses does r)
    (fun s => (s.callAll does s.apps).callAll does
      ((s.callAll does s.apps).windows isWindow visit))
    (menuEvent does isWindow visit) :=
  (does_callApps does).bind (does_callWindows does isWindow)

/-! ### What is registered -/

/-- The handler that a registration is for, if it is the application. -/
def Registration.app? : Registration H → Option H
  | app h => some h
  | window _ _ => none

/-- The entry that a registration makes, if it is for a window. -/
def Registration.window? : Registration H → Option (String × H)
  | app _ => none
  | window label h => some (label, h)

/-- The registrations that some handlers make. -/
def made (rs : List (Registration H)) : List (Registration H) := rs.flatMap fun r => does r.handler

open Registration

variable (rs : List (Registration H))

variable (s : Listeners H)

theorem addAll_eq :
    s.addAll rs = { s with
      globalEventListeners := s.globalEventListeners ++ rs.filterMap Registration.app?
      eventListeners := s.eventListeners.insertAll (rs.filterMap Registration.window?) } := by
  induction rs generalizing s with
  | nil => simp [addAll, BTreeMap.insertAll]
  | cons r rs ih =>
    rw [addAll, foldl_cons]
    refine (ih _).trans ?_
    cases r <;>
      simp [add, app?, window?, BTreeMap.insertAll, filterMap_cons]

theorem callAll_eq :
    s.callAll does rs = { s.addAll (made does rs) with calls := s.calls ++ rs } := by
  induction rs generalizing s with
  | nil => simp [Listeners.callAll, made, Listeners.addAll]
  | cons r rs ih =>
    rw [Listeners.callAll, foldl_cons]
    refine (ih _).trans ?_
    simp only [made, flatMap_cons, Listeners.call, addAll_eq, Listeners.log,
      filterMap_append, append_assoc, BTreeMap.insertAll_append]
    simp

theorem callAll_calls : (s.callAll does rs).calls = s.calls ++ rs := by
  rw [callAll_eq]

variable {rs} {s : Listeners H} {h : H} {label : String}

theorem mem_apps_callAll :
    .app h ∈ (s.callAll does rs).apps ↔ .app h ∈ s.apps ∨ .app h ∈ made does rs := by
  rw [callAll_eq, addAll_eq]
  simp only [apps, map_append, mem_append, mem_map, app.injEq, exists_eq_right, mem_filterMap]
  refine or_congr Iff.rfl ⟨?_, fun hmade => ⟨_, hmade, rfl⟩⟩
  rintro ⟨r, hr, happ⟩
  cases r with
  | app h' =>
    cases happ
    exact hr
  | window => cases happ

theorem getElem?_callAll :
    (s.callAll does rs).eventListeners[label]? =
      (valuesAt label ((made does rs).filterMap Registration.window?)).getLast?.or
        s.eventListeners[label]? := by
  rw [callAll_eq, addAll_eq]
  exact BTreeMap.getElem?_insertAll ..

theorem mem_valuesAt_window :
    h ∈ valuesAt label (rs.filterMap Registration.window?) ↔ .window label h ∈ rs := by
  rw [mem_valuesAt, mem_filterMap]
  constructor
  · rintro ⟨r, hr, hwindow⟩
    cases r with
    | app h' => cases hwindow
    | window =>
      cases hwindow
      exact hr
  · exact fun hr => ⟨_, hr, rfl⟩

theorem eventListeners_callAll (hrs : ∀ label h, .window label h ∉ made does rs) (label : String) :
    (s.callAll does rs).eventListeners[label]? = s.eventListeners[label]? := by
  have hnil : valuesAt label ((made does rs).filterMap window?) = [] :=
    eq_nil_iff_forall_not_mem.mpr fun h hh => hrs label h (mem_valuesAt_window.mp hh)
  rw [getElem?_callAll, hnil, getLast?_nil, Option.none_or]

theorem mem_windows (hvisit : ∀ l : List (String × H), (visit l).Perm l) :
    .window label h ∈ s.windows isWindow visit ↔
      isWindow label = true ∧ s.eventListeners[label]? = some h := by
  simp only [windows, mem_map, mem_filter, (hvisit _).mem_iff,
    Std.ExtTreeMap.mem_toList_iff_getElem?_eq_some, window.injEq, Prod.exists]
  constructor
  · rintro ⟨_, _, ⟨hsto, hwindow⟩, rfl, rfl⟩
    exact ⟨hwindow, hsto⟩
  · rintro ⟨hwindow, hsto⟩
    exact ⟨label, h, ⟨hsto, hwindow⟩, rfl, rfl⟩

end Unlocked

/-! ### Events that return -/

section Serves

variable (does : H → List (Registration H)) (isWindow : String → Bool)
  (visit : List (String × H) → List (String × H)) (s : Listeners H)

/-- What a registration is for is there: the application always is. -/
def Registration.IsOpen (isWindow : String → Bool) : Registration H → Prop
  | app _ => True
  | window label _ => isWindow label = true

/-- A menu event returns, and the handlers that were registered while it was handled are called for
the next one, unless they are for windows that are closed by then. -/
def Serves : Prop :=
  ∃ s', menuEvent does isWindow visit (fun _ => false) { s with calls := [] } = some ((), s') ∧
    ∀ (isWindow' : String → Bool) (visit' : List (String × H) → List (String × H)),
      (∀ l, (visit' l).Perm l) →
      ∃ s'', menuEvent (fun _ => []) isWindow' visit' (fun _ => false) { s' with calls := [] } =
          some ((), s'') ∧
        ∀ r ∈ made does s'.calls, r.IsOpen isWindow' → r ∈ s''.calls

/-- The handler of a window when the handlers of the application have been called: one that they
have registered, or else the one that was stored. -/
def Stores (label : String) (h : H) : Prop :=
  .window label h ∈ made does s.apps ∨
    (∀ h', .window label h' ∉ made does s.apps) ∧ s.eventListeners[label]? = some h

/-- No handler registers one of its own kind while it runs, and the handlers of the application do
not register two handlers for one window. -/
structure Orderly : Prop where
  apps : ∀ r ∈ s.apps, Crosses does r
  windows : ∀ label h, isWindow label = true → Stores does s label h →
    Crosses does (.window label h)
  once : ∀ label h h', .window label h ∈ made does s.apps → .window label h' ∈ made does s.apps →
    h = h'

variable {does s} in
theorem stores_iff (honce : ∀ label h h', .window label h ∈ made does s.apps →
    .window label h' ∈ made does s.apps → h = h') {label : String} {h : H} :
    (s.callAll does s.apps).eventListeners[label]? = some h ↔ Stores does s label h := by
  rw [getElem?_callAll]
  rcases hlast : (valuesAt label ((made does s.apps).filterMap Registration.window?)).getLast? with
    _ | h'
  · have hnone : ∀ h', .window label h' ∉ made does s.apps := fun h' hh' => by
      rw [← mem_valuesAt_window, getLast?_eq_none_iff.mp hlast] at hh'
      cases hh'
    rw [Option.none_or]
    exact ⟨fun hsto => .inr ⟨hnone, hsto⟩,
      fun hstores => (hstores.resolve_left (hnone h)).2⟩
  · have hmade : .window label h' ∈ made does s.apps :=
      mem_valuesAt_window.mp (mem_of_getLast? hlast)
    rw [Option.some_or, Option.some.injEq]
    constructor
    · rintro rfl
      exact .inl hmade
    · rintro (hh | ⟨hnone, -⟩)
      · exact honce label h' h hmade hh
      · exact absurd hmade (hnone h')

theorem menuEvent_quiet (isWindow : String → Bool)
    (visit : List (String × H) → List (String × H)) (s : Listeners H) :
    ∃ s', menuEvent (fun _ => []) isWindow visit (fun _ => false) { s with calls := [] } =
      some ((), s') ∧ s'.calls = s.apps ++ s.windows isWindow visit := by
  have hquiet : ∀ (rs : List (Registration H)) (t : Listeners H),
      t.callAll (fun _ => []) rs = { t with calls := t.calls ++ rs } := by
    intro rs t
    have hmade : made (fun _ => []) rs = [] := by simp [made]
    rw [callAll_eq, hmade]
    rfl
  refine ⟨_, (does_menuEvent (fun _ => []) isWindow _ _).mpr ⟨?_, rfl⟩, ?_⟩
  · simp [Crosses]
  · beta_reduce
    rw [hquiet, hquiet]
    rfl

/-- A handler is stored for what it was registered for. -/
def Listeners.Has (s : Listeners H) : Registration H → Prop
  | .app h => .app h ∈ s.apps
  | .window label h => s.eventListeners[label]? = some h

variable {visit s} in
theorem mem_called (hvisit : ∀ l, (visit l).Perm l) {r : Registration H} :
    r ∈ s.apps ++ s.windows isWindow visit ↔ r.IsOpen isWindow ∧ s.Has r := by
  cases r with
  | app h => simp [Registration.IsOpen, Listeners.Has, Listeners.windows]
  | window =>
    rw [mem_append, mem_windows isWindow hvisit]
    simp [Listeners.apps, Registration.IsOpen, Listeners.Has]

variable {s} in
/-- The next event calls some handlers, if they are for open windows, exactly when they are
stored. -/
theorem next_calls_iff {rs : List (Registration H)} :
    (∀ (isWindow : String → Bool) (visit : List (String × H) → List (String × H)),
      (∀ l, (visit l).Perm l) →
      ∃ s', menuEvent (fun _ => []) isWindow visit (fun _ => false) { s with calls := [] } =
          some ((), s') ∧
        ∀ r ∈ rs, r.IsOpen isWindow → r ∈ s'.calls) ↔ ∀ r ∈ rs, s.Has r := by
  constructor
  · intro hnext r hr
    -- every window may be open
    obtain ⟨s', hrun, hcalled⟩ := hnext (fun _ => true) id fun _ => Perm.refl _
    obtain ⟨s₂, hrun₂, hcalls⟩ := menuEvent_quiet (fun _ => true) id s
    cases hrun₂.symm.trans hrun
    have hopen : r.IsOpen fun _ => true := by cases r <;> trivial
    have hmem : r ∈ s.apps ++ s.windows (fun _ => true) id := hcalls ▸ hcalled r hr hopen
    exact ((mem_called _ fun _ => Perm.refl _).mp hmem).2
  · intro hhas isWindow visit hvisit
    obtain ⟨s', hrun, hcalls⟩ := menuEvent_quiet isWindow visit s
    refine ⟨s', hrun, fun r hr hopen => ?_⟩
    rw [hcalls, mem_called _ hvisit]
    exact ⟨hopen, hhas r hr⟩

variable {does isWindow visit s} in
theorem window_not_mem_made (h : ∀ r ∈ s.windows isWindow visit, Crosses does r) (label : String)
    (handler : H) : .window label handler ∉ made does (s.windows isWindow visit) := by
  intro hmem
  obtain ⟨r, hr, hmem⟩ := mem_flatMap.mp hmem
  refine h r hr _ hmem ?_
  obtain ⟨e, -, rfl⟩ := mem_map.mp hr
  rfl

end Serves

namespace Sample

/-- A handler of the application registers one for a window, which registers one for the
application. -/
def crossing : Nat → List (Registration Nat)
  | 0 => [.window "main" 1]
  | 1 => [.app 2]
  | _ => []

/-- The handler of the application. -/
def listeners : Listeners Nat := { globalEventListeners := [0] }

theorem orderly_crossing : Orderly crossing (fun label => label == "main") listeners := by
  have hmade : made crossing listeners.apps = [.window "main" 1] := rfl
  refine ⟨by decide, fun label h _ hstores => ?_, fun label h h' hh hh' => ?_⟩
  · have hh : h = 1 := by
      rcases hstores with hh | ⟨-, hh⟩
      · simp_all
      · simp [listeners] at hh
    subst hh
    exact forall_mem_singleton.mpr nofun
  · simp_all

/-- A handler of the application registers one for the application. -/
def again : Nat → List (Registration Nat)
  | 0 => [.app 1]
  | _ => []

/-- A handler of a window registers one for the window. -/
def windowAgain : Nat → List (Registration Nat)
  | 0 => [.window "main" 1]
  | _ => []

/-- Two handlers of the application register one each for a window. -/
def both : Nat → List (Registration Nat)
  | 0 => [.window "main" 2]
  | 1 => [.window "main" 3]
  | _ => []

end Sample

end Tauri.MenuEvents
