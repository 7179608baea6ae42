import Tauri.Rust.Execution
import Tauri.Rust.Map

/-!
# Menu handlers of windows

`Window::on_menu_event` stores a handler under the label of the window, and a menu event goes
through the handlers that are stored and calls those whose label is the label of a window. The
handlers are in one manager and the windows in another, so what a handler belongs to is the label
and not the window it was registered through.

`Faithful` says that a menu event calls the handlers whose windows are open, and each of them once.
Handlers have numbers in the order of their registration, and the state remembers the window that
each was registered through; no code reads this. The actions are taken to be atomic: a menu event
holds the lock on the handlers from its first call to its last, and windows are closed on the thread
that it runs on.

**A label outlives its window.** Nothing removes the handler of a window that is closed, so it is
called again when a window with the label is created; a handle of the closed window registers for
the new one; and a second handler of one window replaces the first. With these apart every action
keeps the handlers faithful (`Action.faithful_run_iff`).
-/

namespace Tauri.MenuHandlers

open Rust List Std.ExtTreeMap BTreeMap Function

/-- The windows of the manager, and `event_listeners`. A window and a handler are numbers. -/
structure State where
  windows : BTreeMap String Nat := ∅
  eventListeners : BTreeMap String Nat := ∅
  label : Nat → String := fun _ => ""
  registeredBy : Nat → Nat := fun _ => 0
  nextWindow : Nat := 0
  nextHandler : Nat := 0
  window_lt : ∀ {l : String} {w : Nat}, windows[l]? = some w → w < nextWindow := by simp
  window_label : ∀ {l : String} {w : Nat}, windows[l]? = some w → label w = l := by simp
  registeredBy_lt : ∀ {n : Nat}, n < nextHandler → registeredBy n < nextWindow := by simp
  handler_lt : ∀ {l : String} {n : Nat}, eventListeners[l]? = some n → n < nextHandler := by simp
  handler_label : ∀ {l : String} {n : Nat}, eventListeners[l]? = some n →
    label (registeredBy n) = l := by simp

namespace State

variable (s : State)

/-- A window is created, if the manager has none with the label. -/
def createWindow (l : String) : State :=
  if hl : l ∈ s.windows then s
  else
    { s with
      windows := s.windows.insert l s.nextWindow
      label := Function.update s.label s.nextWindow l
      nextWindow := s.nextWindow + 1
      window_lt := by
        intro l' w hw
        rw [Std.ExtTreeMap.getElem?_insert] at hw
        split_ifs at hw
        · cases hw
          exact Nat.lt_succ_self _
        · exact (s.window_lt hw).trans (Nat.lt_succ_self _)
      window_label := by
        intro l' w hw
        rw [Std.ExtTreeMap.getElem?_insert] at hw
        split_ifs at hw with heq
        · cases hw
          rw [Function.update_self]
          exact Std.LawfulEqOrd.eq_of_compare heq
        · rw [Function.update_of_ne (s.window_lt hw).ne]
          exact s.window_label hw
      registeredBy_lt := fun hn => (s.registeredBy_lt hn).trans (Nat.lt_succ_self _)
      handler_lt := s.handler_lt
      handler_label := by
        intro l' n hn
        rw [Function.update_of_ne (s.registeredBy_lt (s.handler_lt hn)).ne]
        exact s.handler_label hn }

/-- `AppManager::on_window_close`. -/
def onWindowClose (l : String) : State :=
  { s with
    windows := s.windows.erase l
    window_lt := by
      intro l' w hw
      rw [Std.ExtTreeMap.getElem?_erase] at hw
      split_ifs at hw
      exact s.window_lt hw
    window_label := by
      intro l' w hw
      rw [Std.ExtTreeMap.getElem?_erase] at hw
      split_ifs at hw
      exact s.window_label hw }

/-- `Window::on_menu_event`, through a handle of a window that was created. -/
def onMenuEvent (w : Nat) (hw : w < s.nextWindow) : State :=
  { s with
    eventListeners := s.eventListeners.insert (s.label w) s.nextHandler
    registeredBy := Function.update s.registeredBy s.nextHandler w
    nextHandler := s.nextHandler + 1
    registeredBy_lt := by
      intro n hn
      by_cases heq : n = s.nextHandler
      · rw [heq, Function.update_self]
        exact hw
      · rw [Function.update_of_ne heq]
        exact s.registeredBy_lt (by omega)
    handler_lt := by
      intro l n hn
      rw [Std.ExtTreeMap.getElem?_insert] at hn
      split_ifs at hn
      · cases hn
        exact Nat.lt_succ_self _
      · exact (s.handler_lt hn).trans (Nat.lt_succ_self _)
    handler_label := by
      intro l n hn
      rw [Std.ExtTreeMap.getElem?_insert] at hn
      split_ifs at hn with heq
      · cases hn
        rw [Function.update_self]
        exact Std.LawfulEqOrd.eq_of_compare heq
      · rw [Function.update_of_ne (s.handler_lt hn).ne]
        exact s.handler_label hn }

/-- A menu event: the handlers that are called, with the window that each is given. The handlers are
visited in some order. -/
def menuEvent (order : List (String × Nat)) : List (Nat × Nat) :=
  order.filterMap fun e => s.windows[e.1]?.map fun w => (e.2, w)

/-- The window is in the manager. -/
def Open (w : Nat) : Prop := ∃ l : String, s.windows[l]? = some w

/-- A menu event calls every handler whose window is open, with this window, and no other, and it
calls each of them once. -/
def Faithful : Prop :=
  ∀ order : List (String × Nat), order.Perm s.eventListeners.toList →
    ((s.menuEvent order).map Prod.fst).Nodup ∧
      ∀ n w, (n, w) ∈ s.menuEvent order ↔ n < s.nextHandler ∧ s.registeredBy n = w ∧ s.Open w

/-- The same of what is stored: the handler of an open window is stored under its label, and the
handler that is stored under the label of an open window is its own. -/
structure Owned : Prop where
  stored : ∀ {n}, n < s.nextHandler → s.Open (s.registeredBy n) →
    s.eventListeners[s.label (s.registeredBy n)]? = some n
  owner : ∀ {l : String} {n w}, s.eventListeners[l]? = some n → s.windows[l]? = some w →
    s.registeredBy n = w

variable {s}

theorem open_iff {w : Nat} : s.Open w ↔ s.windows[s.label w]? = some w := by
  refine ⟨fun ⟨l, hw⟩ => ?_, fun hw => ⟨_, hw⟩⟩
  rwa [s.window_label hw]

theorem mem_menuEvent {order : List (String × Nat)} (horder : order.Perm s.eventListeners.toList)
    {n w : Nat} : (n, w) ∈ s.menuEvent order ↔
      ∃ l : String, s.eventListeners[l]? = some n ∧ s.windows[l]? = some w := by
  simp only [menuEvent, mem_filterMap, Option.map_eq_some_iff, Prod.mk.injEq, Prod.exists,
    horder.mem_iff, mem_toList_iff_getElem?_eq_some]
  constructor
  · rintro ⟨l, _, hn, _, hw, rfl, rfl⟩
    exact ⟨l, hn, hw⟩
  · rintro ⟨l, hn, hw⟩
    exact ⟨l, n, hn, w, hw, rfl, rfl⟩

theorem nodup_menuEvent {order : List (String × Nat)}
    (horder : order.Perm s.eventListeners.toList) : ((s.menuEvent order).map Prod.fst).Nodup := by
  have hhs : (s.eventListeners.toList.map Prod.snd).Nodup := by
    refine List.Nodup.map_on ?_ (List.Nodup.of_map _ (nodup_map_fst_toList _))
    rintro ⟨l, n⟩ hn ⟨l', n'⟩ hn' rfl
    rw [mem_toList_iff_getElem?_eq_some] at hn hn'
    rw [← s.handler_label hn, ← s.handler_label hn']
  have hsub : ((s.menuEvent order).map Prod.fst).Sublist (order.map Prod.snd) := by
    clear horder
    induction order with
    | nil => exact .slnil
    | cons e order ih =>
      rw [menuEvent, List.filterMap_cons]
      rcases s.windows[e.1]? with _ | w
      · exact ih.cons _
      · exact ih.cons_cons _
  exact hsub.nodup ((horder.map Prod.snd).nodup_iff.mpr hhs)

theorem faithful_iff_owned : s.Faithful ↔ s.Owned := by
  constructor
  · intro h
    have hcalls := fun n w => (h _ (List.Perm.refl _)).2 n w
    refine ⟨fun {n} hn hopen => ?_, fun {l n w} hn hw => ?_⟩
    · obtain ⟨l, hl, -⟩ := (mem_menuEvent (List.Perm.refl _)).mp
        ((hcalls n (s.registeredBy n)).mpr ⟨hn, rfl, hopen⟩)
      rwa [s.handler_label hl]
    · exact ((hcalls n w).mp ((mem_menuEvent (List.Perm.refl _)).mpr ⟨l, hn, hw⟩)).2.1
  · intro h order horder
    refine ⟨nodup_menuEvent horder, fun n w => ?_⟩
    rw [mem_menuEvent horder]
    constructor
    · rintro ⟨l, hn, hw⟩
      exact ⟨s.handler_lt hn, h.owner hn hw, l, hw⟩
    · rintro ⟨hn, rfl, hopen⟩
      exact ⟨_, h.stored hn hopen, open_iff.mp hopen⟩

end State

/-! ### Runs -/

/-- What is done to windows and handlers. -/
inductive Action where
  | createWindow (l : String)
  | closeWindow (l : String)
  | onMenuEvent (w : Nat)

namespace Action

/-- The state after an action. -/
def run (s : State) : Action → State
  | createWindow l => s.createWindow l
  | closeWindow l => s.onWindowClose l
  | onMenuEvent w => if hw : w < s.nextWindow then s.onMenuEvent w hw else s

/-- A handle is one of a window that was created. -/
def Possible (s : State) : Action → Prop
  | createWindow _ => True
  | closeWindow l => l ∈ s.windows
  | onMenuEvent w => w < s.nextWindow

instance (s : State) (a : Action) : Decidable (a.Possible s) :=
  match a with
  | createWindow _ => inferInstanceAs (Decidable True)
  | closeWindow l => inferInstanceAs (Decidable (l ∈ s.windows))
  | onMenuEvent w => inferInstanceAs (Decidable (w < s.nextWindow))

/-- A window is created with a label that no handler is stored under. A handler is registered
through an open window that has none, or through a closed one whose label no window has. -/
def KeepsHandlers (s : State) : Action → Prop
  | createWindow l => l ∈ s.windows ∨ l ∉ s.eventListeners
  | closeWindow _ => True
  | onMenuEvent w => s.label w ∉ s.windows ∨ s.Open w ∧ s.label w ∉ s.eventListeners

end Action

namespace State

variable {s : State}

theorem Owned.createWindow_iff (h : s.Owned) (l : String) :
    (s.createWindow l).Owned ↔ l ∈ s.windows ∨ l ∉ s.eventListeners := by
  unfold State.createWindow
  split_ifs with hl
  · exact iff_of_true h (.inl hl)
  · have hlookup : ∀ {l' : String} {w : Nat},
        (s.windows.insert l s.nextWindow)[l']? = some w ↔
          l' = l ∧ w = s.nextWindow ∨ s.windows[l']? = some w := by
      intro l' w
      rw [getElem?_insert_eq_some]
      refine or_congr_right (and_iff_right_of_imp fun hw heq => hl ?_)
      exact mem_iff_exists.mpr ⟨w, heq ▸ hw⟩
    refine Iff.trans ?_ (or_iff_right hl).symm
    constructor
    · intro hnew hmem
      obtain ⟨n, hn⟩ := mem_iff_exists.mp hmem
      have howner : s.registeredBy n = s.nextWindow := hnew.owner hn (hlookup.mpr (.inl ⟨rfl, rfl⟩))
      exact (s.registeredBy_lt (s.handler_lt hn)).ne howner
    · intro hfree
      refine ⟨fun {n} hn hopen => ?_, fun {l' n w} hn hw => ?_⟩
      · have hlt : s.registeredBy n < s.nextWindow := s.registeredBy_lt hn
        obtain ⟨l', hl'⟩ := hopen
        rcases hlookup.mp hl' with ⟨-, hw⟩ | hl'
        · exact absurd hw hlt.ne
        · change s.eventListeners[update s.label s.nextWindow l (s.registeredBy n)]? = _
          rw [update_of_ne hlt.ne]
          exact h.stored hn ⟨l', hl'⟩
      · rcases hlookup.mp hw with ⟨rfl, -⟩ | hw
        · exact absurd (mem_iff_exists.mpr ⟨n, hn⟩) hfree
        · exact h.owner hn hw

theorem Owned.onWindowClose (h : s.Owned) (l : String) : (s.onWindowClose l).Owned := by
  have hsub : ∀ {l' : String} {w : Nat}, (s.windows.erase l)[l']? = some w →
      s.windows[l']? = some w :=
    fun hw => (getElem?_erase_eq_some.mp hw).2
  exact ⟨fun hn ⟨l', hl'⟩ => h.stored hn ⟨l', hsub hl'⟩, fun hn hw => h.owner hn (hsub hw)⟩

theorem Owned.onMenuEvent_iff (h : s.Owned) {w : Nat} (hw : w < s.nextWindow) :
    (s.onMenuEvent w hw).Owned ↔
      s.label w ∉ s.windows ∨ s.Open w ∧ s.label w ∉ s.eventListeners := by
  have hnew : (s.onMenuEvent w hw).registeredBy s.nextHandler = w := update_self ..
  have hold : ∀ {n}, n < s.nextHandler → (s.onMenuEvent w hw).registeredBy n = s.registeredBy n :=
    fun hn => update_of_ne hn.ne _ _
  have hself : (s.onMenuEvent w hw).eventListeners[s.label w]? = some s.nextHandler :=
    getElem?_insert_self
  have hother : ∀ {l : String}, l ≠ s.label w →
      (s.onMenuEvent w hw).eventListeners[l]? = s.eventListeners[l]? :=
    fun hne => getElem?_insert_of_ne _ _ hne
  constructor
  · intro howned
    by_cases hmem : s.label w ∈ s.windows
    · right
      obtain ⟨w', hw'⟩ := mem_iff_exists.mp hmem
      have heq : w = w' := hnew.symm.trans (howned.owner hself hw')
      subst heq
      refine ⟨⟨_, hw'⟩, fun hsto => ?_⟩
      -- the handler that was stored belongs to the same window, and is stored no more
      obtain ⟨n, hn⟩ := mem_iff_exists.mp hsto
      have hlt := s.handler_lt hn
      have howner : s.registeredBy n = w := h.owner hn hw'
      have hstill := @howned.stored n (hlt.trans (Nat.lt_succ_self _))
        (by rw [hold hlt, howner]; exact ⟨_, hw'⟩)
      rw [hold hlt, howner] at hstill
      cases hself.symm.trans hstill
      exact hlt.ne rfl
    · exact .inl hmem
  · intro hkeeps
    refine ⟨fun {n} hn hopen => ?_, fun {l n w'} hn hw' => ?_⟩
    · by_cases heq : n = s.nextHandler
      · subst heq
        rw [hnew]
        exact hself
      · have hlt : n < s.nextHandler := by
          have hn' : n < s.nextHandler + 1 := hn
          omega
        rw [hold hlt] at hopen ⊢
        have hsto := h.stored hlt hopen
        refine (hother fun hlbl => ?_).trans hsto
        rcases hkeeps with hnone | ⟨-, hfree⟩
        · exact hnone (mem_iff_exists.mpr ⟨_, hlbl ▸ open_iff.mp hopen⟩)
        · exact hfree (mem_iff_exists.mpr ⟨n, hlbl ▸ hsto⟩)
    · by_cases hl : l = s.label w
      · subst hl
        cases hself.symm.trans hn
        rw [hnew]
        rcases hkeeps with hnone | ⟨hopen, -⟩
        · exact absurd (mem_iff_exists.mpr ⟨w', hw'⟩) hnone
        · exact Option.some_injective _ ((open_iff.mp hopen).symm.trans hw')
      · rw [hother hl] at hn
        rw [hold (s.handler_lt hn)]
        exact h.owner hn hw'

end State

namespace Action

/-- **What an action does to faithful handlers.** -/
theorem faithful_run_iff {s : State} (h : s.Faithful) {a : Action} (ha : a.Possible s) :
    (a.run s).Faithful ↔ a.KeepsHandlers s := by
  rw [State.faithful_iff_owned] at h ⊢
  cases a with
  | createWindow l => exact h.createWindow_iff l
  | closeWindow l => exact iff_of_true (h.onWindowClose l) trivial
  | onMenuEvent w =>
    have hw : w < s.nextWindow := ha
    rw [run, dif_pos hw]
    exact h.onMenuEvent_iff hw

/-- A step of a run. -/
inductive Step (s : State) : List Action → State → Prop
  | act (a : Action) (h : a.Possible s) : Step s [a] (a.run s)

end Action

theorem State.faithful_start : ({} : State).Faithful :=
  State.faithful_iff_owned.mpr ⟨fun hn => absurd hn (Nat.not_lt_zero _), by simp⟩

theorem State.mem_menuEvent_onMenuEvent {s : State} (h : s.Faithful) {w : Nat}
    (hw : w < s.nextWindow) (haft : (s.onMenuEvent w hw).Faithful)
    {order order' : List (String × Nat)} (horder : order.Perm s.eventListeners.toList)
    (horder' : order'.Perm (s.onMenuEvent w hw).eventListeners.toList) {n w' : Nat}
    (hmem : (n, w') ∈ s.menuEvent order) : (n, w') ∈ (s.onMenuEvent w hw).menuEvent order' := by
  obtain ⟨hn, howner, hopen⟩ := ((h order horder).2 n w').mp hmem
  refine ((haft order' horder').2 n w').mpr ⟨hn.trans (Nat.lt_succ_self _), ?_, hopen⟩
  exact (update_of_ne hn.ne _ _).trans howner

/-- **The handlers in a run.** In every run whose actions keep them, a menu event calls the handlers
of the open windows; an action in such a state keeps it so exactly when it meets the condition; and
where a handler is registered, those that were called are called as before. -/
theorem menuHandlers_faithful {as : List Action} {s : State}
    (h : Execution (guarded (fun s as => ∀ a ∈ as, a.KeepsHandlers s) Action.Step) {} as s) :
    s.Faithful ∧ (∀ a : Action, a.Possible s → ((a.run s).Faithful ↔ a.KeepsHandlers s)) ∧
      ∀ (w : Nat) (hw : w < s.nextWindow), (Action.onMenuEvent w).KeepsHandlers s →
        ∀ order order' : List (String × Nat), order.Perm s.eventListeners.toList →
          order'.Perm (s.onMenuEvent w hw).eventListeners.toList →
          ∀ n w', (n, w') ∈ s.menuEvent order →
            (n, w') ∈ (s.onMenuEvent w hw).menuEvent order' := by
  have hfaith : s.Faithful := by
    refine Execution.invariant (I := fun _ s => s.Faithful) State.faithful_start ?_ h
    rintro _ _ s _ - hs ⟨⟨a, ha⟩, hkeeps⟩
    exact (Action.faithful_run_iff hs ha).mpr (hkeeps a (List.mem_singleton.mpr rfl))
  refine ⟨hfaith, fun a ha => Action.faithful_run_iff hfaith ha, fun w hw hkeeps => ?_⟩
  have haft := (Action.faithful_run_iff hfaith (a := .onMenuEvent w) hw).mpr hkeeps
  rw [Action.run, dif_pos hw] at haft
  intro order order' horder horder' n w'
  exact State.mem_menuEvent_onMenuEvent hfaith hw haft horder horder'

namespace Sample

/-- The state after some actions. -/
def after (as : List Action) : State := as.foldl Action.run {}

/-- The calls of a menu event. -/
def calls (as : List Action) : List (Nat × Nat) :=
  (after as).menuEvent (after as).eventListeners.toList

/-- A window registers a handler and is closed, and a window with its label is created. -/
def reopened : List Action :=
  [.createWindow "main", .onMenuEvent 0, .closeWindow "main", .createWindow "main"]

/-- A window registers two handlers. -/
def twice : List Action := [.createWindow "main", .onMenuEvent 0, .onMenuEvent 0]

/-- A window is closed, another one with its label registers a handler, and then the closed one. -/
def stale : List Action :=
  [.createWindow "main", .closeWindow "main", .createWindow "main", .onMenuEvent 1,
    .onMenuEvent 0]

/-- Two windows register a handler each, and one of them is closed. -/
def orderly : List Action :=
  [.createWindow "main", .onMenuEvent 0, .createWindow "second", .onMenuEvent 1,
    .closeWindow "main"]

theorem step {s : State} (a : Action) (h : a.Possible s) (hkeeps : a.KeepsHandlers s) :
    guarded (fun s as => ∀ a ∈ as, Action.KeepsHandlers s a) Action.Step s [a] (a.run s) :=
  ⟨.act a h, List.forall_mem_singleton.mpr hkeeps⟩

theorem run_orderly :
    Execution (guarded (fun s as => ∀ a ∈ as, Action.KeepsHandlers s a) Action.Step) {} orderly
      (after orderly) := by
  refine .next (.next (.next (.next (.next .start (step (.createWindow "main") trivial ?_))
    (step (.onMenuEvent 0) (by decide) ?_)) (step (.createWindow "second") trivial ?_))
    (step (.onMenuEvent 1) (by decide) ?_))
    (step (.closeWindow "main") (by decide) trivial)
  · exact .inr (by decide)
  · exact .inr ⟨⟨"main", by decide⟩, by decide⟩
  · exact .inr (by decide)
  · exact .inr ⟨⟨"second", by decide⟩, by decide⟩

end Sample

/-- Of two windows with handlers one is closed, and a menu event calls the handler of the other. -/
theorem sample_handlers_orderly :
    Sample.calls Sample.orderly = [(1, 1)] ∧ (Sample.after Sample.orderly).Faithful :=
  ⟨by decide, (menuHandlers_faithful Sample.run_orderly).1⟩

open Action.Step

/-- A handler is called with a window that is not its own, which is closed; the first handler of a
window is not called any more; and a closed window removes the handler of an open one. -/
theorem handlers_not_faithful :
    (∃ s, Execution Action.Step {} Sample.reopened s ∧ s.registeredBy 0 = 0 ∧ ¬ s.Open 0 ∧
        (0, 1) ∈ s.menuEvent s.eventListeners.toList) ∧
      (∃ s, Execution Action.Step {} Sample.twice s ∧ s.registeredBy 0 = 0 ∧ s.Open 0 ∧
        (0, 0) ∉ s.menuEvent s.eventListeners.toList) ∧
      ∃ s, Execution Action.Step {} Sample.stale s ∧ s.registeredBy 0 = 1 ∧ s.Open 1 ∧
        (0, 1) ∉ s.menuEvent s.eventListeners.toList := by
  refine ⟨⟨Sample.after Sample.reopened, ?_, by decide, ?_, by decide⟩,
    ⟨Sample.after Sample.twice, ?_, by decide, ⟨"main", by decide⟩, by decide⟩,
    ⟨Sample.after Sample.stale, ?_, by decide, ⟨"main", by decide⟩, by decide⟩⟩
  · exact .next (.next (.next (.next .start (act (.createWindow "main") trivial))
      (act (.onMenuEvent 0) (by decide)))
      (act (.closeWindow "main") (by decide)))
      (act (.createWindow "main") trivial)
  · rw [State.open_iff]
    decide
  · exact .next (.next (.next .start (act (.createWindow "main") trivial))
      (act (.onMenuEvent 0) (by decide)))
      (act (.onMenuEvent 0) (by decide))
  · exact .next (.next (.next (.next (.next .start
      (act (.createWindow "main") trivial))
      (act (.closeWindow "main") (by decide)))
      (act (.createWindow "main") trivial))
      (act (.onMenuEvent 1) (by decide)))
      (act (.onMenuEvent 0) (by decide))

end Tauri.MenuHandlers
