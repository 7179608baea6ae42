import Tauri.Window.Creation

/-!
# Unique labels

No step of a creation makes sure that the label it has looked up is still free, and closing works by
label. `labels_unique` says that labels are unique as long as no label is prepared twice at a time,
nothing is closed while it is created, no webview is closed twice and the runtime creates what it
says it does.
-/

namespace Tauri.Window

open Rust List Function Option Desktop
open Events (Error)

/-! ### The invariant -/

/-- The window of a webview is live, and the entry for the webview has its label. -/
def Desktop.Nested (s : Desktop) : Prop :=
  ∀ (id : Nat) (w : RuntimeWebview), s.runtimeWebviews[id]? = some w →
    ∃ windowLabel, s.runtimeWindows[w.window]? = some windowLabel ∧
      ∀ webview, s.webviews[w.label]? = some webview → webview.windowLabel = windowLabel

/-- What a thread has created is live, and a webview is to be created in a window. -/
structure Phase.Ok (s : Desktop) (phase : Phase) : Prop where
  parent : ∀ {id label}, phase.parent = some (id, label) → s.runtimeWindows[id]? = some label
  webview : ∀ {id label webview label'}, phase.parent = some (id, label) →
    phase.webviewClaim = .created label' webview → s.runtimeWebviews[webview]? = some ⟨label', id⟩
  handle : ∀ {label window windowLabel}, phase = .childPrepared label window windowLabel →
    s.IsWindow window windowLabel

namespace Phase.Ok

variable {s : Desktop} {phase : Phase}

theorem of_parent (hpar : phase.parent = none)
    (hhandle : ∀ {label window windowLabel}, phase = .childPrepared label window windowLabel →
      s.IsWindow window windowLabel) : phase.Ok s :=
  ⟨by simp [hpar], by simp [hpar], hhandle⟩

theorem idle (s : Desktop) : Phase.idle.Ok s := .of_parent rfl nofun

variable (h : phase.Ok s)
include h

theorem createWindow (label : String) : phase.Ok (s.createWindow label) := by
  refine ⟨fun hpar => Desktop.getElem?_createWindow (h.parent hpar) label, h.webview, ?_⟩
  intro label' window windowLabel hphase
  obtain ⟨hlt, hlbl⟩ := h.handle hphase
  refine ⟨Nat.lt_succ_of_lt hlt, fun label'' hlive => hlbl label'' ?_⟩
  simpa [Desktop.createWindow, Std.ExtTreeMap.getElem?_insert, Nat.ne_of_gt hlt] using hlive

theorem createWebview (label : String) (window : Nat) : phase.Ok (s.createWebview label window) :=
  ⟨h.parent, fun hpar hclaim => getElem?_createWebview (h.webview hpar hclaim) ..,
    h.handle⟩

theorem destroyed {id : Nat} {label : String} (hid : ∀ label, phase.parent ≠ some (id, label)) :
    phase.Ok (s.destroyed id label) := by
  have hne : ∀ {id' label'}, phase.parent = some (id', label') → id' ≠ id := by
    rintro id' label' hpar rfl
    exact hid label' hpar
  refine ⟨?_, ?_, ?_⟩
  · intro id' label' hpar
    rw [Desktop.runtimeWindows_destroyed, if_neg (hne hpar).symm]
    exact h.parent hpar
  · intro id' label' webview label'' hpar hclaim
    rw [Desktop.runtimeWebviews_destroyed, h.webview hpar hclaim]
    simp [hne hpar]
  · intro label' window windowLabel hphase
    obtain ⟨hlt, hlbl⟩ := h.handle hphase
    have hnext : (s.destroyed id label).nextWindowId = s.nextWindowId := by
      rw [Desktop.destroyed, Desktop.onWindowClose]
      split_ifs <;> rfl
    refine ⟨hnext ▸ hlt, fun label'' hlive => hlbl label'' ?_⟩
    rw [Desktop.runtimeWindows_destroyed] at hlive
    split_ifs at hlive
    exact hlive

theorem closeWebview {id : Nat} {label : String}
    (hid : ∀ label, phase.webviewClaim ≠ .created label id) :
    phase.Ok (s.closeWebview id label) := by
  refine ⟨h.parent, ?_, h.handle⟩
  intro id' label' webview label'' hpar hclaim
  have hne : id ≠ webview := by
    rintro rfl
    exact hid label'' hclaim
  rw [runtimeWebviews_closeWebview, if_neg hne]
  exact h.webview hpar hclaim

end Phase.Ok

namespace Desktop.Nested

variable {s : Desktop}

variable (h : s.Nested)
include h

theorem createWindow (label : String) : (s.createWindow label).Nested := by
  intro id w hw
  obtain ⟨windowLabel, hlive, hent⟩ := h id w hw
  exact ⟨windowLabel, getElem?_createWindow hlive label, hent⟩

theorem createWebview {label windowLabel : String} {window : Nat}
    (hwindow : s.runtimeWindows[window]? = some windowLabel) (hlbl : s.webviews[label]? = none) :
    (s.createWebview label window).Nested := by
  intro id w hw
  by_cases hid : s.nextWebviewId = id
  · subst hid
    obtain rfl := some.inj ((s.getElem?_createWebview_self label window).symm.trans hw)
    refine ⟨windowLabel, hwindow, fun webview hent => ?_⟩
    have hnone : (s.createWebview label window).webviews[label]? = none := hlbl
    rw [hnone] at hent
    cases hent
  · have hold : s.runtimeWebviews[id]? = some w := by
      simpa [Desktop.createWebview, Std.ExtTreeMap.getElem?_insert, hid] using hw
    exact h id w hold

theorem attachWebview {label windowLabel : String} {id : Nat}
    (hwindow : ∀ (id' : Nat) (w : RuntimeWebview), s.runtimeWebviews[id']? = some w →
      w.label = label → s.runtimeWindows[w.window]? = some windowLabel) :
    (s.attachWebview label id windowLabel).Nested := by
  intro id' w hw
  by_cases hlbl : w.label = label
  · refine ⟨windowLabel, hwindow id' w hw hlbl, fun webview hent => ?_⟩
    have hself : (s.attachWebview label id windowLabel).webviews[w.label]? =
        some ⟨id, windowLabel⟩ := by
      simp [Desktop.attachWebview, hlbl]
    rw [some.inj (hent.symm.trans hself)]
  · obtain ⟨windowLabel', hlive, hent⟩ := h id' w hw
    refine ⟨windowLabel', hlive, fun webview hweb => hent webview ?_⟩
    simpa [Desktop.attachWebview, Std.ExtTreeMap.getElem?_insert, Ne.symm hlbl] using hweb

theorem destroyed (id : Nat) (label : String) : (s.destroyed id label).Nested := by
  intro id' w hw
  rw [runtimeWebviews_destroyed] at hw
  obtain ⟨hw, hopen⟩ := filter_eq_some_iff.mp hw
  obtain ⟨windowLabel, hlive, hent⟩ := h id' w hw
  have hne : id ≠ w.window := fun heq => by simp [heq] at hopen
  refine ⟨windowLabel, ?_, fun webview hweb => hent webview (webviews_of_destroyed hweb)⟩
  rw [runtimeWindows_destroyed, if_neg hne, hlive]

theorem closeWebview (id : Nat) (label : String) : (s.closeWebview id label).Nested := by
  intro id' w hw
  rw [runtimeWebviews_closeWebview] at hw
  split_ifs at hw
  obtain ⟨windowLabel, hlive, hent⟩ := h id' w hw
  refine ⟨windowLabel, hlive, fun webview hweb => hent webview ?_⟩
  simp only [Desktop.closeWebview, onWebviewClose, removeWebview, Std.ExtTreeMap.getElem?_erase]
    at hweb
  split_ifs at hweb
  exact hweb

end Desktop.Nested

section Sound

variable {ι : Type} {s s' : Desktop} {phases : ι → Phase} {i : ι} {phase phase' : Phase}

/-- **The invariant** of a run in which every step is orderly. -/
structure Sound (s : Desktop) (phases : ι → Phase) : Prop where
  windows : s.windowRegistry.Exclusive fun i => (phases i).windowClaim
  webviews : s.webviewRegistry.Exclusive fun i => (phases i).webviewClaim
  ok : ∀ i, (phases i).Ok s
  nested : s.Nested

theorem sound_start : Sound {} fun _ : ι => .idle := by
  refine ⟨?_, ?_, fun _ => Phase.Ok.idle _, fun id w hw => ?_⟩
  · have hreg : ({} : Desktop).windowRegistry = ⟨fun _ => none, fun _ => none⟩ := by
      simp [windowRegistry]
    rw [hreg]
    exact Registry.Exclusive.empty
  · have hreg : ({} : Desktop).webviewRegistry = ⟨fun _ => none, fun _ => none⟩ := by
      simp [webviewRegistry]
    rw [hreg]
    exact Registry.Exclusive.empty
  · simp at hw

/-! ### Closing -/

variable {id : Nat} {label : String}

open Phase

theorem Sound.destroyed (h : Sound s phases) (hlive : s.runtimeWindows[id]? = some label)
    (hcond : ∀ i label, (phases i).parent ≠ some (id, label)) :
    Sound (s.destroyed id label) phases := by
  -- the window has an entry, since no creation of it is unfinished
  have hent : s.windows[label]? = some id := by
    rcases h.windows.owned hlive with hent | ⟨j, hj⟩
    · exact hent
    · exact absurd (parent_of_windowClaim hj) (hcond j label)
  have hwebs : ∀ (label' : String) (webview : ManagedWebview),
      s.webviews[label']? = some webview → ∃ w, s.runtimeWebviews[webview.id]? = some w ∧
        (webview.windowLabel = label ↔ w.window = id) := by
    intro label' webview hweb
    obtain ⟨w, hw, rfl⟩ := map_eq_some_iff.mp
      (h.webviews.entry (map_eq_some_iff.mpr ⟨webview, hweb, rfl⟩))
    obtain ⟨windowLabel, hwindow, hlbl⟩ := h.nested webview.id w hw
    refine ⟨w, hw, ?_⟩
    rw [hlbl webview hweb]
    constructor
    · rintro rfl
      exact h.windows.unique hwindow hlive
    · rintro rfl
      exact some.inj (hwindow.symm.trans hlive)
  refine ⟨?_, ?_, fun j => (h.ok j).destroyed (hcond j), h.nested.destroyed id label⟩
  · rw [windowRegistry_destroyed hent fun label' hlbl' =>
      some.inj ((h.windows.entry hlbl').symm.trans hlive)]
    refine h.windows.close fun {j label' id'} hj => ?_
    have hne : id' ≠ id := by
      rintro rfl
      exact hcond j label' (parent_of_windowClaim hj)
    simpa using hne
  · rw [webviewRegistry_destroyed (BTreeMap.mem_iff_exists.mpr ⟨id, hent⟩) hwebs]
    refine h.webviews.close fun {j label' webview} hj => ?_
    obtain ⟨window, windowLabel, hpar⟩ := parent_of_webviewClaim hj
    have hne : window ≠ id := by
      rintro rfl
      exact hcond j windowLabel hpar
    simp [(h.ok j).webview hpar hj, hne]

theorem Sound.closeWebview (h : Sound s phases)
    (hcond : ∃ webview, s.webviews[label]? = some webview ∧ webview.id = id) :
    Sound (s.closeWebview id label) phases := by
  have hent : s.webviewRegistry.entries label = some id := map_eq_some_iff.mpr hcond
  -- a webview with an entry is not one that a thread is about to attach
  have hopen : ∀ {j label' id'}, (phases j).webviewClaim = .created label' id' → id' ≠ id := by
    rintro j label' id' hj rfl
    obtain rfl := some.inj ((h.webviews.created hj).symm.trans (h.webviews.entry hent))
    rw [h.webviews.free (congrArg Claim.label hj)] at hent
    cases hent
  refine ⟨h.windows, ?_, fun j => (h.ok j).closeWebview fun label' hj => hopen hj rfl,
    h.nested.closeWebview id label⟩
  rw [webviewRegistry_closeWebview hent fun label' hlbl' =>
    some.inj ((h.webviews.entry hlbl').symm.trans (h.webviews.entry hent))]
  exact h.webviews.close fun hj => by simpa using hopen hj

/-! ### The steps of a creation -/

variable [DecidableEq ι]

theorem Sound.of_update
    (hwindows : s'.windowRegistry.Exclusive
      (update (fun j => (phases j).windowClaim) i phase'.windowClaim))
    (hwebs : s'.webviewRegistry.Exclusive
      (update (fun j => (phases j).webviewClaim) i phase'.webviewClaim))
    (hphase : phase'.Ok s') (hok : ∀ j, (phases j).Ok s') (hnested : s'.Nested) :
    Sound s' (update phases i phase') := by
  refine ⟨?_, ?_, fun j => ?_, hnested⟩
  · have hcls : (fun j => (update phases i phase' j).windowClaim) =
        update (fun j => (phases j).windowClaim) i phase'.windowClaim :=
      funext fun j => apply_update (fun _ => windowClaim) phases i phase' j
    rw [hcls]
    exact hwindows
  · have hcls : (fun j => (update phases i phase' j).webviewClaim) =
        update (fun j => (phases j).webviewClaim) i phase'.webviewClaim :=
      funext fun j => apply_update (fun _ => webviewClaim) phases i phase' j
    rw [hcls]
    exact hwebs
  · grind

variable (h : Sound s phases)
include h

theorem Sound.idle (hi : (phases i).parent = none) : Sound s (update phases i .idle) := by
  obtain ⟨hwindow, hweb⟩ := not_created hi
  exact .of_update (h.windows.giveUp hwindow) (h.webviews.giveUp hweb) (.idle s) h.ok h.nested

theorem Sound.goOn (hi : (phases i).parent = none) {event : Event} {result : Except Error Unit}
    {r : Event × Phase} (hr : goOn event phase' result = r)
    (hcond : OrderlyStep (s, phases) [r.1]) (hok : result = .ok () → event.Orderly (s, phases) →
      Sound s (update phases i phase')) : Sound s (update phases i r.2) := by
  subst hr
  cases result with
  | error e => exact h.idle hi
  | ok _ => exact hok rfl (hcond event mem_cons_self)

theorem Sound.prepareWindow (hi : (phases i).windowClaim = .none)
    (hres : s.prepareWindow label = .ok ())
    (hcond : ∀ j, (phases j).windowClaim.label ≠ some label)
    (hwindow : phase'.windowClaim = .prepared label)
    (hweb : (phases i).webviewClaim = phase'.webviewClaim) (hphase : phase'.Ok s) :
    Sound s (update phases i phase') := by
  refine .of_update ?_ (h.webviews.same hweb) hphase h.ok h.nested
  rw [hwindow]
  exact h.windows.prepare hi (s.entries_of_prepareWindow hres) hcond

theorem Sound.prepareWebview (hi : (phases i).webviewClaim = .none)
    (hres : s.prepareWebview label = .ok ())
    (hcond : ∀ j, (phases j).webviewClaim.label ≠ some label)
    (hwindow : (phases i).windowClaim = phase'.windowClaim)
    (hweb : phase'.webviewClaim = .prepared label) (hphase : phase'.Ok s) :
    Sound s (update phases i phase') := by
  refine .of_update (h.windows.same hwindow) ?_ hphase h.ok h.nested
  rw [hweb]
  exact h.webviews.prepare hi (s.entries_of_prepareWebview hres) hcond

theorem Sound.createWindow (hi : phases i = .windowPrepared label false) :
    Sound (s.createWindow label)
      (update phases i (.windowCreated label s.nextWindowId none)) := by
  have hclaim : (phases i).webviewClaim = .none := by rw [hi]; rfl
  refine .of_update ?_ (h.webviews.same hclaim) ?_ (fun j => (h.ok j).createWindow label)
    (h.nested.createWindow label)
  · rw [s.windowRegistry_createWindow]
    exact h.windows.create (congrArg windowClaim hi) (s.fresh_window (Nat.le_refl _))
  · refine ⟨?_, by simp [webviewClaim], by simp⟩
    rintro _ _ ⟨⟩
    exact s.getElem?_createWindow_self label

theorem Sound.createWebviewWindow (hi : phases i = .windowPrepared label true) :
    Sound ((s.createWindow label).createWebview label s.nextWindowId)
      (update phases i (.windowCreated label s.nextWindowId (some s.nextWebviewId))) := by
  have hlbl : s.webviews[label]? = none :=
    map_eq_none_iff.mp (h.webviews.free (i := i) (by rw [hi]; rfl))
  refine .of_update ?_ ?_ ?_ (fun j => ((h.ok j).createWindow label).createWebview label _)
    ((h.nested.createWindow label).createWebview (s.getElem?_createWindow_self label) hlbl)
  · have hreg : ((s.createWindow label).createWebview label s.nextWindowId).windowRegistry =
        s.windowRegistry.create label s.nextWindowId := s.windowRegistry_createWindow label
    rw [hreg]
    exact h.windows.create (congrArg windowClaim hi) (s.fresh_window (Nat.le_refl _))
  · have hreg : ((s.createWindow label).createWebview label s.nextWindowId).webviewRegistry =
        s.webviewRegistry.create label s.nextWebviewId :=
      (s.createWindow label).webviewRegistry_createWebview label _
    rw [hreg]
    refine h.webviews.create (congrArg webviewClaim hi) ?_
    exact map_eq_none_iff.mpr (s.fresh_webview (Nat.le_refl _))
  · refine ⟨?_, ?_, by simp⟩
    · rintro _ _ ⟨⟩
      exact s.getElem?_createWindow_self label
    · rintro _ _ _ _ ⟨⟩ ⟨⟩
      exact (s.createWindow label).getElem?_createWebview_self label _

theorem Sound.createChild {windowLabel : String} {window : Nat}
    (hi : phases i = .childPrepared label window windowLabel)
    (hwindow : window ∈ s.runtimeWindows) :
    Sound (s.createWebview label window)
      (update phases i (.childCreated label s.nextWebviewId window windowLabel)) := by
  have hlbl : s.webviews[label]? = none :=
    map_eq_none_iff.mp (h.webviews.free (i := i) (by rw [hi]; rfl))
  -- the window that the webview is created in is the one of the handle
  have hlive : s.runtimeWindows[window]? = some windowLabel := by
    obtain ⟨label', hlbl'⟩ := BTreeMap.mem_iff_exists.mp hwindow
    rw [hlbl', ((h.ok i).handle hi).2 label' hlbl']
  have hclaim : (phases i).windowClaim = .none := by rw [hi]; rfl
  refine .of_update (h.windows.same hclaim) ?_ ?_ (fun j => (h.ok j).createWebview label window)
    (h.nested.createWebview hlive hlbl)
  · rw [s.webviewRegistry_createWebview]
    refine h.webviews.create (congrArg webviewClaim hi) ?_
    exact map_eq_none_iff.mpr (s.fresh_webview (Nat.le_refl _))
  · refine ⟨?_, ?_, by simp⟩
    · rintro _ _ ⟨⟩
      exact hlive
    · rintro _ _ _ _ ⟨⟩ ⟨⟩
      exact s.getElem?_createWebview_self label _

theorem Sound.attachWindow (hi : (phases i).windowClaim = .created label id)
    (hwindow : phase'.windowClaim = .none) (hweb : (phases i).webviewClaim = phase'.webviewClaim)
    (hphase : phase'.Ok s) : Sound (s.attachWindow label id) (update phases i phase') := by
  have hok : ∀ {phase : Phase}, phase.Ok s → phase.Ok (s.attachWindow label id) :=
    fun hphase => ⟨hphase.parent, hphase.webview, hphase.handle⟩
  refine .of_update ?_ (h.webviews.same hweb) (hok hphase) (fun j => hok (h.ok j)) h.nested
  rw [s.windowRegistry_attachWindow, hwindow]
  exact h.windows.attach hi

theorem Sound.attachWebview {windowLabel : String} {window : Nat}
    (hpar : (phases i).parent = some (window, windowLabel))
    (hi : (phases i).webviewClaim = .created label id) (hwindow : (phases i).windowClaim = .none) :
    Sound (s.attachWebview label id windowLabel) (update phases i .idle) := by
  have hok : ∀ {phase : Phase}, phase.Ok s → phase.Ok (s.attachWebview label id windowLabel) :=
    fun hphase => ⟨hphase.parent, hphase.webview, hphase.handle⟩
  refine .of_update (h.windows.same hwindow) ?_ (.idle _) (fun j => hok (h.ok j)) ?_
  · rw [s.webviewRegistry_attachWebview]
    exact h.webviews.attach hi
  · refine h.nested.attachWebview fun id' w hw hlbl => ?_
    -- the only webview with the label is the one that is attached
    have hlive : s.webviewRegistry.live id' = some label := by
      simp [webviewRegistry, hw, hlbl]
    obtain rfl : id = id' := h.webviews.unique (h.webviews.created hi) hlive
    have hself := (h.ok i).webview hpar hi
    rw [hw] at hself
    rw [some.inj hself]
    exact (h.ok i).parent hpar

/-- **One step** keeps the invariant. -/
theorem Sound.move {es : List Event} (hmove : Move s (phases i) es s' phase')
    (hcond : OrderlyStep (s, phases) es) : Sound s' (update phases i phase') := by
  generalize hi : phases i = phase at hmove
  have hnone : ∀ {phase : Phase}, phases i = phase → phase.parent = none →
      (phases i).parent = none := fun hi hphase => hi ▸ hphase
  cases hmove with
  | prepareWebview label hr =>
    refine h.goOn (hnone hi rfl) hr hcond fun hres hlbl => ?_
    exact h.prepareWebview (by rw [hi]; rfl) hres hlbl (by rw [hi]; rfl) rfl
      (.of_parent rfl nofun)
  | prepareWebviewWindow label hr | prepareWindow label hr =>
    refine h.goOn (hnone hi rfl) hr hcond fun hres hlbl => ?_
    exact h.prepareWindow (by rw [hi]; rfl) hres hlbl rfl (by rw [hi]; rfl)
      (.of_parent rfl nofun)
  | prepareChild label hwindow hr =>
    refine h.goOn (hnone hi rfl) hr hcond fun hres hlbl => ?_
    refine h.prepareWebview (by rw [hi]; rfl) hres hlbl (by rw [hi]; rfl) rfl
      (.of_parent rfl ?_)
    rintro label' window' windowLabel' ⟨⟩
    exact hwindow
  | createWindow => exact h.createWindow hi
  | createWebviewWindow => exact h.createWebviewWindow hi
  | createChild _ _ hwindow => exact h.createChild hi hwindow
  | failWindow | failChild => exact h.idle (hnone hi rfl)
  | logWindow | logWebviewWindow | logChild => exact (hcond .createLogged mem_cons_self).elim
  | attachWindow => exact h.attachWindow (by rw [hi]; rfl) rfl (by rw [hi]; rfl) (.idle s)
  | attachWebviewWindow =>
    refine h.attachWindow (by rw [hi]; rfl) rfl (by rw [hi]; rfl) ?_
    have hok := h.ok i
    rw [hi] at hok
    exact ⟨fun hpar => hok.parent hpar, fun hpar hclaim => hok.webview hpar hclaim,
      by simp⟩
  | attachWebview | attachChild =>
    exact h.attachWebview (by rw [hi]; rfl) (by rw [hi]; rfl) (by rw [hi]; rfl)
  | destroyed _ hlive =>
    rw [← hi, update_eq_self]
    exact h.destroyed hlive (hcond _ mem_cons_self)
  | closeWebview =>
    rw [← hi, update_eq_self]
    exact h.closeWebview (hcond _ mem_cons_self)

end Sound

/-- **Unique labels.** In every interleaving of creations and closes in which every step is orderly,
no two windows of the runtime and no two webviews have the same label, and the entry of the manager
for a label refers to the window or the webview with the label. The label of a window or a webview
that is not being created has an entry, so that a creation with the label fails. -/
theorem labels_unique {ι : Type} [DecidableEq ι] {es : List Event} {s : Desktop × (ι → Phase)}
    (run : Execution (guarded OrderlyStep (interleave Move)) ({}, fun _ => .idle) es s) :
    (∀ (label : String) (id id' : Nat), s.1.runtimeWindows[id]? = some label →
        s.1.runtimeWindows[id']? = some label → id = id') ∧
      (∀ (id id' : Nat) (w w' : RuntimeWebview), s.1.runtimeWebviews[id]? = some w →
        s.1.runtimeWebviews[id']? = some w' → w.label = w'.label → id = id') ∧
      (∀ (label : String) (id : Nat), s.1.windows[label]? = some id →
        s.1.runtimeWindows[id]? = some label) ∧
      (∀ (label : String) (webview : ManagedWebview), s.1.webviews[label]? = some webview →
        ∃ w, s.1.runtimeWebviews[webview.id]? = some w ∧ w.label = label) ∧
      (∀ (label : String) (id : Nat), s.1.runtimeWindows[id]? = some label →
        (∀ i, (s.2 i).windowClaim.label ≠ some label) →
        s.1.prepareWindow label = .error (.windowLabelAlreadyExists label)) ∧
      ∀ (id : Nat) (w : RuntimeWebview), s.1.runtimeWebviews[id]? = some w →
        (∀ i, (s.2 i).webviewClaim.label ≠ some w.label) →
        s.1.prepareWebview w.label = .error (.webviewLabelAlreadyExists w.label) := by
  have h : Sound s.1 s.2 := by
    refine run.invariant (I := fun _ s => Sound s.1 s.2) sound_start ?_
    rintro _ es' s s' - h ⟨⟨i, phase, hmove, hupd⟩, hcond⟩
    rw [hupd]
    exact h.move hmove hcond
  refine ⟨fun label id id' => h.windows.unique, ?_, fun label id => h.windows.entry, ?_, ?_, ?_⟩
  · intro id id' w w' hw hw' hlbl
    have hlive : s.1.webviewRegistry.live id = some w.label := by simp [Desktop.webviewRegistry, hw]
    have hlive' : s.1.webviewRegistry.live id' = some w.label := by
      simp [Desktop.webviewRegistry, hw', hlbl]
    exact h.webviews.unique hlive hlive'
  · intro label webview hweb
    exact map_eq_some_iff.mp
      (h.webviews.entry (map_eq_some_iff.mpr ⟨webview, hweb, rfl⟩))
  · intro label id hlive hcls
    have hent : s.1.windows[label]? = some id := h.windows.entries_of_live hlive hcls
    rw [Desktop.prepareWindow, if_pos (BTreeMap.mem_iff_exists.mpr ⟨id, hent⟩)]
  · intro id w hw hcls
    have hlive : s.1.webviewRegistry.live id = some w.label := by simp [Desktop.webviewRegistry, hw]
    obtain ⟨webview, hent, -⟩ := map_eq_some_iff.mp (h.webviews.entries_of_live hlive hcls)
    rw [Desktop.prepareWebview, if_pos (BTreeMap.mem_iff_exists.mpr ⟨webview, hent⟩)]

/-- **Windows outlive their webviews.** In every such interleaving each webview is in a live window,
and the entry of the manager for it has the label of this window. -/
theorem nested_of_orderly {ι : Type} [DecidableEq ι] {es : List Event} {s : Desktop × (ι → Phase)}
    (run : Execution (guarded OrderlyStep (interleave Move)) ({}, fun _ => .idle) es s) :
    s.1.Nested := by
  refine (run.invariant (I := fun _ s => Sound s.1 s.2) sound_start ?_).nested
  rintro _ es' s s' - h ⟨⟨i, phase, hmove, hupd⟩, hcond⟩
  rw [hupd]
  exact h.move hmove hcond

namespace Sample

/-- Two threads, of which neither has begun to create anything. -/
abbrev start : Desktop × (Bool → Phase) := ({}, fun _ => .idle)

theorem run_main : ∃ es s, Execution (guarded OrderlyStep (interleave Move)) start es s ∧
    s.1.runtimeWindows[0]? = some "main" ∧ ∀ i, (s.2 i).windowClaim.label ≠ some "main" := by
  have hstart : Execution (guarded OrderlyStep (interleave Move)) start [] _ := .start
  have hprep := hstart.next_thread false (.prepareWindow "main" rfl) fun e he => by
    cases mem_singleton.mp he
    exact fun i => nofun
  have hcr := hprep.next_thread false (.createWindow "main") fun e he => by
    cases mem_singleton.mp he
    exact trivial
  have hatt := hcr.next_thread false (.attachWindow "main" 0) fun e he => by
    cases mem_singleton.mp he
    exact trivial
  exact ⟨_, _, hatt, rfl, fun i => by cases i <;> exact nofun⟩

/-- Steps without a condition. -/
abbrev Any (_ : Desktop × (Bool → Phase)) (_ : List Event) : Prop := True

theorem run_start : Execution (guarded Any (interleave Move)) start [] start := .start

theorem run_twice : ∃ es s, Execution (guarded Any (interleave Move)) start es s ∧
    s.1.runtimeWindows[0]? = some "main" ∧ s.1.runtimeWindows[1]? = some "main" := by
  have hfirst := run_start.next_thread false (.prepareWindow "main" rfl) trivial
  have hsnd := hfirst.next_thread true (.prepareWindow "main" rfl) trivial
  have hcr := hsnd.next_thread false (.createWindow "main") trivial
  have htwice := hcr.next_thread true (.createWindow "main") trivial
  exact ⟨_, _, htwice, rfl, rfl⟩

theorem run_closed_early : ∃ es s, Execution (guarded Any (interleave Move)) start es s ∧
    s.1.windows["main"]? = some 0 ∧ s.1.runtimeWindows[0]? = none := by
  have hprep := run_start.next_thread false (.prepareWindow "main" rfl) trivial
  have hcr := hprep.next_thread false (.createWindow "main") trivial
  have hdestroyed : Move (({} : Desktop).createWindow "main") .idle [.destroyed 0] _ .idle :=
    .destroyed .idle rfl
  have hclosed := hcr.next_thread true hdestroyed trivial
  have hatt := hclosed.next_thread false (.attachWindow "main" 0) trivial
  exact ⟨_, _, hatt, rfl, rfl⟩

/-- The webview `main` is closed, another one is created with the label, and the first one is closed
again. -/
theorem run_closed_twice : ∃ es s, Execution (guarded Any (interleave Move)) start es s ∧
    s.1.runtimeWebviews[1]? = some ⟨"main", 0⟩ ∧ s.1.runtimeWebviews[2]? = some ⟨"main", 0⟩ := by
  have hlbl := run_start.next_thread false (.prepareWebview "main" rfl) trivial
  have hprep := hlbl.next_thread false (.prepareWebviewWindow "main" rfl) trivial
  have hcr := hprep.next_thread false (.createWebviewWindow "main") trivial
  have hwindow := hcr.next_thread false (.attachWebviewWindow "main" 0 0) trivial
  have hweb := hwindow.next_thread false (.attachWebview "main" 0 0) trivial
  have hclosed := hweb.next_thread false (.closeWebview .idle 0 "main") trivial
  have hchild := hclosed.next_thread false
    (.prepareChild "main" ⟨Nat.zero_lt_one, fun _ h => (some.inj h).symm⟩ rfl) trivial
  have hsnd := hchild.next_thread false (.createChild "main" "main" (by decide)) trivial
  have hatt := hsnd.next_thread false (.attachChild "main" "main" 1 0) trivial
  have hagain := hatt.next_thread false (.closeWebview .idle 0 "main") trivial
  have hthird := hagain.next_thread false
    (.prepareChild "main" ⟨Nat.zero_lt_one, fun _ h => (some.inj h).symm⟩ rfl) trivial
  have hdone := hthird.next_thread false (.createChild "main" "main" (by decide)) trivial
  exact ⟨_, _, hdone, rfl, rfl⟩

end Sample

/-- While the window `main` is there, a creation with its label fails. -/
theorem sample_label_exists : ∃ es s,
    Execution (guarded OrderlyStep (interleave Move)) Sample.start es s ∧
      s.1.runtimeWindows[0]? = some "main" ∧
      s.1.prepareWindow "main" = .error (.windowLabelAlreadyExists "main") := by
  obtain ⟨es, s, hrun, hlive, hcls⟩ := Sample.run_main
  exact ⟨es, s, hrun, hlive, (labels_unique hrun).2.2.2.2.1 "main" 0 hlive hcls⟩

/-- A window with a webview is live as long as the webview is there. -/
theorem sample_window_live : ∃ es s,
    Execution (guarded OrderlyStep (interleave Move)) Sample.start es s ∧
      s.1.runtimeWebviews[0]? = some ⟨"main", 0⟩ ∧ s.1.runtimeWindows[0]? ≠ none := by
  have hstart : Execution (guarded OrderlyStep (interleave Move)) Sample.start [] _ := .start
  have hlbl := hstart.next_thread false (.prepareWebview "main" rfl)
    (forall_mem_singleton.mpr fun _ => nofun)
  have hprep := hlbl.next_thread false (.prepareWebviewWindow "main" rfl)
    (forall_mem_singleton.mpr fun i => by cases i <;> exact nofun)
  have hcr := hprep.next_thread false (.createWebviewWindow "main")
    (forall_mem_singleton.mpr trivial)
  obtain ⟨label, hlive, -⟩ := nested_of_orderly hcr 0 ⟨"main", 0⟩ rfl
  exact ⟨_, _, hcr, rfl, hlive ▸ nofun⟩

/-- Three ways to break the labels: two threads create a window with one label; a window is closed
before it is attached, and its entry stays; and a webview that was closed is closed again, so that
the webview that has the label now loses its entry, and a third one is created with the label. -/
theorem sample_labels_broken :
    (∃ es s, Execution (interleave Move) Sample.start es s ∧
      s.1.runtimeWindows[0]? = some "main" ∧ s.1.runtimeWindows[1]? = some "main") ∧
    (∃ es s, Execution (interleave Move) Sample.start es s ∧
      s.1.windows["main"]? = some 0 ∧ s.1.runtimeWindows[0]? = none) ∧
    ∃ es s, Execution (interleave Move) Sample.start es s ∧
      s.1.runtimeWebviews[1]? = some ⟨"main", 0⟩ ∧ s.1.runtimeWebviews[2]? = some ⟨"main", 0⟩ := by
  refine ⟨?_, ?_, ?_⟩
  · obtain ⟨es, s, hrun, htwice⟩ := Sample.run_twice
    exact ⟨es, s, hrun.mono fun h => h.1, htwice⟩
  · obtain ⟨es, s, hrun, hdead⟩ := Sample.run_closed_early
    exact ⟨es, s, hrun.mono fun h => h.1, hdead⟩
  · obtain ⟨es, s, hrun, htwice⟩ := Sample.run_closed_twice
    exact ⟨es, s, hrun.mono fun h => h.1, htwice⟩

end Tauri.Window
