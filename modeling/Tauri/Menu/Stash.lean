import Tauri.Rust.Execution
import Tauri.Rust.Map

/-!
# The stash of active menus

The menu manager keeps the app-wide menu, every window keeps its own, and the manager has a stash
with the menus that are in use, by id. A menu enters the stash where it is set or where a window is
created with it, and leaves it through `remove_menu_from_stash_by_id`, which looks whether the
application or a window still has a menu with the id.

`Exact` says that the ids in the stash are those in use. It is followed through the operations as
`ExactBut`, which is `Exact` but for one id that may be left over.

**Closing a window does not look at its menu.** `on_window_close` removes the window from the
manager, and the menu stays in the stash. A handle of the closed window still sets menus, which
enter the stash as well. With the two apart every operation keeps the stash exact
(`Action.exact_run_iff`).
-/

namespace Tauri.Menus

open Rust Std.ExtTreeMap Function

/-- A menu: its id, which menus may share, and which one it is. -/
structure Menu where
  id : String
  handle : Nat
  deriving DecidableEq

/-- The menu of a window, and whether it is there because it is the app-wide one. -/
structure WindowMenu where
  isAppWide : Bool
  menu : Menu
  deriving DecidableEq

/-- The menus and the windows of the manager. A window is a number, and has the cell with its menu
for as long as there is a handle of it, also when it is closed. -/
structure Manager where
  menus : BTreeMap String Menu := ∅
  menu : Option Menu := none
  windows : BTreeMap String Nat := ∅
  windowMenu : Nat → Option WindowMenu := fun _ => none
  nextWindow : Nat := 0
  window_lt : ∀ {label : String} {w : Nat}, windows[label]? = some w → w < nextWindow := by simp

namespace Manager

variable (s : Manager)

/-- `MenuManager::is_menu_in_use`. -/
def isMenuInUse (id : String) : Bool := s.menu.any fun m => id == m.id

/-- `Window::is_menu_in_use`. -/
def windowIsMenuInUse (w : Nat) (id : String) : Bool :=
  (s.windowMenu w).any fun m => id == m.menu.id

/-- `Window::has_app_wide_menu`. -/
def hasAppWideMenu (w : Nat) : Bool := (s.windowMenu w).any fun m => m.isAppWide

/-- The test of `remove_menu_from_stash_by_id`. -/
def inUse (id : String) : Bool :=
  s.isMenuInUse id || s.windows.vals.any fun w => s.windowIsMenuInUse w id

/-- `*window.menu_lock() = menu`. -/
def setWindowMenu (w : Nat) (menu : Option WindowMenu) : Manager :=
  { s with windowMenu := Function.update s.windowMenu w menu }

/-- `*menu_lock() = menu`. -/
def setAppMenu (menu : Option Menu) : Manager := { s with menu := menu }

/-- `MenuManager::insert_menu_into_stash`. -/
def insertMenuIntoStash (menu : Menu) : Manager := { s with menus := s.menus.insert menu.id menu }

/-- `AppManager::remove_menu_from_stash_by_id`. -/
def removeMenuFromStashById : Option String → Manager
  | some id => if !s.inUse id then { s with menus := s.menus.erase id } else s
  | none => s

/-- `Window::remove_menu`. -/
def windowRemoveMenu (w : Nat) : Manager × Option Menu :=
  let prevMenu := (s.windowMenu w).map WindowMenu.menu
  ((s.setWindowMenu w none).removeMenuFromStashById (prevMenu.map Menu.id), prevMenu)

/-- `Window::set_menu`. -/
def windowSetMenu (w : Nat) (menu : Menu) : Manager × Option Menu :=
  let (s, prevMenu) := s.windowRemoveMenu w
  let s := s.insertMenuIntoStash menu
  (s.setWindowMenu w (some ⟨false, menu⟩), prevMenu)

/-- The loop of `AppHandle::remove_menu`. -/
def removeFromWindow (s : Manager) (w : Nat) : Manager :=
  if s.hasAppWideMenu w then (s.windowRemoveMenu w).1.setWindowMenu w none else s

/-- `AppHandle::remove_menu`; the windows are visited in some order. -/
def removeMenu (order : List Nat) : Manager × Option Menu :=
  let s := if s.menu.isSome then order.foldl removeFromWindow s else s
  let prevMenu := s.menu
  ((s.setAppMenu none).removeMenuFromStashById (prevMenu.map Menu.id), prevMenu)

/-- The loop of `AppHandle::set_menu`. -/
def setOnWindow (menu : Menu) (s : Manager) (w : Nat) : Manager :=
  if s.hasAppWideMenu w || (s.windowMenu w).isNone then
    (s.windowSetMenu w menu).1.setWindowMenu w (some ⟨true, menu⟩)
  else s

/-- `AppHandle::set_menu`; the windows are visited twice, in some order. -/
def setMenu (menu : Menu) (order order' : List Nat) : Manager × Option Menu :=
  let (s, prevMenu) := s.removeMenu order
  let s := s.insertMenuIntoStash menu
  let s := s.setAppMenu (some menu)
  (order'.foldl (setOnWindow menu) s, prevMenu)

/-- The menu a window is created with: its own, or else the app-wide one. -/
def menuOfNewWindow (menu : Option Menu) : Option WindowMenu :=
  (menu.or s.menu).map fun m => ⟨menu.isNone, m⟩

/-- `prepare_window_menu_creation_handler`. -/
def prepareWindowMenuCreationHandler (menu : Option WindowMenu) : Manager :=
  match menu with
  | some menu => s.insertMenuIntoStash menu.menu
  | none => s

/-- `attach_window`. -/
def attachWindow (label : String) (menu : Option WindowMenu) : Manager :=
  { s with
    windows := s.windows.insert label s.nextWindow
    windowMenu := Function.update s.windowMenu s.nextWindow menu
    nextWindow := s.nextWindow + 1
    window_lt := by
      intro label' w hw
      rw [Std.ExtTreeMap.getElem?_insert] at hw
      split_ifs at hw
      · cases hw
        exact Nat.lt_succ_self _
      · exact (s.window_lt hw).trans (Nat.lt_succ_self _) }

/-- `WindowBuilder::build`, which fails if the manager has a window with the label. -/
def createWindow (label : String) (menu : Option Menu) : Manager :=
  if label ∈ s.windows then s
  else
    let windowMenu := s.menuOfNewWindow menu
    (s.prepareWindowMenuCreationHandler windowMenu).attachWindow label windowMenu

/-- `AppManager::on_window_close`. -/
def onWindowClose (label : String) : Manager :=
  { s with
    windows := s.windows.erase label
    window_lt := by
      intro label' w hw
      rw [Std.ExtTreeMap.getElem?_erase] at hw
      split_ifs at hw
      exact s.window_lt hw }

end Manager

/-! ### The ids in use -/

/-- The window is in the manager. -/
def Manager.Open (s : Manager) (w : Nat) : Prop := ∃ label : String, s.windows[label]? = some w

/-- The ids in the stash are those in use. -/
def Manager.Exact (s : Manager) : Prop := ∀ id, id ∈ s.menus ↔ s.inUse id = true

/-- The ids in the stash are those in use, and perhaps one more. -/
def Manager.ExactBut (s : Manager) (rest : Option String) : Prop :=
  ∀ id, (s.inUse id = true → id ∈ s.menus) ∧ (id ∈ s.menus → s.inUse id = true ∨ rest = some id)

namespace Manager

variable {s : Manager} {w : Nat} {menu : Menu}

variable {id : String} {m : Option WindowMenu}

open BTreeMap

theorem inUse_iff : s.inUse id = true ↔ (∃ m, s.menu = some m ∧ m.id = id) ∨
    ∃ w m, s.Open w ∧ s.windowMenu w = some m ∧ m.menu.id = id := by
  simp only [inUse, isMenuInUse, windowIsMenuInUse, Bool.or_eq_true, Option.any_eq_true,
    List.any_eq_true, mem_vals, beq_iff_eq]
  refine or_congr (exists_congr fun m => and_congr_right fun _ => eq_comm) ?_
  constructor
  · rintro ⟨w, hw, m, hm, hid⟩
    exact ⟨w, m, hw, hm, hid.symm⟩
  · rintro ⟨w, m, hw, hm, hid⟩
    exact ⟨w, hw, m, hm, hid.symm⟩

theorem Exact.exactBut (h : s.Exact) (rest : Option String) : s.ExactBut rest :=
  fun id => ⟨(h id).mpr, fun hid => .inl ((h id).mp hid)⟩

theorem ExactBut.exact (h : s.ExactBut (some id)) (hid : s.inUse id = true) : s.Exact := by
  refine fun id' => ⟨fun hmem => ?_, (h id').1⟩
  rcases (h id').2 hmem with huse | hrest
  · exact huse
  · cases hrest
    exact hid

theorem ExactBut.removeMenuFromStashById {rest : Option String} (h : s.ExactBut rest) :
    (s.removeMenuFromStashById rest).Exact := by
  rcases rest with _ | id
  · exact fun id => ⟨fun hid => ((h id).2 hid).resolve_right nofun, (h id).1⟩
  · simp only [Manager.removeMenuFromStashById, Bool.not_eq_true']
    by_cases hid : s.inUse id = true
    · rw [if_neg (by simpa using hid)]
      exact h.exact hid
    · rw [if_pos (by simpa using hid)]
      intro id'
      change id' ∈ s.menus.erase id ↔ s.inUse id' = true
      rw [mem_erase]
      constructor
      · rintro ⟨hne, hmem⟩
        refine ((h id').2 hmem).resolve_right fun heq => hne ?_
        cases heq
        exact Std.LawfulEqOrd.compare_eq_iff_eq.mpr rfl
      · intro huse
        refine ⟨fun heq => hid ?_, (h id').1 huse⟩
        rwa [Std.LawfulEqOrd.eq_of_compare heq]

theorem mem_insertMenuIntoStash :
    id ∈ (s.insertMenuIntoStash menu).menus ↔ menu.id = id ∨ id ∈ s.menus := by
  change id ∈ s.menus.insert menu.id menu ↔ _
  rw [mem_insert, Std.LawfulEqOrd.compare_eq_iff_eq]

theorem Exact.insertMenuIntoStash (h : s.Exact) (menu : Menu) :
    (s.insertMenuIntoStash menu).ExactBut (some menu.id) := by
  intro id
  rw [mem_insertMenuIntoStash]
  change (s.inUse id = true → _) ∧ (_ → s.inUse id = true ∨ _)
  rw [← h id]
  exact ⟨.inr, fun hid => hid.symm.imp_right (congrArg some)⟩

/-! ### The menu of a window -/

theorem inUse_setWindowMenu :
    (s.setWindowMenu w m).inUse id = true ↔ (∃ m', s.menu = some m' ∧ m'.id = id) ∨
      (∃ w' m', w' ≠ w ∧ s.Open w' ∧ s.windowMenu w' = some m' ∧ m'.menu.id = id) ∨
      s.Open w ∧ ∃ m', m = some m' ∧ m'.menu.id = id := by
  rw [inUse_iff]
  refine or_congr Iff.rfl ⟨?_, ?_⟩
  · rintro ⟨w', m', hopen, hm', hid⟩
    change update s.windowMenu w m w' = some m' at hm'
    by_cases hw : w' = w
    · subst hw
      rw [update_self] at hm'
      exact .inr ⟨hopen, m', hm', hid⟩
    · rw [update_of_ne hw] at hm'
      exact .inl ⟨w', m', hw, hopen, hm', hid⟩
  · rintro (⟨w', m', hw, hopen, hm', hid⟩ | ⟨hopen, m', rfl, hid⟩)
    · exact ⟨w', m', hopen, (update_of_ne hw _ _).trans hm', hid⟩
    · exact ⟨w, m', hopen, update_self .., hid⟩

/-- Where the menu of a window is replaced, an id goes out of use only if it is the one of the old
menu. -/
theorem inUse_setWindowMenu_of_inUse (h : s.inUse id = true) :
    (s.setWindowMenu w m).inUse id = true ∨ (s.windowMenu w).map (·.menu.id) = some id := by
  rw [inUse_setWindowMenu]
  rcases inUse_iff.mp h with happ | ⟨w', m', hopen, hm', hid⟩
  · exact .inl (.inl happ)
  · grind

theorem inUse_setWindowMenu_of_not_open (hw : ¬ s.Open w) :
    (s.setWindowMenu w m).inUse id = s.inUse id := by
  rw [Bool.eq_iff_iff, inUse_setWindowMenu, inUse_iff]
  refine or_congr Iff.rfl ⟨?_, ?_⟩
  · grind
  · rintro ⟨w', m', hopen, hm'⟩
    exact .inl ⟨w', m', fun heq => hw (heq ▸ hopen), hopen, hm'⟩

theorem inUse_of_setWindowMenu_none (h : (s.setWindowMenu w none).inUse id = true) :
    s.inUse id = true := by
  rcases inUse_setWindowMenu.mp h with happ | ⟨w', m', -, hopen, hm', hid⟩ | ⟨-, m', hm', -⟩
  · exact inUse_iff.mpr (.inl happ)
  · exact inUse_iff.mpr (.inr ⟨w', m', hopen, hm', hid⟩)
  · cases hm'

theorem Exact.windowRemoveMenu (h : s.Exact) (w : Nat) : (s.windowRemoveMenu w).1.Exact := by
  apply ExactBut.removeMenuFromStashById
  intro id
  rw [Option.map_map]
  refine ⟨fun huse => (h id).mpr (inUse_of_setWindowMenu_none huse), fun hmem => ?_⟩
  exact inUse_setWindowMenu_of_inUse ((h id).mp hmem)

/-- A window gets a menu that is in the stash. A menu that the window had has the same id. -/
theorem ExactBut.setWindowMenu (h : s.ExactBut (some menu.id)) (hmem : menu.id ∈ s.menus)
    (hold : ∀ id, (s.windowMenu w).map (·.menu.id) = some id → id = menu.id)
    (hw : s.Open w ∨ s.inUse menu.id = true) (appWide : Bool) :
    (s.setWindowMenu w (some ⟨appWide, menu⟩)).Exact := by
  have huse : (s.setWindowMenu w (some ⟨appWide, menu⟩)).inUse menu.id = true := by
    by_cases hopen : s.Open w
    · exact inUse_setWindowMenu.mpr (.inr (.inr ⟨hopen, _, rfl, rfl⟩))
    · rw [inUse_setWindowMenu_of_not_open hopen]
      exact hw.resolve_left hopen
  refine @ExactBut.exact _ menu.id (fun id => ⟨fun hid => ?_, fun hid => ?_⟩) huse
  · change id ∈ s.menus
    rcases inUse_setWindowMenu.mp hid with happ | ⟨w', m', -, hopen, hm', hid'⟩ | ⟨-, m', hm', hid'⟩
    · exact (h id).1 (inUse_iff.mpr (.inl happ))
    · exact (h id).1 (inUse_iff.mpr (.inr ⟨w', m', hopen, hm', hid'⟩))
    · cases hm'
      exact hid' ▸ hmem
  · rcases (h id).2 hid with hid | hrest
    · rcases inUse_setWindowMenu_of_inUse hid with hid | hid
      · exact .inl hid
      · exact .inr (congrArg some (hold id hid).symm)
    · exact .inr hrest

theorem exists_removeMenuFromStashById (s : Manager) (rest : Option String) :
    ∃ menus, s.removeMenuFromStashById rest = { s with menus := menus } := by
  rcases rest with _ | id
  · exact ⟨s.menus, rfl⟩
  · simp only [Manager.removeMenuFromStashById]
    split_ifs
    · exact ⟨_, rfl⟩
    · exact ⟨s.menus, rfl⟩

theorem exists_windowRemoveMenu (s : Manager) (w : Nat) :
    ∃ menus, (s.windowRemoveMenu w).1 = { s.setWindowMenu w none with menus := menus } :=
  exists_removeMenuFromStashById _ _

/-- `Window::set_menu` keeps the stash exact exactly when the window is open, or the menu is in use
elsewhere. -/
theorem Exact.windowSetMenu_iff (h : s.Exact) (w : Nat) (menu : Menu) :
    (s.windowSetMenu w menu).1.Exact ↔ s.Open w ∨ s.inUse menu.id = true := by
  let t := (s.windowRemoveMenu w).1.insertMenuIntoStash menu
  change (t.setWindowMenu w (some ⟨false, menu⟩)).Exact ↔ _
  have ht : t.ExactBut (some menu.id) := (h.windowRemoveMenu w).insertMenuIntoStash menu
  have hmem : menu.id ∈ t.menus := mem_insertMenuIntoStash.mpr (.inl rfl)
  obtain ⟨menus, hs⟩ := s.exists_windowRemoveMenu w
  have hcell : t.windowMenu w = none := by
    change (s.windowRemoveMenu w).1.windowMenu w = none
    rw [hs]
    exact update_self ..
  have hopen : t.Open w ↔ s.Open w := by
    change (s.windowRemoveMenu w).1.Open w ↔ _
    rw [hs]
    exact Iff.rfl
  have huse : ¬ s.Open w → t.inUse menu.id = s.inUse menu.id := by
    intro hclosed
    change (s.windowRemoveMenu w).1.inUse menu.id = _
    rw [hs]
    exact inUse_setWindowMenu_of_not_open hclosed
  constructor
  · intro hexact
    by_cases hclosed : s.Open w
    · exact .inl hclosed
    · right
      rw [← huse hclosed, ← inUse_setWindowMenu_of_not_open (mt hopen.mp hclosed)]
      exact (hexact menu.id).mp hmem
  · intro hw
    refine ht.setWindowMenu hmem (by simp [hcell]) ?_ false
    by_cases hclosed : s.Open w
    · exact .inl (hopen.mpr hclosed)
    · exact .inr ((huse hclosed).trans (hw.resolve_left hclosed))

/-! ### The app-wide menu -/

theorem Exact.removeFromWindow (h : s.Exact) (w : Nat) : (removeFromWindow s w).Exact := by
  unfold Manager.removeFromWindow
  split_ifs
  · obtain ⟨menus, hs⟩ := s.exists_windowRemoveMenu w
    have hsame : (s.windowRemoveMenu w).1.setWindowMenu w none = (s.windowRemoveMenu w).1 := by
      rw [hs]
      simp [setWindowMenu]
    rw [hsame]
    exact h.windowRemoveMenu w
  · exact h

theorem Exact.setAppMenu_none (h : s.Exact) :
    (s.setAppMenu none).ExactBut (s.menu.map Menu.id) := by
  intro id
  have hiff : (s.setAppMenu none).inUse id = true ↔
      ∃ w m, s.Open w ∧ s.windowMenu w = some m ∧ m.menu.id = id := by
    rw [inUse_iff]
    exact or_iff_right (by simp [setAppMenu])
  rw [hiff]
  refine ⟨fun huse => (h id).mpr (inUse_iff.mpr (.inr huse)), fun hmem => ?_⟩
  rcases inUse_iff.mp ((h id).mp hmem) with ⟨m, hm, hid⟩ | huse
  · right
    rw [hm, Option.map_some, hid]
  · exact .inl huse

/-- `AppHandle::remove_menu` keeps the stash exact, and there is no app-wide menu after it. -/
theorem Exact.removeMenu (h : s.Exact) (order : List Nat) :
    (s.removeMenu order).1.Exact ∧ (s.removeMenu order).1.menu = none := by
  have hloop : (order.foldl Manager.removeFromWindow s).Exact :=
    List.foldlRecOn order _ h fun t ht w _ => ht.removeFromWindow w
  let t := if s.menu.isSome then order.foldl Manager.removeFromWindow s else s
  have ht : t.Exact := by grind
  change ((t.setAppMenu none).removeMenuFromStashById (t.menu.map Menu.id)).Exact ∧
    ((t.setAppMenu none).removeMenuFromStashById (t.menu.map Menu.id)).menu = none
  refine ⟨ht.setAppMenu_none.removeMenuFromStashById, ?_⟩
  obtain ⟨menus, hs⟩ := (t.setAppMenu none).exists_removeMenuFromStashById (t.menu.map Menu.id)
  rw [hs]
  rfl

theorem Exact.setOnWindow (h : s.Exact) (happ : s.menu = some menu) (w : Nat) :
    (setOnWindow menu s w).Exact ∧ (setOnWindow menu s w).menu = some menu := by
  unfold Manager.setOnWindow
  split_ifs
  · obtain ⟨menus, hs⟩ := s.exists_windowRemoveMenu w
    have hmenu : (s.windowSetMenu w menu).1.menu = some menu := by
      change (s.windowRemoveMenu w).1.menu = some menu
      rw [hs]
      exact happ
    have hcell : (s.windowSetMenu w menu).1.windowMenu w = some ⟨false, menu⟩ := update_self ..
    have hset : (s.windowSetMenu w menu).1.Exact :=
      (h.windowSetMenu_iff w menu).mpr (.inr (inUse_iff.mpr (.inl ⟨menu, happ, rfl⟩)))
    have huse : (s.windowSetMenu w menu).1.inUse menu.id = true :=
      inUse_iff.mpr (.inl ⟨menu, hmenu, rfl⟩)
    refine ⟨(hset.exactBut _).setWindowMenu ((hset _).mpr huse) ?_ (.inr huse) true, hmenu⟩
    intro id hid
    rw [hcell] at hid
    exact (Option.some_injective _ hid).symm
  · exact ⟨h, happ⟩

theorem Exact.setMenu (h : s.Exact) (menu : Menu) (order order' : List Nat) :
    (s.setMenu menu order order').1.Exact := by
  have hloop : ∀ {t : Manager}, t.Exact → t.menu = some menu →
      (order'.foldl (Manager.setOnWindow menu) t).Exact := fun ht happ =>
    (@List.foldlRecOn _ _ (fun t : Manager => t.Exact ∧ t.menu = some menu) order' _ _ ⟨ht, happ⟩
      fun t ht w _ => ht.1.setOnWindow ht.2 w).1
  obtain ⟨hrm, hnone⟩ := h.removeMenu order
  refine hloop ?_ rfl
  have hstash := hrm.insertMenuIntoStash menu
  have huse : ∀ {id}, ((s.removeMenu order).1.insertMenuIntoStash menu).inUse id = true →
      (((s.removeMenu order).1.insertMenuIntoStash menu).setAppMenu (some menu)).inUse id =
        true := by
    intro id hid
    rcases inUse_iff.mp hid with ⟨m, hm, -⟩ | huse
    · cases hnone.symm.trans hm
    · exact inUse_iff.mpr (.inr huse)
  refine @ExactBut.exact _ menu.id (fun id => ⟨fun hid => ?_, fun hid => ?_⟩)
    (inUse_iff.mpr (.inl ⟨menu, rfl, rfl⟩))
  · rcases inUse_iff.mp hid with ⟨m, hm, hid⟩ | huse
    · cases hm
      exact mem_insertMenuIntoStash.mpr (.inl hid)
    · exact (hstash id).1 (inUse_iff.mpr (.inr huse))
  · exact ((hstash id).2 hid).imp_left huse

/-! ### Windows -/

theorem inUse_attachWindow {label : String} (hlbl : label ∉ s.windows) :
    (s.attachWindow label m).inUse id = true ↔
      s.inUse id = true ∨ ∃ m', m = some m' ∧ m'.menu.id = id := by
  have hopen : ∀ w, (s.attachWindow label m).Open w ↔ s.Open w ∨ w = s.nextWindow := by
    intro w
    constructor
    · rintro ⟨label', hw⟩
      rcases getElem?_insert_eq_some.mp hw with ⟨-, rfl⟩ | ⟨-, hw⟩
      · exact .inr rfl
      · exact .inl ⟨label', hw⟩
    · rintro (⟨label', hw⟩ | rfl)
      · have hne : label' ≠ label := fun heq =>
          hlbl (mem_iff_exists.mpr ⟨w, heq ▸ hw⟩)
        exact ⟨label', getElem?_insert_eq_some.mpr (.inr ⟨hne, hw⟩)⟩
      · exact ⟨label, getElem?_insert_self⟩
  have hcell : ∀ {w}, s.Open w → (s.attachWindow label m).windowMenu w = s.windowMenu w :=
    fun ⟨_, hw⟩ => update_of_ne (s.window_lt hw).ne _ _
  have hnew : (s.attachWindow label m).windowMenu s.nextWindow = m := update_self ..
  rw [inUse_iff, inUse_iff, or_assoc]
  refine or_congr Iff.rfl ⟨?_, ?_⟩ <;> grind

theorem Exact.createWindow (h : s.Exact) (label : String) (menu : Option Menu) :
    (s.createWindow label menu).Exact := by
  unfold Manager.createWindow
  split_ifs with hlbl
  · exact h
  · simp only
    rcases s.menuOfNewWindow menu with _ | m
    · intro id
      change id ∈ s.menus ↔ (s.attachWindow label none).inUse id = true
      rw [inUse_attachWindow hlbl, h id]
      exact (or_iff_left (by simp)).symm
    · intro id
      change id ∈ (s.insertMenuIntoStash m.menu).menus ↔
        ((s.insertMenuIntoStash m.menu).attachWindow label (some m)).inUse id = true
      rw [inUse_attachWindow (s := s.insertMenuIntoStash m.menu) hlbl, mem_insertMenuIntoStash,
        h id, or_comm]
      exact or_congr Iff.rfl (by simp)

/-- A menu is used by the application, or by another window than the one with this label. -/
def UsedElsewhere (s : Manager) (label id : String) : Prop :=
  (∃ m, s.menu = some m ∧ m.id = id) ∨ ∃ (label' : String) (w : Nat) (m : WindowMenu),
    label' ≠ label ∧ s.windows[label']? = some w ∧ s.windowMenu w = some m ∧ m.menu.id = id

theorem inUse_onWindowClose {label : String} :
    (s.onWindowClose label).inUse id = true ↔ s.UsedElsewhere label id := by
  rw [inUse_iff]
  refine or_congr Iff.rfl ⟨?_, ?_⟩
  · rintro ⟨w, m, ⟨label', hw⟩, hm, hid⟩
    obtain ⟨hne, hw⟩ := getElem?_erase_eq_some.mp hw
    exact ⟨label', w, m, hne, hw, hm, hid⟩
  · rintro ⟨label', w, m, hne, hw, hm, hid⟩
    exact ⟨w, m, ⟨label', getElem?_erase_eq_some.mpr ⟨hne, hw⟩⟩, hm, hid⟩

/-- Closing a window keeps the stash exact exactly when the menu of the window is used elsewhere. -/
theorem Exact.onWindowClose_iff (h : s.Exact) (label : String) :
    (s.onWindowClose label).Exact ↔ ∀ w m, s.windows[label]? = some w → s.windowMenu w = some m →
      s.UsedElsewhere label m.menu.id := by
  constructor
  · intro hexact w m hw hm
    rw [← inUse_onWindowClose, ← hexact]
    exact (h _).mpr (inUse_iff.mpr (.inr ⟨w, m, ⟨label, hw⟩, hm, rfl⟩))
  · intro helse id
    rw [inUse_onWindowClose]
    change id ∈ s.menus ↔ _
    rw [h id, inUse_iff]
    constructor
    · rintro (happ | ⟨w, m, ⟨label', hw⟩, hm, rfl⟩)
      · exact .inl happ
      · by_cases heq : label' = label
        · exact helse w m (heq ▸ hw) hm
        · exact .inr ⟨label', w, m, heq, hw, hm, rfl⟩
    · rintro (happ | ⟨label', w, m, -, hw, hm, hid⟩)
      · exact .inl happ
      · exact .inr ⟨w, m, ⟨label', hw⟩, hm, hid⟩

end Manager

/-! ### Runs -/

/-- What is done to menus and windows. -/
inductive Action where
  | setAppMenu (menu : Menu) (order order' : List Nat)
  | removeAppMenu (order : List Nat)
  | setMenu (w : Nat) (menu : Menu)
  | removeMenu (w : Nat)
  | createWindow (label : String) (menu : Option Menu)
  | closeWindow (label : String)

namespace Action

/-- The state after an action. -/
def run (s : Manager) : Action → Manager
  | setAppMenu menu order order' => (s.setMenu menu order order').1
  | removeAppMenu order => (s.removeMenu order).1
  | setMenu w menu => (s.windowSetMenu w menu).1
  | removeMenu w => (s.windowRemoveMenu w).1
  | createWindow label menu => s.createWindow label menu
  | closeWindow label => s.onWindowClose label

/-- The windows of the manager are visited in some order, and a handle is one of a window that was
created. -/
def Possible (s : Manager) : Action → Prop
  | setAppMenu _ order order' => order.Perm s.windows.vals ∧ order'.Perm s.windows.vals
  | removeAppMenu order => order.Perm s.windows.vals
  | setMenu w _ => w < s.nextWindow
  | removeMenu w => w < s.nextWindow
  | createWindow _ _ => True
  | closeWindow label => label ∈ s.windows

/-- A closed window is not given a menu that nobody uses, and a window is closed only with a menu
that is used elsewhere, if it has one. -/
def KeepsStash (s : Manager) : Action → Prop
  | setMenu w menu => s.Open w ∨ s.inUse menu.id = true
  | closeWindow label => ∀ w m, s.windows[label]? = some w → s.windowMenu w = some m →
      s.UsedElsewhere label m.menu.id
  | _ => True

/-- **What an action does to an exact stash.** -/
theorem exact_run_iff {s : Manager} (h : s.Exact) (a : Action) :
    (a.run s).Exact ↔ a.KeepsStash s := by
  cases a with
  | setAppMenu menu order order' => exact iff_of_true (h.setMenu menu order order') trivial
  | removeAppMenu order => exact iff_of_true (h.removeMenu order).1 trivial
  | setMenu w menu => exact h.windowSetMenu_iff w menu
  | removeMenu w => exact iff_of_true (h.windowRemoveMenu w) trivial
  | createWindow label menu => exact iff_of_true (h.createWindow label menu) trivial
  | closeWindow label => exact h.onWindowClose_iff label

/-- A step of a run. -/
inductive Step (s : Manager) : List Action → Manager → Prop
  | act (a : Action) (h : a.Possible s) : Step s [a] (a.run s)

end Action

theorem lt_of_empty {l : String} {w : Nat} (h : (∅ : BTreeMap String Nat)[l]? = some w) : w < 0 :=
  by simp at h

/-- The manager at the start, with the menu of the builder. -/
def Manager.start : Option Menu → Manager
  | some menu => { menus := (∅ : BTreeMap String Menu).insert menu.id menu, menu := some menu,
                   window_lt := @lt_of_empty }
  | none => { window_lt := @lt_of_empty }

theorem Manager.exact_start (menu : Option Menu) : (Manager.start menu).Exact := by
  intro id
  rw [inUse_iff]
  cases menu <;> simp [Manager.start, Open]

/-- **The stash in a run.** In every run whose actions keep it, the stash is exact; and in each of
its states the actions that keep the stash exact are those that meet the condition. -/
theorem stash_exact {menu : Option Menu} {as : List Action} {s : Manager}
    (h : Execution (guarded (fun s as => ∀ a ∈ as, a.KeepsStash s) Action.Step)
      (Manager.start menu) as s) :
    s.Exact ∧ ∀ a : Action, a.Possible s → ((a.run s).Exact ↔ a.KeepsStash s) := by
  have hexact : s.Exact := by
    refine Execution.invariant (I := fun _ s => s.Exact) (Manager.exact_start menu) ?_ h
    rintro _ _ s _ - hs ⟨⟨a, -⟩, hkeeps⟩
    exact (a.exact_run_iff hs).mpr (hkeeps a (List.mem_singleton.mpr rfl))
  exact ⟨hexact, fun a _ => a.exact_run_iff hexact⟩

namespace Sample

/-- A menu of the windows. -/
def file : Menu := ⟨"file", 0⟩

/-- Two windows are created with one menu, and one of them is closed. -/
def shared : List Action :=
  [.createWindow "main" (some file), .createWindow "second" (some file), .closeWindow "main"]

/-- A window is created with a menu and closed. -/
def closed : List Action := [.createWindow "main" (some file), .closeWindow "main"]

theorem step {s : Manager} (a : Action) (h : a.Possible s) (hkeeps : a.KeepsStash s) :
    guarded (fun s as => ∀ a ∈ as, Action.KeepsStash s a) Action.Step s [a] (a.run s) :=
  ⟨.act a h, List.forall_mem_singleton.mpr hkeeps⟩

theorem run_shared : Execution (guarded (fun s as => ∀ a ∈ as, Action.KeepsStash s a) Action.Step)
    (Manager.start none) shared (shared.foldl Action.run (Manager.start none)) := by
  refine .next (.next (.next .start (step (.createWindow "main" (some file)) trivial trivial))
    (step (.createWindow "second" (some file)) trivial trivial))
    (step (.closeWindow "main") (show "main" ∈ _ by decide) ?_)
  intro w m hw hm
  cases hw
  cases hm
  exact .inr ⟨"second", 1, ⟨false, file⟩, by decide, by decide, by decide, rfl⟩

theorem run_closed : Execution Action.Step (Manager.start none) closed
    (closed.foldl Action.run (Manager.start none)) :=
  .next (.next .start (Action.Step.act (.createWindow "main" (some file)) trivial))
    (Action.Step.act (.closeWindow "main") (show "main" ∈ _ by decide))

end Sample

/-- A menu that two windows share is in the stash when one of them is closed. -/
theorem sample_stash_shared :
    "file" ∈ (Sample.shared.foldl Action.run (Manager.start none)).menus ∧
      (Sample.shared.foldl Action.run (Manager.start none)).Exact :=
  ⟨by decide, (stash_exact Sample.run_shared).1⟩

/-- The menu of a window that was closed stays in the stash. -/
theorem stash_not_exact : ∃ s, Execution Action.Step (Manager.start none) Sample.closed s ∧
    "file" ∈ s.menus ∧ s.inUse "file" = false ∧ ¬ s.Exact := by
  refine ⟨_, Sample.run_closed, by decide, by decide, fun hexact => ?_⟩
  exact absurd ((hexact "file").mp (by decide)) (by decide)

end Tauri.Menus
