import Mathlib

/-!
# The state manager

`StateManager` stores at most one value of each type. Types are the elements of an index type
`τ`, with `S t` the values of the type `t`: this is the `TypeId` map of the source, where the
downcast of a stored value to the type it was stored under always succeeds.
-/

namespace Tauri

/-- The values stored by type. -/
structure StateManager {τ : Type} (S : τ → Type) where
  map : (t : τ) → Option (S t)

namespace StateManager

variable {τ : Type} {S : τ → Type}

/-- `StateManager::new`. -/
def new : StateManager S := ⟨fun _ => none⟩

/-- `StateManager::try_get`. -/
def tryGet (m : StateManager S) (t : τ) : Option (S t) := m.map t

/-- `StateManager::set`: a value that is already there stays. -/
def set [DecidableEq τ] (m : StateManager S) (t : τ) (state : S t) : Bool × StateManager S :=
  match m.map t with
  | some _ => (false, m)
  | none => (true, ⟨Function.update m.map t (some state)⟩)

/-- `StateManager::unmanage`. -/
def unmanage [DecidableEq τ] (m : StateManager S) (t : τ) : Option (S t) × StateManager S :=
  (m.map t, ⟨Function.update m.map t none⟩)

theorem tryGet_set [DecidableEq τ] {m : StateManager S} {t : τ} (h : m.tryGet t = none)
    (state : S t) (t' : τ) : (m.set t state).2.tryGet t' =
      Function.update m.map t (some state) t' := by
  have hm : m.map t = none := h
  simp only [set, hm]
  rfl

end StateManager

end Tauri
