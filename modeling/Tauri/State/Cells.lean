import Tauri.Rust.Execution
import Tauri.State

/-!
# References to managed state

`StateManager` keeps each value in a heap cell of its own, a `Box`. `try_get` hands out a reference
to the cell that lives as long as the manager, although the lock is released before it returns, and
`unmanage` moves the value out and frees the cell. Here the manager is a map from types to cells,
and a run is a sequence of calls, each of which is one critical section of the lock.

Cells are numbered in the order of their allocation and a number is never used again, so that a
reference to a freed cell is never taken for one to a later cell. `references_valid_iff` says that
the references are valid exactly as long as no type is unmanaged after a reference to its value was
handed out.
-/

namespace Tauri

open Rust List Function

/-- `Box<dyn Any>::downcast`, of the contents of a cell. -/
def downcast {τ : Type} [DecidableEq τ] {S : τ → Type} (t : τ) (cell : Σ t, S t) : Option (S t) :=
  if h : cell.1 = t then some (h ▸ cell.2) else none

@[simp]
theorem downcast_mk {τ : Type} [DecidableEq τ] {S : τ → Type} (t : τ) (state : S t) :
    downcast t ⟨t, state⟩ = some state := by
  simp [downcast]

/-- The state manager and the heap its values are in. An entry for a type refers to a live cell with
a value of the type, and a cell that is not allocated yet is not live. -/
structure StateCells {τ : Type} (S : τ → Type) where
  map : τ → Option Nat
  heap : Nat → Option (Σ t, S t)
  next : Nat
  typed : ∀ {t a}, map t = some a → ∃ state, heap a = some ⟨t, state⟩
  fresh : ∀ {a}, next ≤ a → heap a = none

/-- A call of the manager, with what it returned. -/
inductive StateCall {τ : Type} (S : τ → Type) where
  | set (t : τ) (state : S t) (inserted : Bool)
  | tryGet (t : τ) (reference : Option Nat)
  | unmanage (t : τ) (state : Option (S t))

namespace StateCells

variable {τ : Type} {S : τ → Type}

theorem lt_next {m : StateCells S} {a : Nat} {cell : Σ t, S t} (h : m.heap a = some cell) :
    a < m.next := by
  by_contra hle
  rw [m.fresh (Nat.le_of_not_lt hle)] at h
  cases h

theorem eq_of_map_eq {m : StateCells S} {t t' : τ} {a : Nat} (h : m.map t = some a)
    (h' : m.map t' = some a) : t = t' := by
  obtain ⟨state, hstate⟩ := m.typed h
  obtain ⟨state', hstate'⟩ := m.typed h'
  rw [hstate] at hstate'
  exact congrArg Sigma.fst (Option.some.inj hstate')

/-- `StateManager::new`. -/
def new : StateCells S where
  map _ := none
  heap _ := none
  next := 0
  typed h := nomatch h
  fresh _ := rfl

variable [DecidableEq τ]

/-- `map.insert(type_id, Box::new(state))`, where there is no entry for the type. -/
def insert (m : StateCells S) (t : τ) (state : S t) : StateCells S where
  map := Function.update m.map t (some m.next)
  heap := Function.update m.heap m.next (some ⟨t, state⟩)
  next := m.next + 1
  typed := by
    intro t' a h
    by_cases ht : t' = t
    · subst ht
      rw [Function.update_self] at h
      obtain rfl := Option.some.inj h
      exact ⟨state, Function.update_self ..⟩
    · rw [Function.update_of_ne ht] at h
      obtain ⟨state', hstate'⟩ := m.typed h
      refine ⟨state', ?_⟩
      rw [Function.update_of_ne (Nat.ne_of_lt (lt_next hstate')), hstate']
  fresh := by
    intro a ha
    rw [Function.update_of_ne (by omega)]
    exact m.fresh (by omega)

/-- `map.remove(&type_id)`, and dropping the box that was there. -/
def remove (m : StateCells S) (t : τ) (a : Nat) (ha : m.map t = some a) : StateCells S where
  map := Function.update m.map t none
  heap := Function.update m.heap a none
  next := m.next
  typed := by
    intro t' a' h
    by_cases ht : t' = t
    · rw [ht, Function.update_self] at h
      cases h
    · rw [Function.update_of_ne ht] at h
      have hne : a' ≠ a := by
        rintro rfl
        exact ht (eq_of_map_eq h ha)
      rw [Function.update_of_ne hne]
      exact m.typed h
  fresh := by
    intro a' ha'
    by_cases h : a' = a
    · rw [h, Function.update_self]
    · rw [Function.update_of_ne h]
      exact m.fresh ha'

/-- `StateManager::set`. -/
def set (m : StateCells S) (t : τ) (state : S t) : Bool × StateCells S :=
  match m.map t with
  | some _ => (false, m)
  | none => (true, m.insert t state)

/-- `StateManager::try_get`: a reference to the cell. -/
def tryGet (m : StateCells S) (t : τ) : Option Nat :=
  (m.map t).filter fun a => ((m.heap a).bind (downcast t)).isSome

/-- `StateManager::unmanage`. -/
def unmanage (m : StateCells S) (t : τ) : Option (S t) × StateCells S :=
  match h : m.map t with
  | some a => ((m.heap a).bind (downcast t), m.remove t a h)
  | none => (none, m)

/-- The calls of the manager. -/
inductive Step (m : StateCells S) : List (StateCall S) → StateCells S → Prop
  | set (t : τ) (state : S t) : Step m [.set t state (m.set t state).1] (m.set t state).2
  | tryGet (t : τ) : Step m [.tryGet t (m.tryGet t)] m
  | unmanage (t : τ) : Step m [.unmanage t (m.unmanage t).1] (m.unmanage t).2

/-! ### What a call does -/

section Calls

variable {m m' : StateCells S} {t : τ} {a : Nat} {es : List (StateCall S)}

theorem tryGet_eq (m : StateCells S) (t : τ) : m.tryGet t = m.map t := by
  rw [tryGet]
  cases h : m.map t with
  | none => rfl
  | some a =>
    obtain ⟨state, hstate⟩ := m.typed h
    simp [Option.filter, hstate]

theorem set_of_some (h : m.map t = some a) (state : S t) : m.set t state = (false, m) := by
  rw [set, h]

theorem set_of_none (h : m.map t = none) (state : S t) :
    m.set t state = (true, m.insert t state) := by
  rw [set, h]

theorem unmanage_of_some (h : m.map t = some a) :
    m.unmanage t = ((m.heap a).bind (downcast t), m.remove t a h) := by
  unfold unmanage
  split
  · grind
  · simp_all

theorem unmanage_of_none (h : m.map t = none) : m.unmanage t = (none, m) := by
  unfold unmanage
  split
  · simp_all
  · rfl

/-- **`set` never replaces or frees a stored value.** -/
theorem set_keeps (m : StateCells S) (t : τ) (state : S t) :
    (∀ t' a, m.map t' = some a → (m.set t state).2.map t' = some a) ∧
      ∀ a cell, m.heap a = some cell → (m.set t state).2.heap a = some cell := by
  cases h : m.map t with
  | some a =>
    rw [set_of_some h]
    exact ⟨fun _ _ h => h, fun _ _ h => h⟩
  | none =>
    rw [set_of_none h]
    refine ⟨fun t' a ha => ?_, fun a cell ha => ?_⟩
    · have ht : t' ≠ t := by grind
      exact (update_of_ne ht ..).trans ha
    · exact (update_of_ne (Nat.ne_of_lt (lt_next ha)) ..).trans ha

theorem Step.map_eq (h : m.Step es m') (ha : m.map t = some a)
    (hes : ∀ state, .unmanage t state ∉ es) : m'.map t = some a := by
  cases h with
  | set t' state => exact (set_keeps m t' state).1 t a ha
  | tryGet t' => exact ha
  | unmanage t' =>
    have ht : t ≠ t' := by
      rintro rfl
      exact hes _ mem_cons_self
    cases h' : m.map t' with
    | none =>
      rw [unmanage_of_none h']
      exact ha
    | some a' =>
      rw [unmanage_of_some h']
      exact (update_of_ne ht ..).trans ha

/-- The cell `a` was allocated and freed. -/
def Freed (m : StateCells S) (a : Nat) : Prop := m.heap a = none ∧ a < m.next

theorem Step.freed (h : m.Step es m') (ha : m.Freed a) : m'.Freed a := by
  obtain ⟨hheap, hnext⟩ := ha
  cases h with
  | set t' =>
    cases h' : m.map t' with
    | some a' =>
      rw [set_of_some h']
      exact ⟨hheap, hnext⟩
    | none =>
      rw [set_of_none h']
      exact ⟨(update_of_ne (Nat.ne_of_lt hnext) ..).trans hheap, Nat.lt_succ_of_lt hnext⟩
  | tryGet t' => exact ⟨hheap, hnext⟩
  | unmanage t' =>
    cases h' : m.map t' with
    | none =>
      rw [unmanage_of_none h']
      exact ⟨hheap, hnext⟩
    | some a' =>
      rw [unmanage_of_some h']
      refine ⟨?_, hnext⟩
      by_cases hne : a = a'
      · exact hne ▸ update_self ..
      · exact (update_of_ne hne ..).trans hheap

theorem Step.freed_of_unmanage (h : m.Step es m') (ha : m.map t = some a) {state : Option (S t)}
    (hes : .unmanage t state ∈ es) : m'.Freed a := by
  cases h with
  | set | tryGet t' => cases mem_singleton.mp hes
  | unmanage t' =>
    have hev := mem_singleton.mp hes
    injection hev with ht
    subst ht
    obtain ⟨state', hstate'⟩ := m.typed ha
    have hlt : a < m.next := lt_next hstate'
    rw [unmanage_of_some ha]
    exact ⟨update_self .., hlt⟩

end Calls

/-! ### Refinement of the abstract manager -/

section Refinement

variable {m : StateCells S} {t : τ}

/-- The values of the manager, by type. -/
def values (m : StateCells S) : StateManager S where
  map t := (m.map t).bind fun a => (m.heap a).bind (downcast t)

/-- The calls of the abstract manager. -/
inductive AbstractStep (m : StateManager S) : List (StateCall S) → StateManager S → Prop
  | set (t : τ) (state : S t) : AbstractStep m [.set t state (m.set t state).1] (m.set t state).2
  | tryGet {t : τ} {reference : Option Nat} (h : reference.isSome = (m.tryGet t).isSome) :
      AbstractStep m [.tryGet t reference] m
  | unmanage (t : τ) :
      AbstractStep m [.unmanage t (m.unmanage t).1] (m.unmanage t).2

theorem isSome_tryGet (m : StateCells S) (t : τ) :
    (m.tryGet t).isSome = (m.values.tryGet t).isSome := by
  rw [tryGet_eq, StateManager.tryGet, values]
  cases h : m.map t with
  | none => simp [h]
  | some a =>
    obtain ⟨state, hstate⟩ := m.typed h
    simp [h, hstate]

theorem heap_tryGet {a : Nat} (h : m.tryGet t = some a) :
    (m.heap a).bind (downcast t) = m.values.tryGet t := by
  rw [tryGet_eq] at h
  rw [StateManager.tryGet, values]
  simp [h]

theorem values_set (m : StateCells S) (t : τ) (state : S t) :
    (m.set t state).1 = (m.values.set t state).1 ∧
      (m.set t state).2.values = (m.values.set t state).2 := by
  cases h : m.map t with
  | some a =>
    obtain ⟨state', hstate'⟩ := m.typed h
    have hvalue : m.values.map t = some state' := by simp [values, h, hstate']
    rw [set_of_some h, StateManager.set, hvalue]
    exact ⟨rfl, rfl⟩
  | none =>
    have hvalue : m.values.map t = none := by simp [values, h]
    rw [set_of_none h, StateManager.set, hvalue]
    refine ⟨rfl, congrArg StateManager.mk (funext fun t' => ?_)⟩
    by_cases ht : t' = t
    · subst ht
      simp [insert]
    · cases h' : m.map t' with
      | none => simp [insert, values, ht, h']
      | some a =>
        obtain ⟨state', hstate'⟩ := m.typed h'
        simp [insert, values, ht, h', Nat.ne_of_lt (lt_next hstate')]

theorem values_unmanage (m : StateCells S) (t : τ) :
    (m.unmanage t).1 = (m.values.unmanage t).1 ∧
      (m.unmanage t).2.values = (m.values.unmanage t).2 := by
  cases h : m.map t with
  | none =>
    have hvalue : m.values.map t = none := by simp [values, h]
    have hvals : update m.values.map t none = m.values.map := update_eq_self_iff.mpr hvalue.symm
    rw [unmanage_of_none h, StateManager.unmanage, hvalue, hvals]
    exact ⟨rfl, rfl⟩
  | some a =>
    rw [unmanage_of_some h, StateManager.unmanage]
    refine ⟨by simp [values, h], congrArg StateManager.mk (funext fun t' => ?_)⟩
    by_cases ht : t' = t
    · subst ht
      simp [remove]
    · cases h' : m.map t' with
      | none => simp [remove, values, ht, h']
      | some a' =>
        have hne : a' ≠ a := by
          rintro rfl
          exact ht (eq_of_map_eq h' h)
        simp [remove, values, ht, h', hne]

/-- **Refinement.** A run of the cells is one of the abstract manager, with the same results, where
`try_get` gives a reference exactly if there is a value; and the cell it gives holds the value. -/
theorem execution_values {es : List (StateCall S)} (run : Execution Step new es m) :
    Execution AbstractStep .new es m.values ∧ ∀ (t : τ) (a : Nat), m.tryGet t = some a →
      (m.heap a).bind (downcast t) = m.values.tryGet t := by
  refine ⟨?_, fun t a h => heap_tryGet h⟩
  have hsimulated : ∃ values, Execution AbstractStep .new es values ∧ m.values = values := by
    refine run.simulate (R := fun m values => m.values = values) rfl ?_
    rintro m es m' _ rfl hstep
    refine .inr ⟨m'.values, ?_, rfl⟩
    cases hstep with
    | set t state =>
      rw [(values_set m t state).1, (values_set m t state).2]
      exact .set t state
    | tryGet t => exact .tryGet (isSome_tryGet m t)
    | unmanage t =>
      rw [(values_unmanage m t).1, (values_unmanage m t).2]
      exact .unmanage t
  obtain ⟨_, hrun, rfl⟩ := hsimulated
  exact hrun

end Refinement

/-! ### References in a run -/

section References

variable {m m' : StateCells S} {es es' : List (StateCall S)}

/-- **The condition.** No type is unmanaged after a reference to its value was handed out. -/
def UnmanagedUnreferenced (es : List (StateCall S)) : Prop :=
  ∀ (before after : List (StateCall S)) (t : τ) (a : Nat) (state : Option (S t)),
    es = before ++ .tryGet t (some a) :: after → .unmanage t state ∉ after

/-- What the calls so far say about the cells that references were handed out to: the cell is that
of the type, as long as the type is not unmanaged, and then it is freed. -/
structure Referenced (es : List (StateCall S)) (m : StateCells S) : Prop where
  held : ∀ {before after : List (StateCall S)} {t : τ} {a : Nat},
    es = before ++ .tryGet t (some a) :: after →
    (∀ state : Option (S t), .unmanage t state ∉ after) → m.map t = some a
  freed : ∀ {before after : List (StateCall S)} {t : τ} {a : Nat} {state : Option (S t)},
    es = before ++ .tryGet t (some a) :: after → .unmanage t state ∈ after → m.Freed a
  same : ∀ {before between after : List (StateCall S)} {t : τ} {a b : Nat},
    es = before ++ .tryGet t (some a) :: (between ++ .tryGet t (some b) :: after) →
    (∀ state : Option (S t), .unmanage t state ∉ between) → a = b

theorem append_cons_eq_concat {α : Type} {before after l : List α} {x y : α}
    (h : l ++ [y] = before ++ x :: after) :
    (l = before ∧ y = x ∧ after = []) ∨ ∃ after', after = after' ++ [y] ∧
      l = before ++ x :: after' := by
  rcases eq_nil_or_concat' after with rfl | ⟨after', y', rfl⟩
  · obtain ⟨hl, hy⟩ := append_inj' h rfl
    exact .inl ⟨hl, singleton_injective hy, rfl⟩
  · rw [← cons_append, ← append_assoc] at h
    obtain ⟨hl, hy⟩ := append_inj' h rfl
    obtain rfl := singleton_injective hy
    exact .inr ⟨after', rfl, hl⟩

theorem Step.exists_eq (h : m.Step es m') : ∃ e, es = [e] := by cases h <;> exact ⟨_, rfl⟩

theorem Step.map_of_tryGet {t : τ} {a : Nat} (h : m.Step [.tryGet t (some a)] m') :
    m.map t = some a ∧ m' = m := by
  generalize hes : [StateCall.tryGet (S := S) t (some a)] = es at h
  cases h with
  | set | unmanage t' => cases hes
  | tryGet t' =>
    obtain ⟨rfl, ha⟩ := StateCall.tryGet.inj (singleton_injective hes)
    exact ⟨(tryGet_eq m t).symm.trans ha.symm, rfl⟩

theorem Referenced.step (h : Referenced es m) (hstep : m.Step es' m') :
    Referenced (es ++ es') m' := by
  obtain ⟨e, rfl⟩ := hstep.exists_eq
  constructor
  · intro before after t a hes haft
    rcases append_cons_eq_concat hes with ⟨-, rfl, rfl⟩ | ⟨after', rfl, hold⟩
    · obtain ⟨hmap, rfl⟩ := hstep.map_of_tryGet
      exact hmap
    · have hmap : m.map t = some a := h.held hold fun state hmem =>
        haft state (mem_append_left _ hmem)
      exact hstep.map_eq hmap fun state hmem => haft state (mem_append_right _ hmem)
  · intro before after t a state hes haft
    rcases append_cons_eq_concat hes with ⟨-, -, rfl⟩ | ⟨after', rfl, hold⟩
    · cases haft
    · by_cases hmem : ∃ state, .unmanage t state ∈ after'
      · obtain ⟨state', hstate'⟩ := hmem
        exact hstep.freed (h.freed hold hstate')
      · have hmap : m.map t = some a := h.held hold fun state hstate => hmem ⟨state, hstate⟩
        rcases mem_append.mp haft with hbef | hnew
        · exact absurd ⟨state, hbef⟩ hmem
        · exact hstep.freed_of_unmanage hmap hnew
  · intro before between after t a b hes hbet
    rw [← cons_append, ← append_assoc] at hes
    rcases append_cons_eq_concat hes with ⟨hold, rfl, -⟩ | ⟨after', -, hold⟩
    · have ha : m.map t = some a := h.held hold hbet
      have hb : m.map t = some b := hstep.map_of_tryGet.1
      exact Option.some.inj (ha.symm.trans hb)
    · rw [append_assoc, cons_append] at hold
      exact h.same hold hbet

theorem referenced_of_execution (run : Execution Step new es m) : Referenced es m := by
  refine run.invariant (I := Referenced) ?_ fun _ h hstep => h.step hstep
  constructor <;> simp

end References

/-- **References.** In every sequence of calls, every reference that was handed out is to a live
cell with a value of its type, `set` neither replaces nor frees a value, and two references to the
value of a type that is not unmanaged between them are to the same cell, exactly if no type was
unmanaged after a reference to its value was handed out. -/
theorem references_valid_iff {es : List (StateCall S)} {m : StateCells S}
    (run : Execution Step new es m) :
    ((∀ (t : τ) (a : Nat), .tryGet t (some a) ∈ es → ∃ state, m.heap a = some ⟨t, state⟩) ∧
      (∀ (t : τ) (state : S t), (∀ t' a, m.map t' = some a → (m.set t state).2.map t' = some a) ∧
        ∀ a cell, m.heap a = some cell → (m.set t state).2.heap a = some cell) ∧
      ∀ (before between after : List (StateCall S)) (t : τ) (a b : Nat),
        es = before ++ .tryGet t (some a) :: (between ++ .tryGet t (some b) :: after) →
        (∀ state : Option (S t), .unmanage t state ∉ between) → a = b) ↔
    UnmanagedUnreferenced es := by
  have href := referenced_of_execution run
  constructor
  · rintro ⟨hlive, -, -⟩ before after t a state hes hmem
    obtain ⟨state', hstate'⟩ := hlive t a (by simp [hes])
    rw [(href.freed hes hmem).1] at hstate'
    cases hstate'
  · intro hcond
    refine ⟨fun t a hmem => ?_, set_keeps m, fun _ _ _ _ _ _ => href.same⟩
    obtain ⟨before, after, hes⟩ := append_of_mem hmem
    exact m.typed (href.held hes fun state => hcond before after t a state hes)

namespace Sample

/-- The values of one type. -/
abbrev Count (_ : Unit) : Type := Nat

theorem run_tryGet : ∃ m, Execution Step (new : StateCells Count)
    [.set () 1 true, .tryGet () (some 0)] m ∧ m.map () = some 0 := by
  let m := ((new : StateCells Count).set () 1).2
  have hset : Step (new : StateCells Count) [.set () 1 true] m := .set () 1
  have htryGet : Step m [.tryGet () (m.tryGet ())] m := .tryGet ()
  exact ⟨m, (Execution.start.next hset).next htryGet, rfl⟩

end Sample

theorem sample_values : ∃ m : StateCells Sample.Count,
    Execution AbstractStep .new [.set () 1 true, .tryGet () (some 0)] m.values := by
  obtain ⟨m, hrun, -⟩ := Sample.run_tryGet
  exact ⟨m, (execution_values hrun).1⟩

/-- The reference to a value that stays is valid. -/
theorem sample_reference_valid : ∃ m, Execution Step (new : StateCells Sample.Count)
    [.set () 1 true, .tryGet () (some 0)] m ∧ ∃ state, m.heap 0 = some ⟨(), state⟩ := by
  obtain ⟨m, hrun, -⟩ := Sample.run_tryGet
  have hcond : UnmanagedUnreferenced (S := Sample.Count)
      [.set () 1 true, .tryGet () (some 0)] := by
    intro before after t a state hes hmem
    have hmem' : StateCall.unmanage t state ∈
        [StateCall.set () 1 true, StateCall.tryGet (S := Sample.Count) () (some 0)] := by
      rw [hes]
      exact mem_append_right _ (mem_cons_of_mem _ hmem)
    simp at hmem'
  exact ⟨m, hrun, ((references_valid_iff hrun).mpr hcond).1 () 0 (by simp)⟩

/-- A value is stored, a reference to it is handed out and its type is unmanaged: the reference is
to a freed cell. -/
theorem sample_reference_dangling : ∃ es m, Execution Step (new : StateCells Sample.Count) es m ∧
    .tryGet () (some 0) ∈ es ∧ m.heap 0 = none := by
  obtain ⟨m, hrun, hmap⟩ := Sample.run_tryGet
  have hstep : m.Step [.unmanage () (m.unmanage ()).1] (m.unmanage ()).2 := .unmanage ()
  exact ⟨_, _, hrun.next hstep, by simp, (hstep.freed_of_unmanage hmap mem_cons_self).1⟩

end StateCells

end Tauri
