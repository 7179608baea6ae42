import Mathlib

/-!
# Registries with a check and a later insertion

A registry has **entries**, which say which object a label stands for, and there are the **live**
objects, each with its label. An object is made in three steps that other threads may come between:
its label is looked up, the object is created, and its entry is written. What a thread is about to
make is its **claim**.

Nothing in these steps keeps two threads from looking up the same label. `Registry.Exclusive` is
the invariant where this does not happen: every label belongs to one entry or one claim, and every
live object is under the entry of its label or was created by the thread that claims the label. It
implies that the labels of live objects are unique (`Exclusive.unique`). Each step keeps it, under
the conditions that the lemma for the step has as hypotheses.
-/

namespace Rust

open Function

variable {L K ι : Type}

/-- What a thread is about to make: nothing, an object with a label that it looked up, or an object
that was created and has no entry yet. -/
inductive Claim (L K : Type) where
  | none
  | prepared (label : L)
  | created (label : L) (object : K)
  deriving DecidableEq

/-- The label that is claimed. -/
def Claim.label : Claim L K → Option L
  | none => .none
  | prepared label | created label _ => some label

/-- Entries by label, and the labels of the live objects. -/
structure Registry (L K : Type) where
  entries : L → Option K
  live : K → Option L

namespace Registry

/-- The object is created. -/
def create [DecidableEq K] (r : Registry L K) (label : L) (object : K) : Registry L K :=
  { r with live := Function.update r.live object (some label) }

/-- The entry is written. -/
def attach [DecidableEq L] (r : Registry L K) (label : L) (object : K) : Registry L K :=
  { r with entries := Function.update r.entries label (some object) }

variable (r : Registry L K)

theorem live_create_self [DecidableEq K] (label : L) (object : K) :
    (r.create label object).live object = some label := update_self ..

theorem live_create_of_ne [DecidableEq K] (label : L) {object object' : K}
    (h : object' ≠ object) : (r.create label object).live object' = r.live object' :=
  update_of_ne h ..

theorem entries_attach_self [DecidableEq L] (label : L) (object : K) :
    (r.attach label object).entries label = some object := update_self ..

theorem entries_attach_of_ne [DecidableEq L] {label label' : L} (object : K)
    (h : label' ≠ label) : (r.attach label object).entries label' = r.entries label' :=
  update_of_ne h ..

/-- Objects are closed, and the entries that refer to them removed. -/
def close (r : Registry L K) (closed : K → Bool) : Registry L K where
  entries label := (r.entries label).filter fun object => !closed object
  live object := if closed object then none else r.live object

theorem close_eq_erase [DecidableEq L] [DecidableEq K] {r : Registry L K} {label : L} {object : K}
    (hent : r.entries label = some object)
    (hlbl : ∀ label', r.entries label' = some object → label' = label) :
    r.close (· == object) = {
      entries := fun label' => if label = label' then none else r.entries label'
      live := fun object' => if object = object' then none else r.live object' } := by
  refine congrArg₂ Registry.mk (funext fun label' => ?_) (funext fun object' => ?_)
  · split_ifs with heq
    · subst heq
      simp [Option.filter, hent]
    · obtain hnone | ⟨object', hobject'⟩ := Option.eq_none_or_eq_some (r.entries label')
      · simp [hnone]
      · grind
  · grind

/-- **The invariant.** No label is claimed twice, or has an entry and is claimed. -/
structure Exclusive (r : Registry L K) (claims : ι → Claim L K) : Prop where
  entry : ∀ {label object}, r.entries label = some object → r.live object = some label
  created : ∀ {i label object}, claims i = .created label object → r.live object = some label
  owned : ∀ {label object}, r.live object = some label →
    r.entries label = some object ∨ ∃ i, claims i = .created label object
  free : ∀ {i label}, (claims i).label = some label → r.entries label = none
  exclusive : ∀ {i j label}, (claims i).label = some label → (claims j).label = some label → i = j

namespace Exclusive

variable {r : Registry L K} {claims : ι → Claim L K} {i : ι} {label : L} {object object' : K}

theorem empty : Exclusive (⟨fun _ => none, fun _ => none⟩ : Registry L K)
    (fun _ : ι => Claim.none) := by
  constructor <;> simp [Claim.label]

theorem entries_of_live (h : Exclusive r claims) (hlive : r.live object = some label)
    (hcls : ∀ i, (claims i).label ≠ some label) : r.entries label = some object := by
  rcases h.owned hlive with hent | ⟨i, hi⟩
  · exact hent
  · exact absurd (congrArg Claim.label hi) (hcls i)

/-- **Labels are unique.** -/
theorem unique (h : Exclusive r claims) (hobj : r.live object = some label)
    (hobject' : r.live object' = some label) : object = object' := by
  -- a label with an entry is not claimed, and a label is claimed by one thread
  have hfree : ∀ {i object object'}, r.entries label = some object →
      claims i ≠ .created label object' := by
    intro i object object' hent hi
    rw [h.free (congrArg Claim.label hi)] at hent
    cases hent
  rcases h.owned hobj with hent | ⟨i, hi⟩ <;>
    rcases h.owned hobject' with hent' | ⟨j, hj⟩
  · exact Option.some.inj (hent.symm.trans hent')
  · exact absurd hj (hfree hent)
  · exact absurd hi (hfree hent')
  · obtain rfl := h.exclusive (congrArg Claim.label hi) (congrArg Claim.label hj)
    exact (Claim.created.inj (hi.symm.trans hj)).2

theorem exists_update [DecidableEq ι] {claim claim' : Claim L K} (hi : claims i ≠ claim')
    (h : ∃ j, claims j = claim') : ∃ j, update claims i claim j = claim' := by
  obtain ⟨j, rfl⟩ := h
  exact ⟨j, update_of_ne (fun heq => hi (congrArg claims heq.symm)) ..⟩

variable (h : Exclusive r claims)
include h

/-- A thread whose object is not created gives its claim up, or claims a label that has no entry and
that no other thread claims. -/
theorem setClaim [DecidableEq ι] {claim : Claim L K}
    (hold : ∀ label object, claims i ≠ .created label object)
    (hnew : ∀ label object, claim ≠ .created label object)
    (hfree : ∀ label, claim.label = some label → r.entries label = none ∧
      ∀ j, j ≠ i → (claims j).label ≠ some label) :
    Exclusive r (update claims i claim) := by
  refine ⟨h.entry, ?_, ?_, ?_, ?_⟩
  · intro j label object hj
    by_cases hji : j = i
    · simp_all
    · rw [update_of_ne hji] at hj
      exact h.created hj
  · intro label object hlive
    exact (h.owned hlive).imp_right (exists_update (hold label object))
  · intro j label hj
    by_cases hji : j = i
    · simp_all
    · rw [update_of_ne hji] at hj
      exact h.free hj
  · intro j k label hj hk
    by_cases hji : j = i <;> by_cases hki : k = i
    · exact hji.trans hki.symm
    · simp_all
    · simp_all
    · rw [update_of_ne hji] at hj
      rw [update_of_ne hki] at hk
      exact h.exclusive hj hk

theorem prepare [DecidableEq ι] (hi : claims i = .none) (hent : r.entries label = none)
    (hcls : ∀ j, (claims j).label ≠ some label) :
    Exclusive r (update claims i (.prepared label)) := by
  refine h.setClaim (by simp [hi]) (by simp) fun label' hlbl => ?_
  obtain rfl : label = label' := Option.some.inj hlbl
  exact ⟨hent, fun j _ => hcls j⟩

theorem giveUp [DecidableEq ι] (hi : ∀ label object, claims i ≠ .created label object) :
    Exclusive r (update claims i .none) :=
  h.setClaim hi (by simp) (by simp [Claim.label])

theorem same [DecidableEq ι] {claim : Claim L K} (hi : claims i = claim) :
    Exclusive r (update claims i claim) := by
  rwa [← hi, update_eq_self]

theorem create [DecidableEq ι] [DecidableEq K] (hi : claims i = .prepared label)
    (hobj : r.live object = none) :
    Exclusive (r.create label object) (update claims i (.created label object)) := by
  have hlbl : (claims i).label = some label := congrArg Claim.label hi
  -- the claimed labels stay the same
  have hlbls : ∀ j, (update claims i (.created label object) j).label = (claims j).label := by
    intro j
    by_cases hji : j = i
    · rw [hji, update_self, hlbl, Claim.label]
    · rw [update_of_ne hji]
  have hlive : ∀ {object' label'}, r.live object' = some label' →
      (r.create label object).live object' = some label' := by
    intro object' label' hlive
    have hne : object' ≠ object := by grind
    rw [live_create_of_ne r label hne, hlive]
  refine ⟨fun hent => hlive (h.entry hent), ?_, ?_, ?_, ?_⟩
  · intro j label' object' hj
    by_cases hji : j = i
    · rw [hji, update_self] at hj
      obtain ⟨rfl, rfl⟩ := Claim.created.inj hj
      exact live_create_self r label object
    · rw [update_of_ne hji] at hj
      exact hlive (h.created hj)
  · intro label' object' hlive'
    by_cases hne : object' = object
    · rw [hne, live_create_self] at hlive'
      obtain rfl := Option.some.inj hlive'
      exact .inr ⟨i, by rw [update_self, hne]⟩
    · rw [live_create_of_ne r label hne] at hlive'
      exact (h.owned hlive').imp_right (exists_update (by simp [hi]))
  · intro j label' hj
    rw [hlbls] at hj
    exact h.free hj
  · intro j k label' hj hk
    rw [hlbls] at hj hk
    exact h.exclusive hj hk

theorem attach [DecidableEq ι] [DecidableEq L] (hi : claims i = .created label object) :
    Exclusive (r.attach label object) (update claims i .none) := by
  have hlbl : (claims i).label = some label := congrArg Claim.label hi
  -- what is claimed after the step was claimed by another thread before it
  have hother : ∀ {j label'}, (update claims i .none j).label = some label' →
      j ≠ i ∧ (claims j).label = some label' := by
    intro j label' hj
    have hji : j ≠ i := by
      rintro rfl
      rw [update_self] at hj
      cases hj
    rw [update_of_ne hji] at hj
    exact ⟨hji, hj⟩
  refine ⟨?_, ?_, ?_, ?_, ?_⟩
  · intro label' object' hent
    by_cases hne : label' = label
    · rw [hne, entries_attach_self] at hent
      obtain rfl := Option.some.inj hent
      rw [hne]
      exact h.created hi
    · rw [entries_attach_of_ne r object hne] at hent
      exact h.entry hent
  · intro j label' object' hj
    obtain ⟨hji, -⟩ := hother (congrArg Claim.label hj)
    rw [update_of_ne hji] at hj
    exact h.created hj
  · intro label' object' hlive
    by_cases hne : label' = label
    · subst hne
      obtain rfl : object = object' := h.unique (h.created hi) hlive
      exact .inl (entries_attach_self ..)
    · rw [entries_attach_of_ne r object hne]
      exact (h.owned hlive).imp_right (exists_update (by simp [hi, Ne.symm hne]))
  · intro j label' hj
    obtain ⟨hji, hj⟩ := hother hj
    have hne : label' ≠ label := by
      rintro rfl
      exact hji (h.exclusive hj hlbl)
    rw [entries_attach_of_ne r object hne]
    exact h.free hj
  · intro j k label' hj hk
    exact h.exclusive (hother hj).2 (hother hk).2

theorem close {closed : K → Bool}
    (hclosed : ∀ {i label object}, claims i = .created label object → closed object = false) :
    Exclusive (r.close closed) claims := by
  refine ⟨?_, ?_, ?_, ?_, h.exclusive⟩
  · intro label object hent
    obtain ⟨hent, hopen⟩ := Option.filter_eq_some_iff.mp hent
    have hopen : closed object = false := by simpa using hopen
    simp [Registry.close, hopen, h.entry hent]
  · intro i label object hi
    simp [Registry.close, hclosed hi, h.created hi]
  · intro label object hlive
    cases hopen : closed object with
    | true => simp [Registry.close, hopen] at hlive
    | false =>
      simp only [Registry.close, hopen, Bool.false_eq_true, if_false] at hlive
      refine (h.owned hlive).imp_left fun hent => ?_
      simp [Registry.close, hent, hopen]
  · intro i label hi
    simp [Registry.close, h.free hi]

end Exclusive

end Registry

end Rust
