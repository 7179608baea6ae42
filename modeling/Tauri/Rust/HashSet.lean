import Mathlib

/-!
# Hash sets

A `HashSet` is a list without repetitions. The order of this list means nothing: a program that
iterates over the set is given some `HashOrder`, and what is proved about it holds for every one.
-/

namespace Rust

variable {α : Type}

/-- `HashSet`. -/
structure HashSet (α : Type) where
  toList : List α
  nodup : toList.Nodup

/-- An order in which the elements of a hash table are listed: any. -/
structure HashOrder (α : Type) where
  order : List α → List α
  perm : ∀ l, (order l).Perm l

namespace HashSet

instance : EmptyCollection (HashSet α) := ⟨⟨[], .nil⟩⟩

instance : Membership α (HashSet α) := ⟨fun s a => a ∈ s.toList⟩

def insert [DecidableEq α] (s : HashSet α) (a : α) : HashSet α :=
  ⟨s.toList.insert a, s.nodup.insert⟩

def retain (s : HashSet α) (p : α → Bool) : HashSet α := ⟨s.toList.filter p, s.nodup.filter p⟩

def isEmpty (s : HashSet α) : Bool := s.toList.isEmpty

def iter (o : HashOrder α) (s : HashSet α) : List α := o.order s.toList

variable {s : HashSet α} {a b : α}

@[simp] theorem mem_toList : a ∈ s.toList ↔ a ∈ s := .rfl

@[simp] theorem not_mem_empty : a ∉ (∅ : HashSet α) := List.not_mem_nil

@[simp] theorem mem_insert [DecidableEq α] : a ∈ s.insert b ↔ a = b ∨ a ∈ s := List.mem_insert_iff

@[simp] theorem mem_retain {p : α → Bool} : a ∈ s.retain p ↔ a ∈ s ∧ p a = true := List.mem_filter

theorem isEmpty_eq_false_of_mem (h : a ∈ s) : s.isEmpty = false :=
  List.isEmpty_eq_false_iff.mpr (List.ne_nil_of_mem h)

@[simp] theorem mem_iter {o : HashOrder α} : a ∈ s.iter o ↔ a ∈ s := (o.perm _).mem_iff

theorem nodup_iter (o : HashOrder α) (s : HashSet α) : (s.iter o).Nodup :=
  (o.perm _).nodup_iff.mpr s.nodup

end HashSet

end Rust
