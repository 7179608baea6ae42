import Tauri.Rust.Outcome

/-!
# Documents

The formats of configuration files, and the types their contents are read into, are trees of
lists and of maps with string keys, and differ in what is at the leaves. A conversion from one
format to another goes through the tree and converts the leaves: `mapLeaves` where it cannot fail,
`traverse` where it can. Both are compared with what happens at the leaves: a traversal succeeds
if the conversion of every leaf does (`exists_traverse_eq_ok`), and it gives the document back if
it gives every leaf back (`traverse_eq_self`).
-/

namespace Rust

open List Outcome

/-! ### Computations at each element of a list -/

namespace Outcome

variable {ε α β : Type}

variable {xs : List α}

theorem mapM_congr {f g : α → Outcome ε β} (h : ∀ x ∈ xs, f x = g x) : xs.mapM f = xs.mapM g := by
  induction xs with
  | nil => rfl
  | cons x xs ih =>
    obtain ⟨hx, hxs⟩ := forall_mem_cons.mp h
    rw [mapM_cons, mapM_cons, hx, ih hxs]

theorem exists_mapM_eq_ok {f : α → Outcome ε β} :
    (∃ ys, xs.mapM f = ok ys) ↔ ∀ x ∈ xs, ∃ y, f x = ok y := by
  induction xs with
  | nil => simp
  | cons x xs ih =>
    simp only [mapM_cons, bind_eq_ok, forall_mem_cons, ← ih]
    constructor
    · rintro ⟨_, y, hx, ys, hxs, -⟩
      exact ⟨⟨y, hx⟩, ys, hxs⟩
    · rintro ⟨⟨y, hx⟩, ys, hxs⟩
      exact ⟨y :: ys, y, hx, ys, hxs, rfl⟩

theorem mapM_eq_self {f : α → Outcome ε α} : xs.mapM f = ok xs ↔ ∀ x ∈ xs, f x = ok x := by
  induction xs with
  | nil => simp
  | cons x xs ih =>
    simp only [mapM_cons, bind_eq_ok, pure_eq, ok.injEq, cons.injEq, forall_mem_cons, ← ih]
    constructor
    · rintro ⟨_, hx, _, hxs, rfl, rfl⟩
      exact ⟨hx, hxs⟩
    · rintro ⟨hx, hxs⟩
      exact ⟨x, hx, xs, hxs, rfl, rfl⟩

end Outcome

/-! ### Documents -/

/-- A tree of lists and maps. A map is the list of its entries in increasing order of the keys. -/
inductive Document (α : Type) where
  | leaf (a : α)
  | list (ds : List (Document α))
  | map (entries : List (String × Document α))

namespace Document

variable {ε α β γ : Type}

mutual

/-- Converts every leaf. -/
def mapLeaves (f : α → β) : Document α → Document β
  | leaf a => leaf (f a)
  | list ds => list (mapLeavesList f ds)
  | map entries => map (mapLeavesEntries f entries)

/-- The documents of a list. -/
def mapLeavesList (f : α → β) : List (Document α) → List (Document β)
  | [] => []
  | d :: ds => mapLeaves f d :: mapLeavesList f ds

/-- The documents of a map. -/
def mapLeavesEntries (f : α → β) : List (String × Document α) → List (String × Document β)
  | [] => []
  | (k, d) :: entries => (k, mapLeaves f d) :: mapLeavesEntries f entries

end

mutual

/-- Converts the leaves from left to right, and stops where this is not possible. -/
def traverse (f : α → Outcome ε β) : Document α → Outcome ε (Document β)
  | leaf a => do
    let b ← f a
    return leaf b
  | list ds => do
    let ds' ← traverseList f ds
    return list ds'
  | map entries => do
    let entries' ← traverseEntries f entries
    return map entries'

/-- The documents of a list. -/
def traverseList (f : α → Outcome ε β) : List (Document α) → Outcome ε (List (Document β))
  | [] => return []
  | d :: ds => do
    let d' ← traverse f d
    let ds' ← traverseList f ds
    return d' :: ds'

/-- The documents of a map. -/
def traverseEntries (f : α → Outcome ε β) :
    List (String × Document α) → Outcome ε (List (String × Document β))
  | [] => return []
  | (k, d) :: entries => do
    let d' ← traverse f d
    let entries' ← traverseEntries f entries
    return (k, d') :: entries'

end

mutual

/-- The leaves, from left to right. -/
def leaves : Document α → List α
  | leaf a => [a]
  | list ds => leavesList ds
  | map entries => leavesEntries entries

/-- The leaves of a list. -/
def leavesList : List (Document α) → List α
  | [] => []
  | d :: ds => leaves d ++ leavesList ds

/-- The leaves of a map. -/
def leavesEntries : List (String × Document α) → List α
  | [] => []
  | (_, d) :: entries => leaves d ++ leavesEntries entries

end

mutual

/-- How many lists and maps stand around the innermost part. -/
def depth : Document α → Nat
  | leaf _ => 0
  | list ds => depthList ds + 1
  | map entries => depthEntries entries + 1

/-- The depth of the deepest document of a list. -/
def depthList : List (Document α) → Nat
  | [] => 0
  | d :: ds => max (depth d) (depthList ds)

/-- The depth of the deepest document of a map. -/
def depthEntries : List (String × Document α) → Nat
  | [] => 0
  | (_, d) :: entries => max (depth d) (depthEntries entries)

end

/-- A step into a list or into a map. -/
inductive Step where
  | index (i : Nat)
  | key (k : String)

/-- The part of a document at the end of a path. -/
def at? : Document α → List Step → Option (Document α)
  | d, [] => some d
  | list ds, .index i :: path => ds[i]?.bind fun d => d.at? path
  | map entries, .key k :: path => (entries.lookup k).bind fun d => d.at? path
  | _, _ => none

/-! ### The functions at lists and maps -/

@[simp] theorem mapLeaves_leaf (f : α → β) (a : α) : mapLeaves f (leaf a) = leaf (f a) := rfl

@[simp] theorem mapLeaves_list (f : α → β) (ds : List (Document α)) :
    mapLeaves f (list ds) = list (ds.map (mapLeaves f)) := by
  have hlist : mapLeavesList f ds = ds.map (mapLeaves f) := by
    induction ds with
    | nil => rfl
    | cons d ds ih => rw [mapLeavesList, ih, map_cons]
  rw [mapLeaves, hlist]

@[simp] theorem mapLeaves_map (f : α → β) (entries : List (String × Document α)) :
    mapLeaves f (map entries) = map (entries.map fun e => (e.1, mapLeaves f e.2)) := by
  have hents : mapLeavesEntries f entries = entries.map fun e => (e.1, mapLeaves f e.2) := by
    induction entries with
    | nil => rfl
    | cons _ _ ih => rw [mapLeavesEntries, ih, map_cons]
  rw [mapLeaves, hents]

variable (f : α → Outcome ε β)

@[simp] theorem traverse_leaf (a : α) : traverse f (leaf a) = f a >>= fun b => .ok (leaf b) := rfl

@[simp] theorem traverse_list (ds : List (Document α)) :
    traverse f (list ds) = ds.mapM (traverse f) >>= fun ds' => .ok (list ds') := by
  have hlist : traverseList f ds = ds.mapM (traverse f) := by
    induction ds with
    | nil => rfl
    | cons d ds ih => rw [traverseList, ih, mapM_cons]
  rw [traverse, hlist]
  rfl

/-- The entry of a map, with its document converted. -/
def traverseEntry (f : α → Outcome ε β) (e : String × Document α) :
    Outcome ε (String × Document β) :=
  traverse f e.2 >>= fun d => .ok (e.1, d)

variable (entries : List (String × Document α))

@[simp] theorem traverse_map :
    traverse f (map entries) =
      entries.mapM (traverseEntry f) >>= fun entries' => .ok (map entries') := by
  have hents : traverseEntries f entries = entries.mapM (traverseEntry f) := by
    induction entries with
    | nil => rfl
    | cons _ _ ih =>
      rw [traverseEntries, ih, mapM_cons, traverseEntry, bind_assoc]
      rfl
  rw [traverse, hents]
  rfl

@[simp] theorem leaves_leaf (a : α) : (leaf a).leaves = [a] := rfl

@[simp] theorem leaves_list (ds : List (Document α)) : (list ds).leaves = ds.flatMap leaves := by
  have hlist : leavesList ds = ds.flatMap leaves := by
    induction ds with
    | nil => rfl
    | cons d ds ih => rw [leavesList, ih, flatMap_cons]
  rw [leaves, hlist]

@[simp] theorem leaves_map :
    (map entries).leaves = entries.flatMap fun e => e.2.leaves := by
  have hents : leavesEntries entries = entries.flatMap fun e => e.2.leaves := by
    induction entries with
    | nil => rfl
    | cons _ _ ih => rw [leavesEntries, ih, flatMap_cons]
  rw [leaves, hents]

theorem induction {P : Document α → Prop} (hleaf : ∀ a, P (leaf a))
    (hlist : ∀ ds, (∀ d ∈ ds, P d) → P (list ds))
    (hmap : ∀ entries, (∀ e ∈ entries, P e.2) → P (map entries)) : ∀ d, P d
  | leaf a => hleaf a
  | list ds => hlist ds fun d _ => induction hleaf hlist hmap d
  | map entries => hmap entries fun e he => by
    have hsize := sizeOf_lt_of_mem he
    have hent : sizeOf e = 1 + sizeOf e.1 + sizeOf e.2 := by
      cases e
      rfl
    exact induction hleaf hlist hmap e.2

/-! ### Conversions and leaves -/

theorem traverse_mapLeaves (f : β → Outcome ε γ) (g : α → β) (d : Document α) :
    (d.mapLeaves g).traverse f = d.traverse fun a => f (g a) := by
  induction d using induction with
  | hleaf a => rfl
  | hlist ds ih =>
    have hds : ds.mapM (traverse f ∘ mapLeaves g) = ds.mapM (traverse fun a => f (g a)) :=
      mapM_congr ih
    rw [mapLeaves_list, traverse_list, traverse_list, mapM_map, hds]
  | hmap entries ih =>
    have hents : entries.mapM (traverseEntry f ∘ fun e => (e.1, mapLeaves g e.2)) =
        entries.mapM (traverseEntry fun a => f (g a)) :=
      mapM_congr fun e he => congrArg (· >>= _) (ih e he)
    rw [mapLeaves_map, traverse_map, traverse_map, mapM_map, hents]

theorem exists_traverse_eq_ok {f : α → Outcome ε β} {d : Document α} :
    (∃ d', d.traverse f = .ok d') ↔ ∀ a ∈ d.leaves, ∃ b, f a = .ok b := by
  induction d using induction with
  | hleaf a => simp [bind_eq_ok]
  | hlist ds ih =>
    have hds : (∃ d', (list ds).traverse f = .ok d') ↔ ∃ ds', ds.mapM (traverse f) = .ok ds' := by
      simp [bind_eq_ok]
    rw [hds, exists_mapM_eq_ok, leaves_list, forall_mem_flatMap]
    exact forall₂_congr ih
  | hmap entries ih =>
    have hents : (∃ d', (map entries).traverse f = .ok d') ↔
        ∃ entries', entries.mapM (traverseEntry f) = .ok entries' := by
      simp [bind_eq_ok]
    rw [hents, exists_mapM_eq_ok, leaves_map, forall_mem_flatMap]
    refine forall₂_congr fun e he => ?_
    rw [← ih e he]
    simp [traverseEntry, bind_eq_ok]

theorem traverse_eq_self {f : α → Outcome ε α} {d : Document α} :
    d.traverse f = .ok d ↔ ∀ a ∈ d.leaves, f a = .ok a := by
  induction d using induction with
  | hleaf a => simp [bind_eq_ok]
  | hlist ds ih =>
    have hds : (list ds).traverse f = .ok (list ds) ↔ ds.mapM (traverse f) = .ok ds := by
      simp [bind_eq_ok]
    rw [hds, mapM_eq_self, leaves_list, forall_mem_flatMap]
    exact forall₂_congr ih
  | hmap entries ih =>
    have hents : (map entries).traverse f = .ok (map entries) ↔
        entries.mapM (traverseEntry f) = .ok entries := by
      simp [bind_eq_ok]
    rw [hents, mapM_eq_self, leaves_map, forall_mem_flatMap]
    refine forall₂_congr fun e he => ?_
    rw [← ih e he]
    simp [traverseEntry, bind_eq_ok, Prod.ext_iff]

end Document

end Rust
