import Mathlib

/-!
# Ordered maps and their `entry` updates

`BTreeMap K V` is the extensional tree map of the standard library: two maps with the same
lookups are equal, and `toList` runs through the keys in increasing order, as the iterators of
Rust's `BTreeMap` do.

The one update that needs rules of its own is the entry idiom
`*map.entry(k).or_default() = f(old)` (`upsert`), because programs apply it in a loop over
pairs whose keys may repeat. `getElem?_upsertAll` says what such a loop leaves at a key: the
fold of the values that were paired with this key, in order, and nothing else. A loop that
runs through another map meets every key at most once (`valuesAt_toList`).
-/

namespace Rust

open List Std.ExtTreeMap

/-- Rust's `BTreeMap`. -/
abbrev BTreeMap (K V : Type) [Ord K] := Std.ExtTreeMap K V compare

section ValuesAt

variable {K W : Type} [DecidableEq K]

/-- The values paired with the key `k`, in order. -/
def valuesAt (k : K) (l : List (K × W)) : List W :=
  l.filterMap fun kw => if kw.1 = k then some kw.2 else none

@[simp] theorem valuesAt_nil (k : K) : valuesAt k ([] : List (K × W)) = [] := rfl

theorem valuesAt_cons (k k' : K) (w : W) (l : List (K × W)) :
    valuesAt k ((k', w) :: l) = if k' = k then w :: valuesAt k l else valuesAt k l := by
  unfold valuesAt
  split_ifs with h <;> simp [h]

theorem valuesAt_flatMap {α : Type} (k : K) (l : List α) (f : α → List (K × W)) :
    valuesAt k (l.flatMap f) = l.flatMap fun x => valuesAt k (f x) := by
  simp [valuesAt, filterMap_flatMap]

variable {k : K} {l : List (K × W)}

theorem mem_valuesAt {w : W} : w ∈ valuesAt k l ↔ (k, w) ∈ l := by
  simp only [valuesAt, mem_filterMap, Option.ite_none_right_eq_some, Option.some.injEq]
  constructor
  · rintro ⟨⟨k', w'⟩, hmem, rfl, rfl⟩
    exact hmem
  · intro hmem
    exact ⟨(k, w), hmem, rfl, rfl⟩

theorem valuesAt_eq_nil : valuesAt k l = [] ↔ ∀ w, (k, w) ∉ l := by
  rw [eq_nil_iff_forall_not_mem]
  exact forall_congr' fun w => not_congr mem_valuesAt

/-- Where every key of the list is distinct from the others, a key has at most one value. -/
theorem valuesAt_eq_singleton {w : W} (hl : (l.map Prod.fst).Nodup) (hmem : (k, w) ∈ l) :
    valuesAt k l = [w] := by
  induction l with
  | nil => cases hmem
  | cons kw l ih =>
    obtain ⟨k', w'⟩ := kw
    obtain ⟨hk', hl⟩ := nodup_cons.mp hl
    rw [valuesAt_cons]
    rcases mem_cons.mp hmem with heq | hmem
    · cases heq
      have hnil : valuesAt k l = [] :=
        valuesAt_eq_nil.mpr fun v hv => hk' (mem_map.mpr ⟨_, hv, rfl⟩)
      rw [if_pos rfl, hnil]
    · grind

end ValuesAt

namespace BTreeMap

variable {K V W : Type} [Ord K] [Std.TransOrd K]

/-- `BTreeMap::values`: the values in increasing order of their keys. -/
def vals (m : BTreeMap K V) : List V := m.toList.map Prod.snd

/-- `*map.entry(k).or_insert(d) = f(old)`. -/
def upsert (m : BTreeMap K V) (k : K) (d : V) (f : V → V) : BTreeMap K V :=
  m.alter k fun old => some (f (old.getD d))

/-- The loop `for (k, w) in pairs { *map.entry(k).or_insert(d) = f(old, w) }`. -/
def upsertAll (d : V) (f : V → W → V) (m : BTreeMap K V) (pairs : List (K × W)) : BTreeMap K V :=
  pairs.foldl (fun m kw => m.upsert kw.1 d fun old => f old kw.2) m

/-- The loop `for (k, w) in pairs { map.entry(k).or_default().push(w) }` over a map of vectors. -/
def pushAll (m : BTreeMap K (List W)) (pairs : List (K × W)) : BTreeMap K (List W) :=
  m.upsertAll [] (fun old w => old ++ [w]) pairs

/-- `map.extend(pairs)`: a later value replaces an earlier one of the same key. -/
def insertAll (m : BTreeMap K V) (pairs : List (K × V)) : BTreeMap K V :=
  pairs.foldl (fun m kv => m.insert kv.1 kv.2) m

theorem upsertAll_append (d : V) (f : V → W → V) (m : BTreeMap K V) (pairs pairs' : List (K × W)) :
    m.upsertAll d f (pairs ++ pairs') = (m.upsertAll d f pairs).upsertAll d f pairs' := by
  simp [upsertAll]

theorem insertAll_append (m : BTreeMap K V) (pairs pairs' : List (K × V)) :
    m.insertAll (pairs ++ pairs') = (m.insertAll pairs).insertAll pairs' := by
  simp [insertAll]

theorem pushAll_append (m : BTreeMap K (List W)) (pairs pairs' : List (K × W)) :
    m.pushAll (pairs ++ pairs') = (m.pushAll pairs).pushAll pairs' :=
  upsertAll_append _ _ m pairs pairs'

variable {m : BTreeMap K V} {k : K}

theorem mem_iff_exists : k ∈ m ↔ ∃ v, m[k]? = some v := by
  rw [mem_iff_isSome_getElem?, Option.isSome_iff_exists]

theorem nodup_map_fst_toList (m : BTreeMap K V) : (m.toList.map Prod.fst).Nodup := by
  rw [map_fst_toList_eq_keys]
  exact nodup_keys

variable [Std.LawfulEqOrd K]

theorem mem_vals {v : V} : v ∈ m.vals ↔ ∃ k : K, m[k]? = some v := by
  simp only [vals, mem_map, Prod.exists, exists_eq_right]
  exact exists_congr fun k => mem_toList_iff_getElem?_eq_some

variable {k' : K}

theorem getElem?_insert_of_ne (m : BTreeMap K V) (v : V) (h : k' ≠ k) :
    (m.insert k v)[k']? = m[k']? := by
  rw [Std.ExtTreeMap.getElem?_insert, if_neg fun heq => h (Std.LawfulEqOrd.eq_of_compare heq).symm]

theorem getElem?_insert_eq_some {v w : V} :
    (m.insert k v)[k']? = some w ↔ k' = k ∧ w = v ∨ k' ≠ k ∧ m[k']? = some w := by
  by_cases hk : k' = k
  · subst hk
    simp [eq_comm]
  · simp [getElem?_insert_of_ne m v hk, hk]

theorem getElem?_erase_eq_some {w : V} : (m.erase k)[k']? = some w ↔ k' ≠ k ∧ m[k']? = some w := by
  rw [getElem?_erase]
  by_cases hk : k' = k
  · simp [hk]
  · simp [hk, Ne.symm hk]

variable (m)

theorem getElem?_insert_eq_update [DecidableEq K] (k : K) (v : V) :
    (fun k' => (m.insert k v)[k']?) = Function.update (fun k' => m[k']?) k (some v) := by
  funext k'
  by_cases hk : k' = k
  · rw [hk, getElem?_insert_self, Function.update_self]
  · rw [Function.update_of_ne hk, getElem?_insert_of_ne m v hk]

theorem map_getElem?_insert_eq_update [DecidableEq K] (k : K) (v : V) (f : V → W) :
    (fun k' => (m.insert k v)[k']?.map f) =
      Function.update (fun k' => m[k']?.map f) k (some (f v)) := by
  funext k'
  rw [congrFun (getElem?_insert_eq_update m k v) k']
  exact Function.apply_update (fun _ => Option.map f) _ k (some v) k'

theorem insert_comm (v v' : V) (h : k ≠ k') :
    (m.insert k v).insert k' v' = (m.insert k' v').insert k v := by
  refine Std.ExtTreeMap.ext_getElem? fun j => ?_
  simp only [Std.ExtTreeMap.getElem?_insert, Std.LawfulEqOrd.compare_eq_iff_eq]
  grind

theorem erase_insert_comm (v : V) (h : k ≠ k') :
    (m.insert k v).erase k' = (m.erase k').insert k v := by
  refine Std.ExtTreeMap.ext_getElem? fun j => ?_
  simp only [Std.ExtTreeMap.getElem?_insert, Std.ExtTreeMap.getElem?_erase,
    Std.LawfulEqOrd.compare_eq_iff_eq]
  grind

theorem erase_comm (k k' : K) : (m.erase k).erase k' = (m.erase k').erase k := by
  refine ext_getElem? fun j => ?_
  simp only [getElem?_erase, Std.LawfulEqOrd.compare_eq_iff_eq]
  grind

variable [DecidableEq K]

theorem getElem?_eraseAll (ks : List K) (k : K) :
    (ks.foldl (fun m k => m.erase k) m)[k]? = if k ∈ ks then none else m[k]? := by
  induction ks generalizing m with
  | nil => simp
  | cons => grind

theorem getElem?_upsert (k k' : K) (d : V) (f : V → V) :
    (m.upsert k d f)[k']? = if k = k' then some (f (m[k]?.getD d)) else m[k']? := by
  simp only [upsert, getElem?_alter, Std.LawfulEqOrd.compare_eq_iff_eq]

/-- Updates of different entries commute, and so do updates of one entry that commute there. -/
theorem upsert_comm (d : V) {f f' : V → V} (h : k = k' → ∀ v, f (f' v) = f' (f v)) :
    (m.upsert k' d f').upsert k d f = (m.upsert k d f).upsert k' d f' := by
  refine ext_getElem? fun j => ?_
  simp only [getElem?_upsert]
  by_cases hk : k = k'
  · subst hk
    by_cases hj : k = j <;> simp [hj, h rfl]
  · grind

theorem map_upsert (k : K) {d : V} {f g : V → V} (hd : g d = d) (h : ∀ v, g (f v) = f (g v)) :
    (m.upsert k d f).map (fun _ v => g v) = upsert (m.map fun _ v => g v) k d f := by
  refine Std.ExtTreeMap.ext_getElem? fun j => ?_
  simp only [getElem?_upsert, Std.ExtTreeMap.getElem?_map]
  by_cases hj : k = j
  · cases m[k]? <;> simp [hj, h, hd]
  · simp [hj]

variable {m}

/-- **The entry loop.** At a key that no pair has, nothing changes; at any other key the
values paired with it are folded, in order, into the old value or the default. -/
theorem getElem?_upsertAll (d : V) (f : V → W → V) (m : BTreeMap K V) (pairs : List (K × W))
    (k : K) : (m.upsertAll d f pairs)[k]? =
      if valuesAt k pairs = [] then m[k]?
      else some ((valuesAt k pairs).foldl f (m[k]?.getD d)) := by
  induction pairs generalizing m with
  | nil => simp [upsertAll]
  | cons kw pairs ih =>
    obtain ⟨k', w⟩ := kw
    have hstep : m.upsertAll d f ((k', w) :: pairs)
        = (m.upsert k' d fun old => f old w).upsertAll d f pairs := rfl
    rw [hstep, ih, getElem?_upsert, valuesAt_cons]
    by_cases hk : k' = k
    · simp_all
    · simp [hk]

theorem mem_upsertAll {d : V} {f : V → W → V} {pairs : List (K × W)} :
    k ∈ m.upsertAll d f pairs ↔ k ∈ m ∨ ∃ w, (k, w) ∈ pairs := by
  rw [mem_iff_isSome_getElem?, getElem?_upsertAll, mem_iff_isSome_getElem?]
  by_cases hnil : valuesAt k pairs = []
  · simp [hnil, valuesAt_eq_nil.mp hnil]
  · have hex : ∃ w, (k, w) ∈ pairs := by
      by_contra hcon
      exact hnil (valuesAt_eq_nil.mpr (not_exists.mp hcon))
    simp [hnil, hex]

/-- Pushing appends to the vector of a key the values paired with it, and creates no key that
nothing is pushed under. -/
theorem getElem?_pushAll (m : BTreeMap K (List W)) (pairs : List (K × W)) (k : K) :
    (m.pushAll pairs)[k]? =
      if valuesAt k pairs = [] then m[k]? else some (m[k]?.getD [] ++ valuesAt k pairs) := by
  have hsnoc : ∀ ws acc : List W, ws.foldl (fun old w => old ++ [w]) acc = acc ++ ws := by
    intro ws
    induction ws with
    | nil => simp
    | cons w ws ih => simp [ih]
  rw [pushAll, getElem?_upsertAll, hsnoc]

theorem getD_pushAll_empty (pairs : List (K × W)) (k : K) :
    (pushAll ∅ pairs)[k]?.getD [] = valuesAt k pairs := by
  rw [getElem?_pushAll]
  split_ifs with hnil
  · simp [hnil]
  · simp

theorem getElem?_insertAll (m : BTreeMap K V) (pairs : List (K × V)) (k : K) :
    (m.insertAll pairs)[k]? = (valuesAt k pairs).getLast?.or m[k]? := by
  induction pairs generalizing m with
  | nil => simp [insertAll]
  | cons kv pairs ih =>
    obtain ⟨k', v⟩ := kv
    have hstep : m.insertAll ((k', v) :: pairs) = BTreeMap.insertAll (m.insert k' v) pairs := rfl
    rw [hstep, ih, Std.ExtTreeMap.getElem?_insert, valuesAt_cons]
    simp only [Std.LawfulEqOrd.compare_eq_iff_eq]
    by_cases hk : k' = k
    · rw [if_pos hk, if_pos hk, getLast?_cons]
      cases (valuesAt k pairs).getLast? <;> simp
    · rw [if_neg hk, if_neg hk]

theorem mem_insertAll {pairs : List (K × V)} :
    k ∈ m.insertAll pairs ↔ k ∈ m ∨ ∃ v, (k, v) ∈ pairs := by
  rw [mem_iff_isSome_getElem?, getElem?_insertAll,
    mem_iff_isSome_getElem?, Option.isSome_or, Bool.or_eq_true, or_comm]
  have hlast : (valuesAt k pairs).getLast?.isSome = true ↔ ∃ v, (k, v) ∈ pairs := by
    simp only [getLast?_isSome, ne_eq, valuesAt_eq_nil, not_forall, not_not]
  rw [hlast]

theorem valuesAt_toList (m : BTreeMap K V) (k : K) : valuesAt k m.toList = m[k]?.toList := by
  have hnd := nodup_map_fst_toList m
  cases hk : m[k]? with
  | none =>
    refine valuesAt_eq_nil.mpr fun v hv => ?_
    rw [mem_toList_iff_getElem?_eq_some, hk] at hv
    cases hv
  | some v =>
    exact valuesAt_eq_singleton hnd (mem_toList_iff_getElem?_eq_some.mpr hk)

theorem getElem?_upsertAll_toList (d : V) (f : V → W → V) (m : BTreeMap K V)
    (m' : BTreeMap K W) (k : K) : (m.upsertAll d f m'.toList)[k]? =
      match m'[k]? with
      | none => m[k]?
      | some w => some (f (m[k]?.getD d) w) := by
  rw [getElem?_upsertAll, valuesAt_toList]
  cases m'[k]? <;> simp

end BTreeMap

end Rust
