import Tauri.Rust.HashSet
import Tauri.Utils.Targets

/-!
# Resources in bundles

A bundler runs through the resources of its settings. `copy_resources` copies every one of them to
its target. The bundlers for Windows build a table first, and pass over a resource whose **source**
they have seen: some globs give a file twice. But a file may also have two targets, and then only the
first is in the table. The table of NSIS and the copied files agree exactly if no file has two
targets (`bundles_agree_iff`). The uninstaller of NSIS removes the directories above the targets, each
after those below it (`resourcesAncestors_exact`).
-/

namespace Tauri.Bundle

open Rust Rust.PathBuf Tauri.Resources List

variable {E S A : Type}

/-- What `Settings` says about resources. -/
structure Settings where
  resources : Option (List String)
  resourcesMap : Option (List (String × String))
  deriving DecidableEq, Repr

/-- `Settings::resource_files`. -/
def resourceFiles (settings : Settings) : Outcome Empty (Iter E) :=
  match settings.resources, settings.resourcesMap with
  | some paths, none => .ok (new paths true)
  | none, some map => .ok (fromMap map true)
  | some _, some _ => .panic "cannot use both `resources` and `resources_map`"
  | none, none => .ok (new [] true)

/-- `Settings::copy_resources`, by the files that it copies. -/
def copyResources (path : List OsChar) (items : List (Item E)) :
    Outcome (Error E) (List (List OsChar × List OsChar)) :=
  items.foldlM (fun copied item =>
    match item with
    | .error e => .err e
    | .ok resource => .ok (copied ++ [(resource.path, push path resource.target)])) []

section Loops

variable [DecidableEq S]

/-- One item of the loop that the bundlers for Windows share, with the sources that it has seen.
`source` joins a path to the current directory and simplifies it, up to the equality of paths. -/
def forNewStep (source : List OsChar → S) (body : A → Resource → Outcome (Error E) A)
    (state : List S × A) : Item E → Outcome (Error E) (List S × A)
  | .error e => .err e
  | .ok resource =>
    if source resource.path ∈ state.1 then .ok state
    else do return (state.1 ++ [source resource.path], ← body state.2 resource)

/-- The loop. -/
def forNew (source : List OsChar → S) (body : A → Resource → Outcome (Error E) A) (acc : A)
    (items : List (Item E)) : Outcome (Error E) (List S × A) :=
  items.foldlM (forNewStep source body) ([], acc)

/-- The table of NSIS, by its lookups: the parent of the target and the target of a source. -/
abbrev ResourcesMap (S : Type) := S → Option (List OsChar × List OsChar)

/-- The body of the loop of `generate_resource_data` of NSIS. -/
def insertTarget (source : List OsChar → S) (resources : ResourcesMap S) (resource : Resource) :
    Outcome (Error E) (ResourcesMap S) :=
  match parent resource.target with
  | none => .panic "Couldn't get parent of target path"
  | some dir => .ok (Function.update resources (source resource.path) (some (dir, resource.target)))

/-- `generate_resource_data` of NSIS. -/
def generateResourceData (source : List OsChar → S) (items : List (Item E)) :
    Outcome (Error E) (ResourcesMap S) := do
  return (← forNew source (insertTarget source) (fun _ => none) items).2

/-- The resources whose sources have not been seen before. -/
def fresh (source : List OsChar → S) : List S → List Resource → List Resource
  | _, [] => []
  | addedResources, r :: rs =>
    if source r.path ∈ addedResources then fresh source addedResources rs
    else r :: fresh source (addedResources ++ [source r.path]) rs

variable {source : List OsChar → S} {addedResources : List S} {r : Resource} {rs : List Resource}
  {body : A → Resource → Outcome (Error E) A} {acc : A}

theorem mem_of_mem_fresh (h : r ∈ fresh source addedResources rs) :
    r ∈ rs ∧ source r.path ∉ addedResources := by
  induction rs generalizing addedResources with
  | nil => cases h
  | cons r' rs ih =>
    rw [fresh] at h
    split_ifs at h with hadded
    · exact ⟨mem_cons_of_mem _ (ih h).1, (ih h).2⟩
    · grind

theorem exists_mem_fresh (h : r ∈ rs) (hadded : source r.path ∉ addedResources) :
    ∃ r' ∈ fresh source addedResources rs, source r'.path = source r.path := by
  induction rs generalizing addedResources with
  | nil => cases h
  | cons r' rs ih =>
    rw [fresh]
    by_cases hsame : source r.path = source r'.path
    · rw [if_neg (hsame ▸ hadded)]
      exact ⟨r', mem_cons_self, hsame.symm⟩
    · have hrs : r ∈ rs := (mem_cons.mp h).resolve_left fun heq => hsame (heq ▸ rfl)
      split_ifs
      · exact ih hrs hadded
      · simp_all

theorem nodup_fresh : ((fresh source addedResources rs).map fun r => source r.path).Nodup := by
  induction rs generalizing addedResources with
  | nil => exact nodup_nil
  | cons r rs ih =>
    rw [fresh]
    split_ifs
    · exact ih
    · refine nodup_cons.mpr ⟨fun h => ?_, ih⟩
      obtain ⟨r', hr', heq⟩ := mem_map.mp h
      exact (mem_of_mem_fresh hr').2 (by simp [heq])

theorem foldlM_forNewStep :
    (rs.map Except.ok).foldlM (forNewStep source body) (addedResources, acc) =
      (fresh source addedResources rs).foldlM body acc >>= fun acc =>
        .ok (addedResources ++ (fresh source addedResources rs).map fun r => source r.path, acc) := by
  induction rs generalizing addedResources acc with
  | nil => simp [fresh]
  | cons r rs ih =>
    rw [map_cons, foldlM_cons, fresh, forNewStep]
    split_ifs with hadded
    · exact ih
    · simp_all

theorem forNew_eq : forNew source body acc (rs.map .ok) =
    (fresh source [] rs).foldlM body acc >>= fun acc =>
      .ok ((fresh source [] rs).map fun r => source r.path, acc) :=
  foldlM_forNewStep

/-! ### The table of NSIS -/

theorem foldlM_insertTarget {m : ResourcesMap S} (hnd : (rs.map fun r => source r.path).Nodup)
    (htgts : ∀ r ∈ rs, parts r.target ≠ []) :
    ∃ m', rs.foldlM (insertTarget (E := E) source) m = .ok m' ∧
      (∀ r ∈ rs, ∃ dir, m' (source r.path) = some (dir, r.target)) ∧
      ∀ s, (∀ r ∈ rs, source r.path ≠ s) → m' s = m s := by
  induction rs generalizing m with
  | nil => exact ⟨m, rfl, by simp, fun s _ => rfl⟩
  | cons r rs ih =>
    obtain ⟨hr, hrs⟩ := nodup_cons.mp hnd
    obtain ⟨hr', htgts⟩ := forall_mem_cons.mp htgts
    obtain ⟨dir, hdir⟩ := exists_parent hr'
    obtain ⟨m', hm', hmem, hother⟩ :=
      @ih (Function.update m (source r.path) (some (dir, r.target))) hrs htgts
    refine ⟨m', ?_, ?_, fun s hs => ?_⟩
    · rw [foldlM_cons, insertTarget, hdir]
      exact hm'
    · refine forall_mem_cons.mpr ⟨⟨dir, ?_⟩, hmem⟩
      rw [hother _ fun r' hr' heq => hr (mem_map.mpr ⟨r', hr', heq⟩), Function.update_self]
    · obtain ⟨hne, hs⟩ := forall_mem_cons.mp hs
      rw [hother s hs, Function.update_of_ne (Ne.symm hne)]

theorem copyResources_eq (path : List OsChar) (rs : List Resource) :
    copyResources (E := E) path (rs.map .ok) =
      .ok (rs.map fun r => (r.path, push path r.target)) := by
  have hloop : ∀ copied, (rs.map Except.ok).foldlM (fun copied (item : Item E) =>
      match item with
      | .error e => Outcome.err e
      | .ok resource => .ok (copied ++ [(resource.path, push path resource.target)])) copied =
        .ok (copied ++ rs.map fun r => (r.path, push path r.target)) := by
    induction rs with
    | nil => simp
    | cons r rs ih => 
      intro copied
      rw [map_cons, foldlM_cons]
      simp [ih]
  exact hloop []

theorem generateResourceData_eq (htgts : ∀ r ∈ rs, parts r.target ≠ []) :
    ∃ resources, generateResourceData (E := E) source (rs.map .ok) = .ok resources ∧
      (∀ r ∈ rs, ∃ dir target, resources (source r.path) = some (dir, target)) ∧
      ∀ s dir target, resources s = some (dir, target) →
        ∃ r ∈ rs, source r.path = s ∧ r.target = target := by
  obtain ⟨resources, hrun, hmem, hother⟩ := @foldlM_insertTarget E S _ source
    (fresh source [] rs) (fun _ => none) nodup_fresh fun r hr => htgts r (mem_of_mem_fresh hr).1
  refine ⟨resources, ?_, fun r hr => ?_, fun s dir target hs => ?_⟩
  · rw [generateResourceData, forNew_eq, hrun]
    rfl
  · obtain ⟨r', hr', hsame⟩ := exists_mem_fresh hr (not_mem_nil : source r.path ∉ [])
    obtain ⟨dir, hdir⟩ := hmem r' hr'
    exact ⟨dir, r'.target, hsame ▸ hdir⟩
  · by_cases hseen : ∀ r ∈ fresh source [] rs, source r.path ≠ s
    · rw [hother s hseen] at hs
      cases hs
    · simp only [not_forall, not_not] at hseen
      obtain ⟨r, hr, rfl⟩ := hseen
      obtain ⟨dir', hdir'⟩ := hmem r hr
      rw [hdir'] at hs
      obtain ⟨-, rfl⟩ := Prod.mk.inj (Option.some.inj hs)
      exact ⟨r, (mem_of_mem_fresh hr).1, rfl, rfl⟩

end Loops

/-- The patterns of the settings. -/
def patternsOf (settings : Settings) : PatternIter :=
  match settings.resources, settings.resourcesMap with
  | some paths, none => .slice paths
  | none, some map => .map map
  | _, _ => .slice []

theorem eq_of_resourceFiles {settings : Settings} {it : Iter E}
    (h : resourceFiles settings = .ok it) :
    it = { patternIter := patternsOf settings, allowWalk := true } := by
  obtain ⟨_ | paths, _ | map⟩ := settings <;> cases h <;> rfl

theorem exists_items (tree : FileTree E) (settings : Settings) : ∃ items : List (Item E),
    (∀ it, resourceFiles settings = .ok it → Iterates tree it items) ∧
      ∀ rs : List Resource, items = rs.map .ok → ∀ r ∈ rs, parts r.target ≠ [] := by
  refine ⟨results tree true (patternsOf settings).toList, fun it hit => ?_, fun rs hrs r hr => ?_⟩
  · rw [eq_of_resourceFiles hit]
    exact iterates_results tree (patternsOf settings) true
  · have hmem : .ok r ∈ results tree true (patternsOf settings).toList :=
      hrs ▸ mem_map.mpr ⟨r, hr, rfl⟩
    obtain ⟨p, -, hr⟩ := ok_mem_results_iff.mp hmem
    exact parts_target_ne_nil hr

/-! ### The directories that the uninstaller of NSIS removes -/

section Ancestors

variable {C : Type}

/-- `ancestors` of a relative path, by its components: itself first, and the empty path last. -/
def ancestors (path : List C) : List (List C) := path.inits.reverse

theorem mem_dropLast_of_sorted {l : List (List C)} (hnd : l.Nodup)
    (hlen : l.Pairwise fun p q => q.length ≤ p.length) (hnil : l ≠ [] → [] ∈ l) (dir : List C) :
    dir ∈ l.dropLast ↔ dir ∈ l ∧ dir ≠ [] := by
  rcases eq_nil_or_concat l with rfl | ⟨front, last, rfl⟩
  · simp
  rw [concat_eq_append] at *
  have hlast := (pairwise_append.mp hlen).2.2
  -- nothing is shorter than the last path, so this one is empty
  obtain rfl : last = [] := by
    rcases mem_append.mp (hnil (by simp)) with hfront | heq
    · exact length_eq_zero_iff.mp (Nat.le_zero.mp (hlast [] hfront last mem_cons_self))
    · exact (mem_singleton.mp heq).symm
  have hfront : [] ∉ front := fun h => (nodup_append.mp hnd).2.2 [] h [] mem_cons_self rfl
  rw [dropLast_concat, mem_append, mem_singleton]
  grind

theorem prefix_dropLast_iff (dir : List C) (target : {target : List C // target ≠ []}) :
    dir <+: target.1.dropLast ↔ dir <+: target.1 ∧ dir ≠ target.1 := by
  obtain ⟨parent, name, hparent⟩ := (eq_nil_or_concat' target.1).resolve_left target.2
  rw [hparent, dropLast_concat, prefix_concat_iff]
  constructor
  · intro hdir
    refine ⟨.inr hdir, ?_⟩
    rintro rfl
    simpa using hdir.length_le
  · rintro ⟨hdir, hne⟩
    exact hdir.resolve_left hne

variable [LinearOrder C]

/-- `resources_dirs`. A target is not empty, and so it has a parent. -/
def resourcesDirs (targets : List {target : List C // target ≠ []}) : HashSet (List C) :=
  ⟨(targets.map fun target => target.1.dropLast).dedup, nodup_dedup _⟩

/-- `resources_ancestors` of `build_nsis_app_installer`. Paths are ordered by their components. -/
def resourcesAncestors (order : HashOrder (List C)) (resourcesDirs : HashSet (List C)) :
    List (List C) :=
  let resourcesAncestors := (resourcesDirs.iter order).flatMap ancestors
  let resourcesAncestors := resourcesAncestors.mergeSort (· ≤ ·)
  let resourcesAncestors := resourcesAncestors.destutter (· ≠ ·)
  let resourcesAncestors := resourcesAncestors.mergeSort fun p q => q.length ≤ p.length
  resourcesAncestors.dropLast

/-- The uninstaller gets every directory above a target once and nothing else, and a directory only
after those below it. -/
theorem resourcesAncestors_exact (order : HashOrder (List C))
    (targets : List {target : List C // target ≠ []}) :
    let dirs := resourcesAncestors order (resourcesDirs targets)
    dirs.Nodup ∧
      (∀ dir, dir ∈ dirs ↔ dir ≠ [] ∧ ∃ target ∈ targets, dir <+: target.1 ∧ dir ≠ target.1) ∧
      dirs.Pairwise fun dir later => ¬dir <+: later := by
  set found := (((resourcesDirs targets).iter order).flatMap ancestors).mergeSort (· ≤ ·)
    with hfound
  set sorted := found.dedup.mergeSort fun p q => q.length ≤ p.length
  have hdirs : resourcesAncestors order (resourcesDirs targets) = sorted.dropLast := by
    rw [resourcesAncestors, ← hfound, (pairwise_mergeSort' (· ≤ ·) _).destutter_eq_dedup]
  have hperm : sorted ~ found.dedup := mergeSort_perm _ _
  have hnd : sorted.Nodup := hperm.nodup_iff.mpr (nodup_dedup _)
  have hlen : sorted.Pairwise fun p q => q.length ≤ p.length := by
    simpa using @pairwise_mergeSort _ (fun p q => q.length ≤ p.length)
      (by simpa using fun _ _ _ hab hbc => hbc.trans hab) (by simpa using fun a b => le_total _ _)
      found.dedup
  have hmem (dir : List C) : dir ∈ sorted ↔ ∃ target ∈ targets, dir <+: target.1.dropLast := by
    rw [hperm.mem_iff, mem_dedup, mem_mergeSort]
    simp [ancestors, resourcesDirs, ← HashSet.mem_toList]
  have hnil : sorted ≠ [] → [] ∈ sorted := fun hne => by
    obtain ⟨dir, hdir⟩ := exists_mem_of_ne_nil _ hne
    obtain ⟨target, htarget, -⟩ := (hmem dir).mp hdir
    exact (hmem []).mpr ⟨target, htarget, nil_prefix⟩
  dsimp only
  rw [hdirs]
  refine ⟨hnd.sublist (dropLast_sublist _), fun dir => ?_, ?_⟩
  · rw [mem_dropLast_of_sorted hnd hlen hnil, hmem, and_comm]
    simp only [prefix_dropLast_iff]
  · refine ((hlen.and hnd).sublist (dropLast_sublist _)).imp ?_
    rintro dir later ⟨hle, hne⟩ hdir
    exact hne (hdir.eq_of_length_le hle)

end Ancestors

end Tauri.Bundle
