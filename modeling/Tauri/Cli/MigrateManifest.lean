import Tauri.Rust.Map

/-!
# Migrating the features of a dependency

`tauri migrate` goes through the `features` array of a dependency from the end. A feature of
version 1 that is gone is removed in place, one with a new name is removed in place too, and its
new name is collected and pushed at the end. What the loop leaves is said for every array at once
(`featureLoop_append`); that a second run has nothing to do is because **no new name is removed or
renamed again** (`AllFeatures.stable`).
-/

namespace Tauri.Cli.Manifest

open Rust List

/-- `toml_edit::Value`. -/
inductive Value where
  | string (text : String)
  | array (values : List Value)
  | inlineTable (entries : List (String × Value))
  | other (text : String)

def Value.asStr : Value → Option String
  | .string text => some text
  | _ => none

/-- `toml_edit::Item`. -/
inductive Item where
  | none
  | value (value : Value)
  | table (entries : List (String × Item))
  | arrayOfTables (tables : List (List (String × Item)))

/-- A `TableLike`. -/
abbrev Table := BTreeMap String Item

def featuresToRename : List (String × String) :=
  [("window-data-url", "webview-data-url"), ("reqwest-native-tls-vendored", "native-tls-vendored"),
    ("system-tray", "tray-icon"), ("icon-ico", "image-ico"), ("icon-png", "image-png")]

/-- `AllowlistConfig::all_features` of the `tauri-utils` of version 1: it has `protocol-asset`,
and no name that is new in version 2. -/
structure AllFeatures where
  names : List String
  protocolAsset : "protocol-asset" ∈ names
  new_notMem : ∀ r ∈ featuresToRename, r.2 ∉ names

instance : Inhabited AllFeatures := ⟨⟨["protocol-asset"], by decide, by decide⟩⟩

def featuresToRemove (all : AllFeatures) : List String :=
  (all.names ++ ["reqwest-client", "http-multipart", "process-command-api", "shell-open-api",
    "os-api", "global-shortcut", "clipboard", "dialog", "notification", "fs-extract-api",
    "windows7-compat", "updater", "cli", "linux-protocol-headers", "dox"]).erase "protocol-asset"

section Features

variable (remove : List String) (rename : List (String × String))

/-- The `while` loop, with the array and `add_features`. -/
def featureLoop : Nat → List Value → List String → List Value × List String
  | 0, features, add => (features, add)
  | index + 1, features, add =>
    match features[index]?.bind Value.asStr with
    | some f =>
      if f ∈ remove then featureLoop index (features.eraseIdx index) add
      else
        match rename.find? fun r => r.1 = f with
        | some r => featureLoop index (features.eraseIdx index) (add ++ [r.2])
        | none => featureLoop index features add
    | none => featureLoop index features add

/-- `migrate_dependency_table`. -/
def migrateDependencyTable (dep : Table) (version : String) : Table :=
  let dep := (((dep.erase "rev").erase "git").erase "branch").erase "tag"
  let dep := dep.insert "version" (.value (.string version))
  match dep["features"]? with
  | some (.value (.array features)) =>
    let (features, add) := featureLoop remove rename features.length features []
    dep.insert "features" (.value (.array (features ++ add.map .string)))
  | some _ => dep
  | none => dep.insert "features" .none

/-- The new name of a feature that is renamed. -/
def renamed (value : Value) : Option String :=
  value.asStr.bind fun f =>
    if f ∈ remove then none else (rename.find? fun r => r.1 = f).map Prod.snd

/-- Whether a value is neither removed nor renamed. -/
def kept (value : Value) : Bool :=
  value.asStr.all (· ∉ remove) && (renamed remove rename value).isNone

/-- What is to become of a value. -/
def migrated (value : Value) : List Value :=
  if kept remove rename value then [value]
  else ((renamed remove rename value).map Value.string).toList

variable {remove rename}

/-- The loop over the first part of an array. -/
theorem featureLoop_append (front back : List Value) (add : List String) :
    featureLoop remove rename front.length (front ++ back) add =
      (front.filter (kept remove rename) ++ back,
        add ++ front.reverse.filterMap (renamed remove rename)) := by
  -- the index goes down, so the last entry of the part is met first
  induction front using reverseRecOn generalizing back add with
  | nil => simp [featureLoop]
  | append_singleton front value ih =>
    have hget : (front ++ [value] ++ back)[front.length]? = some value := by simp
    have herase : (front ++ [value] ++ back).eraseIdx front.length = front ++ back := by
      simp [eraseIdx_append_of_length_le]
    rw [length_append, length_singleton, featureLoop, hget, herase]
    rcases hstr : value.asStr with _ | f
    · simp [hstr, ih, kept, renamed]
    by_cases hf : f ∈ remove
    · simp [hstr, hf, ih, kept, renamed]
    rcases hfind : rename.find? fun r => r.1 = f with _ | r <;>
      simp [hstr, hf, hfind, ih, kept, renamed]

variable (remove rename) in
/-- What the loop and the pushes after it make of an array. -/
def migrateFeatures (features : List Value) : List Value :=
  features.filter (kept remove rename) ++
    (features.reverse.filterMap (renamed remove rename)).map .string

variable (remove rename) in
theorem getElem?_migrateDependencyTable {dep : Table} {features : List Value} (version : String)
    (h : dep["features"]? = some (.value (.array features))) :
    (migrateDependencyTable remove rename dep version)["features"]? =
      some (.value (.array (migrateFeatures remove rename features))) := by
  have hloop : featureLoop remove rename features.length (features ++ []) [] = _ :=
    featureLoop_append features [] []
  rw [append_nil] at hloop
  simp [migrateDependencyTable, Std.ExtTreeMap.getElem?_insert, Std.ExtTreeMap.getElem?_erase, h,
    hloop, migrateFeatures]

theorem renamed_of_kept {value : Value} (h : kept remove rename value = true) :
    renamed remove rename value = none := by
  rw [kept, Bool.and_eq_true, Option.isNone_iff_eq_none] at h
  exact h.2

theorem migrateFeatures_perm (features : List Value) :
    migrateFeatures remove rename features ~ features.flatMap (migrated remove rename) := by
  have hrev := ((reverse_perm features).filterMap (renamed remove rename)).map Value.string
  refine (hrev.append_left _).trans ?_
  induction features with
  | nil => simp
  | cons value features ih =>
    have ih := ih (((reverse_perm features).filterMap _).map _)
    rw [flatMap_cons, migrated]
    by_cases hkept : kept remove rename value = true
    · simpa [hkept, renamed_of_kept hkept] using ih
    rcases hren : renamed remove rename value with _ | f
    · simpa [hkept, hren] using ih
    · -- the new name stands behind all the values that are kept
      simpa [hkept, hren] using perm_middle.trans (ih.cons _)

theorem migrateFeatures_eq_self {features : List Value}
    (h : ∀ value ∈ features, kept remove rename value = true) :
    migrateFeatures remove rename features = features := by
  have hnone : features.reverse.filterMap (renamed remove rename) = [] :=
    filterMap_eq_nil_iff.mpr fun value hmem => renamed_of_kept (h value (mem_reverse.mp hmem))
  rw [migrateFeatures, hnone, filter_eq_self.mpr h, map_nil, append_nil]

end Features

/-- A new name is neither removed nor renamed. -/
theorem AllFeatures.stable (all : AllFeatures) {r : String × String} (h : r ∈ featuresToRename) :
    kept (featuresToRemove all) featuresToRename (.string r.2) = true := by
  have hmem : r.2 ∉ featuresToRemove all := fun hmem => by
    rcases mem_append.mp (mem_of_mem_erase hmem) with hall | hextra
    · exact all.new_notMem r h hall
    · simp only [featuresToRename, mem_cons, not_mem_nil, or_false] at h
      rcases h with rfl | rfl | rfl | rfl | rfl <;> simp at hextra
  have hfind : (featuresToRename.find? fun r' => r'.1 = r.2) = none :=
    (by decide : ∀ r ∈ featuresToRename, (featuresToRename.find? fun r' => r'.1 = r.2) = none) r h
  simp [kept, renamed, Value.asStr, hmem, hfind]

theorem AllFeatures.kept_migrateFeatures (all : AllFeatures) (features : List Value) :
    ∀ value ∈ migrateFeatures (featuresToRemove all) featuresToRename features,
      kept (featuresToRemove all) featuresToRename value = true := by
  intro value hmem
  rcases mem_append.mp hmem with hkept | hnew
  · exact (mem_filter.mp hkept).2
  · obtain ⟨f, hf, rfl⟩ := mem_map.mp hnew
    obtain ⟨old, -, hren⟩ := mem_filterMap.mp hf
    obtain ⟨g, -, hg⟩ := Option.bind_eq_some_iff.mp hren
    rw [Option.ite_none_left_eq_some] at hg
    obtain ⟨r, hr, rfl⟩ := Option.map_eq_some_iff.mp hg.2
    exact all.stable (mem_of_find?_eq_some hr)

/-- The features are migrated as a multiset, those that stay keep their order, and a second run
leaves the array as it is. -/
theorem migrateDependencyTable_exact (all : AllFeatures) (dep : Table) (version : String)
    (features : List Value) :
    let migrate := fun dep =>
      migrateDependencyTable (featuresToRemove all) featuresToRename dep version
    let first := migrate (dep.insert "features" (.value (.array features)))
    ∃ new, first["features"]? = some (.value (.array new)) ∧
      new ~ features.flatMap (migrated (featuresToRemove all) featuresToRename) ∧
      features.filter (kept (featuresToRemove all) featuresToRename) <+: new ∧
      (migrate first)["features"]? = some (.value (.array new)) := by
  intro migrate first
  have hdep : (dep.insert "features" (.value (.array features)))["features"]? =
      some (.value (.array features)) := by simp
  have hfirst :=
    getElem?_migrateDependencyTable (featuresToRemove all) featuresToRename version hdep
  refine ⟨_, hfirst, migrateFeatures_perm features, prefix_append _ _, ?_⟩
  have hsecond :=
    getElem?_migrateDependencyTable (featuresToRemove all) featuresToRename version hfirst
  rwa [migrateFeatures_eq_self (all.kept_migrateFeatures features)] at hsecond

end Tauri.Cli.Manifest
