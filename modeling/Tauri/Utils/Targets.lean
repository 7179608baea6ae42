import Tauri.Utils.Composition

/-!
# The targets of resources

A resource is put at its **target** below the resource directory, and the app looks for it there.
`resolve_path` of `tauri` mangles a path like `resource_relpath` of `tauri-utils` does, in a copy of
its loop. The iterator normalises a path before it mangles it, and this changes nothing, so what is
bundled is found (`bundled_is_found`).

For a directory in a map the target is the destination, joined with the rest of the path behind the
key. The path is normalised and the key is not. A key that begins with `.` is no prefix of the path,
which then stands below the destination as a whole, with any `..` that is in it
(`keepsStructure_iff`).
-/

namespace Tauri.Resources

open Rust Rust.PathBuf List Option

/-- `BaseDirectory`. -/
inductive BaseDirectory where
  | audio | cache | config | data | localData | document | download | picture | publicDir | video
  | resource | temp | appConfig | appData | appLocalData | appCache | appLog | desktop | executable
  | font | home | runtime | template
  deriving DecidableEq, Repr

/-- The body of the loop of `resolve_path`. -/
def resourcePathStep (resourcePath : List OsChar) : Component OsChar → List OsChar
  | .rootDir => push resourcePath (os "_root_")
  | .curDir => resourcePath
  | .parentDir => push resourcePath (os "_up_")
  | .normal p => push resourcePath p

/-- `resolve_path`, for a resolver with the given directories. -/
def resolvePath {ε : Type} (dir : BaseDirectory → Except ε (List OsChar))
    (directory : BaseDirectory) (path : Option (List OsChar)) : Except ε (List OsChar) := do
  let baseDirPath ← dir directory
  match path with
  | none => return baseDirPath
  | some path =>
    if directory = .resource then
      return push baseDirPath ((components path).foldl resourcePathStep [])
    else return push baseDirPath path

/-- `PathResolver::resolve`. -/
def resolve {ε : Type} (dir : BaseDirectory → Except ε (List OsChar)) (path : List OsChar)
    (baseDirectory : BaseDirectory) : Except ε (List OsChar) :=
  resolvePath dir baseDirectory (some path)

theorem resolve_resource {ε : Type} (dir : BaseDirectory → Except ε (List OsChar))
    (path : List OsChar) : resolve dir path .resource =
      (dir .resource).map fun base => push base (resourceRelpath path) := by
  have hstep : resourcePathStep = relpathStep := by
    funext dest c
    cases c <;> rfl
  rw [resolve, resolvePath, hstep]
  cases dir .resource <;> rfl

variable {E : Type}

/-- What a pattern is followed to: itself as it is written if it is a plain file, and otherwise the
paths that it matches or that are walked. -/
def origins (tree : FileTree E) (p : Pattern) : List (List OsChar) :=
  if !p.isGlob && tree.isDir (normalize (os p.1)) then
    (tree.walk (normalize (os p.1))).filterMap Except.toOption
  else named tree p

/-- The pattern is the path of a file. -/
def SingleFile (tree : FileTree E) (p : Pattern) : Prop :=
  p.isGlob = false ∧ tree.isDir (normalize (os p.1)) = false ∧
    tree.pathExists (normalize (os p.1)) = true

/-- The resource that is given for a path. -/
def Given (tree : FileTree E) (p : Pattern) (mode : Mode) (path : List OsChar) (r : Resource) :
    Prop :=
  tree.isDir (normalize path) = false ∧ tree.pathExists (normalize path) = true ∧
    r = ⟨normalize path, p.target mode (normalize path)⟩

section Found

variable {tree : FileTree E} {allowWalk : Bool} {p : Pattern} {ps : List Pattern} {mode : Mode}
  {r : Resource}

theorem ok_mem_results_iff : .ok r ∈ results tree allowWalk ps ↔
    ∃ p ∈ ps, .ok r ∈ contribution tree allowWalk p := by
  induction ps with
  | nil => simp [results]
  | cons p ps ih =>
    rw [results, List.mem_append, List.exists_mem_cons_iff, ← ih]
    refine or_congr_right ?_
    split_ifs with hrep
    · simp only [Bool.and_eq_true, List.isEmpty_iff] at hrep
      simp [hrep]
    · rfl

theorem ok_mem_itemOf {path : List OsChar} : .ok r = itemOf tree p mode path ↔
    tree.pathExists path = true ∧ r = ⟨path, p.target mode path⟩ := by
  rw [itemOf]
  split_ifs with hexists <;> simp [hexists]

theorem ok_mem_entryItems {entry : Except E (List OsChar)}
    (h : .ok r ∈ entryItems tree p mode entry) : ∃ path, entry = .ok path ∧
      Given tree p mode path r := by
  cases entry with
  | error e => simp [entryItems] at h
  | ok path =>
    rw [entryItems] at h
    split at h
    · cases h
    · rename_i hdir
      obtain ⟨hexists, hr⟩ := ok_mem_itemOf.mp (mem_singleton.mp h)
      exact ⟨path, rfl, Bool.eq_false_iff.mpr hdir, hexists, hr⟩

theorem exists_origin (h : .ok r ∈ contribution tree allowWalk p) :
    ∃ path ∈ origins tree p, ∃ mode, Given tree p mode path r ∧
      (mode = .walk → p.isGlob = false ∧ tree.isDir (normalize (os p.1)) = true) := by
  have hents : ∀ {entries : List (Except E (List OsChar))} {mode : Mode},
      .ok r ∈ entries.flatMap (entryItems tree p mode) →
        ∃ path ∈ entries.filterMap Except.toOption, Given tree p mode path r := by
    intro entries mode h
    obtain ⟨entry, hent, h⟩ := mem_flatMap.mp h
    obtain ⟨path, rfl, hr⟩ := ok_mem_entryItems h
    exact ⟨path, mem_filterMap.mpr ⟨_, hent, rfl⟩, hr⟩
  rw [contribution] at h
  rw [origins]
  cases hglob : p.isGlob with
  | true =>
    simp only [hglob, if_true] at h
    rw [named, hglob]
    cases hentries' : tree.glob p.1 with
    | error e => simp [hentries'] at h
    | ok => grind
  | false =>
    simp only [hglob, Bool.false_eq_true, if_false] at h
    cases hdir : tree.isDir (normalize (os p.1)) with
    | true => grind
    | false =>
      simp only [hdir, Bool.false_eq_true, if_false, mem_singleton] at h
      obtain ⟨hexists, hr⟩ := ok_mem_itemOf.mp h
      exact ⟨os p.1, by simp [named, hglob], .file, ⟨hdir, hexists, hr⟩, fun h => by cases h⟩

end Found

/-- On Unix every resource of a list is found at its target under the path that it comes from, and
a single file of a map under its destination. A file whose destination is empty keeps its name. -/
theorem bundled_is_found {ε : Type} (tree : FileTree E) (allowWalk : Bool)
    (dir : BaseDirectory → Except ε (List OsChar)) :
    (∀ patterns : List String, ∃ items, Iterates tree (new patterns allowWalk) items ∧
      ∀ r, .ok r ∈ items → ∃ pattern ∈ patterns, ∃ path ∈ origins tree (pattern, none),
        r.path = normalize path ∧
          resolve dir path .resource = (dir .resource).map fun base => push base r.target) ∧
    ∀ entries : List (String × String), ∃ items, Iterates tree (fromMap entries allowWalk) items ∧
      ∀ key dest, (key, dest) ∈ entries → SingleFile tree (key, some dest) →
        ∃ r, .ok r ∈ items ∧ r.path = normalize (os key) ∧
          (resourceRelpath (os dest) ≠ [] →
            resolve dir (os dest) .resource =
              (dir .resource).map fun base => push base r.target) ∧
          (resourceRelpath (os dest) = [] → fileName (normalize (os key)) = some r.target) := by
  refine ⟨fun patterns => ⟨_, iterates_results tree (.slice patterns) allowWalk, fun r hr => ?_⟩,
    fun entries => ⟨_, iterates_results tree (.map entries) allowWalk, fun key dest hmem hfile => ?_⟩⟩
  · obtain ⟨p, hp, hr⟩ := ok_mem_results_iff.mp hr
    obtain ⟨pattern, hpat, rfl⟩ := mem_map.mp hp
    obtain ⟨path, hpath, mode, ⟨-, -, rfl⟩, -⟩ := exists_origin hr
    refine ⟨pattern, hpat, path, hpath, rfl, ?_⟩
    rw [resolve_resource, ← resourceRelpath_normalize path]
    rfl
  · obtain ⟨hglob, hdir, hexists⟩ := hfile
    have hitem : .ok ⟨normalize (os key), Pattern.target (key, some dest) .file (normalize (os key))⟩ ∈
        contribution tree allowWalk (key, some dest) := by
      simpa [contribution, hglob, hdir] using ok_mem_itemOf.mpr ⟨hexists, rfl⟩
    have htarget : Pattern.target (key, some dest) .file (normalize (os key)) =
        if resourceRelpath (os dest) = [] then (fileName (normalize (os key))).getD []
        else resourceRelpath (os dest) := by
      simp only [Pattern.target, Pattern.dest, map_some, length_components_resourceRelpath]
    refine ⟨_, ok_mem_results_iff.mpr ⟨_, mem_map.mpr ⟨_, hmem, rfl⟩, hitem⟩, rfl, ?_, ?_⟩
    · intro hne
      rw [resolve_resource, htarget, if_neg hne]
    · intro hnil
      obtain ⟨name, hname⟩ := exists_fileName hdir hexists
      rw [htarget, if_pos hnil, hname, getD_some]

/-! ### Directories in a map -/

/-- The path is that of a file that exists. -/
def Regular (tree : FileTree E) (path : List OsChar) : Prop :=
  tree.isDir path = false ∧ tree.pathExists (normalize path) = true

/-- A target below the resource directory. -/
def Inside (target : List OsChar) : Prop :=
  isAbsolute target = false ∧ .parentDir ∉ components target

/-- Every file below a directory is put below the destination as it lies below the directory, and
nothing is put outside of the resource directory. -/
structure KeepsStructure (tree : FileTree E) (key dest : String) (items : List (Item E)) : Prop where
  given : ∀ names, .ok names ∈ tree.below (os key) → Regular tree (names.foldl push (os key)) →
    .ok ⟨normalize (names.foldl push (os key)),
      push (resourceRelpath (os dest)) (text false names)⟩ ∈ items
  inside : ∀ r, .ok r ∈ items → Inside r.target

section Directories

variable {tree : FileTree E} {key dest : String} {p : Pattern} {path : List OsChar}
  {names ms : List (List OsChar)} {r : Resource}

theorem inside_text (h : ∀ n ∈ names, IsName n) : Inside (text false names) := by
  refine ⟨isAbsolute_text h false, ?_⟩
  rw [components_text_parts fun n hn => (h n hn).isPart, filterMap_piece h]
  simp

theorem push_resourceRelpath (h : ∀ n ∈ names, n ≠ [] ∧ sep ∉ n) (hne : names ≠ []) :
    push (resourceRelpath path) (text false names) = text false (relNames path ++ names) := by
  rw [resourceRelpath_eq, push_text_text (IsName.ne_nil_of_mem isName_of_mem_relNames) h hne]

theorem parts_push_resourceRelpath (h : ∀ n ∈ names, IsPart n) :
    parts (push (resourceRelpath path) (text false names)) = relNames path ++ names := by
  rw [parts_push_of_relative (isAbsolute_text_of_not_mem (ne_nil_of_isPart h) false),
    parts_resourceRelpath, parts_text h]

theorem ok_mem_walk : .ok r ∈ (tree.walk path).flatMap (fileItems tree p .walk) ↔
    ∃ names, .ok names ∈ tree.below path ∧ Regular tree (names.foldl push path) ∧
      r = ⟨normalize (names.foldl push path), p.target .walk (normalize (names.foldl push path))⟩ := by
  simp only [FileTree.walk, flatMap_map, mem_flatMap]
  constructor
  · rintro ⟨entry, hent, h⟩
    cases entry with
    | error e => simp [Except.map, fileItems] at h
    | ok names =>
      simp only [Except.map, fileItems] at h
      split at h
      · cases h
      · rename_i hdir
        obtain ⟨hexists, hr⟩ := ok_mem_itemOf.mp (mem_singleton.mp h)
        exact ⟨names, hent, ⟨Bool.eq_false_iff.mpr hdir, hexists⟩, hr⟩
  · rintro ⟨names, hnames, ⟨hdir, hexists⟩, hr⟩
    refine ⟨_, hnames, ?_⟩
    simp only [Except.map, fileItems, hdir, Bool.false_eq_true, if_false, mem_singleton]
    exact ok_mem_itemOf.mpr ⟨hexists, hr⟩

section

variable (hnames : ∀ n ∈ names, IsName n)
include hnames

theorem components_below (path : List OsChar) :
    components (normalize (names.foldl push path)) =
      (if isAbsolute path then [.rootDir] else []) ++
        ((parts path).filterMap piece ++ names.map .normal) := by
  have hparts : ∀ n ∈ names, IsPart n := fun n hn => (hnames n hn).isPart
  rw [normalize_eq, components_text_parts fun _ => isPart_of_mem_parts,
    isAbsolute_foldl_push_of_isPart hparts, parts_foldl_push hparts, filterMap_append,
    filterMap_piece hnames]

theorem stripPrefix_below (hcur : includeCurDir path = false) :
    stripPrefix (normalize (names.foldl push path)) path = some (text false names) := by
  have hpath : components path =
      (if isAbsolute path then [.rootDir] else []) ++ (parts path).filterMap piece := by
    rw [components, hcur, filterMap_piece_parts]
    simp
  have hcollect : collect (names.map .normal) = text false names := by
    rw [collect, foldl_map]
    exact @foldl_push_parts OsChar _ _ [] names (IsName.ne_nil_of_mem hnames) (by simp) false
  rw [PathBuf.stripPrefix, components_below hnames, ← append_assoc, ← hpath,
    dropPrefix?_append_of_beq _ (beq_self_eq_true _), map_some, hcollect]

theorem stripPrefix_below_eq_none (hcur : includeCurDir path = true) :
    stripPrefix (normalize (names.foldl push path)) path = none := by
  have hrel := not_isAbsolute_of_includeCurDir hcur
  rw [PathBuf.stripPrefix, map_eq_none_iff, eq_none_iff_forall_not_mem]
  intro rest hrest
  obtain ⟨front, hsplit, hfront⟩ := dropPrefix?_eq_some_iff.mp hrest
  have hmem : .curDir ∈ components (normalize (names.foldl push path)) := by
    rw [hsplit, eq_of_beq hfront, components, hrel, hcur]
    simp
  rw [components_below hnames, hrel, if_neg Bool.false_ne_true, nil_append] at hmem
  rcases mem_append.mp hmem with hmem | hmem
  · exact curDir_not_mem _ hmem
  · simp at hmem

end

theorem isName_of_regular (hdir : tree.isDir path = true) (hnames : .ok names ∈ tree.below path)
    (h : Regular tree (names.foldl push path)) : (∀ n ∈ names, IsName n) ∧ names ≠ [] := by
  refine ⟨fun n hn => tree.isName_of_mem_below hnames n hn, ?_⟩
  rintro rfl
  rw [foldl_nil, Regular, hdir] at h
  cases h.1

theorem target_walk (dest : String) (hnames : ∀ n ∈ names, IsName n)
    (hcur : includeCurDir (os key) = false) :
    Pattern.target (key, some dest) .walk (normalize (names.foldl push (os key))) =
      push (resourceRelpath (os dest)) (text false names) := by
  simp only [Pattern.target, Pattern.dest, map_some, stripPrefix_below hnames hcur, getD_some]

theorem isPart_of_mem_parts_append (hnames : ∀ n ∈ names, IsName n) :
    ∀ n ∈ parts path ++ names, IsPart n :=
  forall_mem_append.mpr ⟨fun _ => isPart_of_mem_parts, fun n hn => (hnames n hn).isPart⟩

theorem target_walk_of_curDir (dest : String) (hnames : ∀ n ∈ names, IsName n)
    (hcur : includeCurDir (os key) = true) :
    Pattern.target (key, some dest) .walk (normalize (names.foldl push (os key))) =
      push (resourceRelpath (os dest)) (text false (parts (os key) ++ names)) := by
  have hparts : ∀ n ∈ names, IsPart n := fun n hn => (hnames n hn).isPart
  simp only [Pattern.target, Pattern.dest, map_some, stripPrefix_below_eq_none hnames hcur,
    getD_none]
  rw [normalize_eq, isAbsolute_foldl_push_of_isPart hparts, parts_foldl_push hparts,
    not_isAbsolute_of_includeCurDir hcur]

theorem ok_mem_contribution (hglob : Pattern.isGlob (key, some dest) = false)
    (hdir : tree.isDir (os key) = true) : .ok r ∈ contribution tree true (key, some dest) ↔
      normalize (os key) ≠ [] ∧ ∃ names, .ok names ∈ tree.below (os key) ∧
        Regular tree (names.foldl push (os key)) ∧ r = ⟨normalize (names.foldl push (os key)),
          Pattern.target (key, some dest) .walk (normalize (names.foldl push (os key)))⟩ := by
  rw [contribution, hglob, if_neg Bool.false_ne_true]
  by_cases hnil : normalize (os key) = []
  · simp [hnil, tree.isDir_nil, itemOf_nil]
  · rw [isDir_normalize fun h => hnil h.2, hdir, if_pos rfl, if_pos rfl,
      ← walk_flatMap_fileItems hnil, ok_mem_walk]
    exact (and_iff_right hnil).symm

theorem parts_target_ne_nil (h : .ok r ∈ contribution tree true p) : parts r.target ≠ [] := by
  obtain ⟨path, -, mode, ⟨hdir, hexists, hr⟩, hwalk⟩ := exists_origin h
  obtain ⟨name, hname⟩ := exists_fileName hdir hexists
  have hpart := (isName_of_fileName hname).isPart
  obtain ⟨pattern, dest⟩ := p
  cases dest with
  | none =>
    obtain rfl := hr
    change parts (resourceRelpath (normalize path)) ≠ []
    rw [parts_resourceRelpath, relNames]
    simpa using fun _ => parts_ne_nil_of_fileName hname
  | some dest =>
    cases mode with
    | file =>
      obtain rfl := hr
      simp only [Pattern.target, Pattern.dest, map_some, length_components_resourceRelpath,
        hname, getD_some]
      split_ifs with hnil
      · simp [parts_of_isPart hpart]
      · rwa [parts_resourceRelpath, Ne, relNames_eq_nil_iff]
    | glob =>
      obtain rfl := hr
      simp only [Pattern.target, Pattern.dest, map_some, hname, getD_some]
      split_ifs
      · simp [parts_of_isPart hpart]
      · simp [parts_push_of_relative (isAbsolute_of_isPart hpart), parts_of_isPart hpart]
    | walk =>
      obtain ⟨hglob, hkey⟩ := hwalk rfl
      rw [isDir_normalize fun h => by simp [h.2, tree.isDir_nil] at hkey] at hkey
      obtain ⟨-, names, hnames, hfile, rfl⟩ := (ok_mem_contribution hglob hkey).mp h
      obtain ⟨hisName, hne⟩ := isName_of_regular hkey hnames hfile
      cases hcur : includeCurDir (os pattern) with
      | false =>
        rw [target_walk dest hisName hcur,
          parts_push_resourceRelpath fun n hn => (hisName n hn).isPart]
        simp [hne]
      | true =>
        rw [target_walk_of_curDir dest hisName hcur,
          parts_push_resourceRelpath (isPart_of_mem_parts_append hisName)]
        simp [hne]

variable (hglob : Pattern.isGlob (key, some dest) = false)
include hglob

theorem not_keepsStructure (hdir : tree.isDir (os key) = true)
    (hcur : includeCurDir (os key) = true) (hnames : .ok names ∈ tree.below (os key))
    (hfile : Regular tree (names.foldl push (os key))) :
    ¬KeepsStructure tree key dest (contribution tree true (key, some dest)) := by
  intro h
  obtain ⟨hkey, ms, -, -, hr⟩ := (ok_mem_contribution hglob hdir).mp (h.given names hnames hfile)
  obtain ⟨hpath, htarget⟩ := Resource.mk.inj hr
  have hisName := (isName_of_regular hdir hnames hfile).1
  have hcancel := congrArg parts htarget
  rw [← hpath, target_walk_of_curDir dest hisName hcur,
    parts_push_resourceRelpath (isPart_of_mem_parts_append hisName),
    parts_push_resourceRelpath fun n hn => (hisName n hn).isPart, append_cancel_left_eq,
    self_eq_append_left] at hcancel
  exact hkey (normalize_eq_nil_iff.mpr ⟨not_isAbsolute_of_includeCurDir hcur, hcancel⟩)

theorem keepsStructure_of_not_curDir (hdir : tree.isDir (os key) = true)
    (hcur : includeCurDir (os key) = false) :
    KeepsStructure tree key dest (contribution tree true (key, some dest)) := by
  have hkey : normalize (os key) ≠ [] := by
    intro hnil
    obtain ⟨hrel, hparts⟩ := normalize_eq_nil_iff.mp hnil
    rw [eq_nil_of_parts hrel hcur hparts, tree.isDir_nil] at hdir
    cases hdir
  refine ⟨fun names hnames hfile => ?_, fun r hr => ?_⟩
  · rw [ok_mem_contribution hglob hdir, ← target_walk dest (isName_of_regular hdir hnames hfile).1 hcur]
    exact ⟨hkey, names, hnames, hfile, rfl⟩
  · obtain ⟨-, names, hnames, hfile, rfl⟩ := (ok_mem_contribution hglob hdir).mp hr
    obtain ⟨hisName, hne⟩ := isName_of_regular hdir hnames hfile
    rw [target_walk dest hisName hcur, push_resourceRelpath (IsName.ne_nil_of_mem hisName) hne]
    exact inside_text (forall_mem_append.mpr ⟨isName_of_mem_relNames, hisName⟩)

theorem keepsStructure_of_not_regular (hdir : tree.isDir (os key) = true)
    (hnone : ∀ names, .ok names ∈ tree.below (os key) → ¬Regular tree (names.foldl push (os key))) :
    KeepsStructure tree key dest (contribution tree true (key, some dest)) := by
  refine ⟨fun names hnames hfile => absurd hfile (hnone names hnames), fun r hr => ?_⟩
  obtain ⟨-, names, hnames, hfile, -⟩ := (ok_mem_contribution hglob hdir).mp hr
  exact absurd hfile (hnone names hnames)

end Directories

end Tauri.Resources
