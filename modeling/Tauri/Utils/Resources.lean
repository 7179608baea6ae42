import Tauri.Rust.FileTree
import Tauri.Rust.Outcome

/-!
# Iterating over resources

`ResourcePathsIter` of `tauri-utils` turns the patterns of the configuration into resources, each
with the path of a file and the target that it gets in the bundle. A pattern names a file or a
directory, or it is a glob; the patterns come as a list, or as a map to destinations.

`next` and the functions that it is made of call each other, and each of them may go on with the
next pattern from wherever it stands. They are modelled with a fuel argument that counts nested
calls; `unwrap` on nothing is a panic.
-/

namespace Tauri.Resources

open Rust Rust.PathBuf List

/-- `Path::new` of a string. -/
def os (s : String) : List OsChar := s.toList.map .char

/-- The body of the loop of `resource_relpath`. -/
def relpathStep (dest : List OsChar) : Component OsChar → List OsChar
  | .rootDir => push dest (os "_root_")
  | .curDir => dest
  | .parentDir => push dest (os "_up_")
  | .normal string => push dest string

/-- `resource_relpath`. There are no prefixes on Unix. -/
def resourceRelpath (path : List OsChar) : List OsChar := (components path).foldl relpathStep []

/-- The body of the loop of `normalize`. -/
def normalizeStep (dest : List OsChar) : Component OsChar → List OsChar
  | .rootDir => push dest [sep]
  | .curDir => dest
  | .parentDir => push dest [dot, dot]
  | .normal string => push dest string

/-- `normalize`. -/
def normalize (path : List OsChar) : List OsChar := (components path).foldl normalizeStep []

/-! ### Paths that are written anew -/

variable (path : List OsChar)

theorem normalize_eq : normalize path = text (isAbsolute path) (parts path) := by
  have hfold : normalize path =
      ((parts path).map id).foldl push (if isAbsolute path then [sep] else []) :=
    foldl_components (fun _ => rfl) (fun _ => rfl) (fun _ _ _ => rfl) path
  have hstart : (if isAbsolute path then [sep] else []) =
      text (isAbsolute path) ([] : List (List OsChar)) := by simp [text]
  rw [hfold, map_id, hstart, foldl_push_parts (ne_nil_of_isPart fun _ => isPart_of_mem_parts)
    (by simp), nil_append]

@[simp] theorem parts_normalize : parts (normalize path) = parts path := by
  rw [normalize_eq, parts_text fun _ => isPart_of_mem_parts]

@[simp] theorem isAbsolute_normalize : isAbsolute (normalize path) = isAbsolute path := by
  rw [normalize_eq, isAbsolute_text_of_not_mem (ne_nil_of_isPart fun _ => isPart_of_mem_parts)]

theorem normalize_congr {p q : List OsChar} (habsolute : isAbsolute p = isAbsolute q)
    (hparts : parts p = parts q) : normalize p = normalize q := by
  rw [normalize_eq, normalize_eq, habsolute, hparts]

variable {path}

theorem normalize_eq_nil_iff : normalize path = [] ↔ isAbsolute path = false ∧ parts path = [] := by
  refine ⟨fun h => ⟨?_, ?_⟩, fun ⟨habsolute, hparts⟩ => ?_⟩
  · rw [← isAbsolute_normalize, h]
    rfl
  · rw [← parts_normalize, h, parts_nil]
  · rw [normalize_eq, habsolute, hparts]
    rfl

theorem sameFile_normalize (h : normalize path ≠ []) : SameFile (normalize path) path := by
  refine ⟨isAbsolute_normalize path, parts_normalize path, ?_⟩
  rw [isAbsolute_normalize, parts_normalize, ← Bool.not_eq_false, ← not_and_or]
  exact fun h' => h (normalize_eq_nil_iff.mpr h')

/-- What `resource_relpath` puts in the place of a part. -/
def relName (s : List OsChar) : List OsChar := if s = [dot, dot] then os "_up_" else s

/-- The names of a target. -/
def relNames (path : List OsChar) : List (List OsChar) :=
  (if isAbsolute path then [os "_root_"] else []) ++ (parts path).map relName

theorem isName_of_mem_relNames : ∀ n ∈ relNames path, IsName n := by
  intro n hn
  rcases mem_append.mp hn with hn | hn
  · split at hn
    · rw [mem_singleton.mp hn]
      decide
    · cases hn
  · obtain ⟨s, hs, rfl⟩ := mem_map.mp hn
    obtain rfl | hname := (isPart_of_mem_parts hs).eq_or_isName
    · decide
    · rwa [relName, if_neg hname.ne_dotdot]

theorem resourceRelpath_eq : resourceRelpath path = text false (relNames path) := by
  have hfold : resourceRelpath path =
      ((parts path).map relName).foldl push (if isAbsolute path then os "_root_" else []) :=
    foldl_components (fun _ => rfl) (fun _ => rfl)
      (fun dest n hn => by rw [relName, if_neg hn.ne_dotdot]; rfl) path
  have hstart : (if isAbsolute path then os "_root_" else []) =
      text false (if isAbsolute path then [os "_root_"] else []) := by
    cases isAbsolute path <;> simp [text]
  obtain ⟨hroot, hnames⟩ := forall_mem_append.mp (@isName_of_mem_relNames path)
  rw [hfold, hstart, foldl_push_parts (IsName.ne_nil_of_mem hnames) (IsName.ne_nil_of_mem hroot)]
  rfl

theorem components_resourceRelpath :
    components (resourceRelpath path) = (relNames path).map .normal := by
  rw [resourceRelpath_eq, components_text_parts fun n hn => (isName_of_mem_relNames n hn).isPart,
    filterMap_piece isName_of_mem_relNames]
  rfl

theorem parts_resourceRelpath : parts (resourceRelpath path) = relNames path := by
  rw [resourceRelpath_eq, parts_text fun n hn => (isName_of_mem_relNames n hn).isPart]

theorem relNames_eq_nil_iff : relNames path = [] ↔ resourceRelpath path = [] := by
  refine ⟨fun h => ?_, fun h => ?_⟩
  · rw [resourceRelpath_eq, h]
    rfl
  · rw [← parts_resourceRelpath, h, parts_nil]

theorem length_components_resourceRelpath :
    (components (resourceRelpath path)).length = 0 ↔ resourceRelpath path = [] := by
  rw [components_resourceRelpath, length_map, length_eq_zero_iff, relNames_eq_nil_iff]

theorem resourceRelpath_normalize (path : List OsChar) :
    resourceRelpath (normalize path) = resourceRelpath path := by
  rw [resourceRelpath_eq, resourceRelpath_eq, relNames, isAbsolute_normalize, parts_normalize,
    relNames]

/-- The errors of `tauri_utils` that an iteration gives. -/
inductive Error (E : Type) where
  | globPattern (e : E)
  | glob (e : E)
  | globPathNotFound (pattern : String)
  | walkdirError (e : E)
  | notAllowedToWalkDir (path : List OsChar)
  | resourcePathNotFound (path : List OsChar)
  deriving DecidableEq, Repr

/-- `Resource`. -/
structure Resource where
  path : List OsChar
  target : List OsChar
  deriving DecidableEq, Repr

/-- What an iteration gives. -/
abbrev Item (E : Type) := Except (Error E) Resource

/-- `PatternIter`. -/
inductive PatternIter where
  | slice (patterns : List String)
  | map (entries : List (String × String))
  deriving DecidableEq, Repr

/-- `ResourcePathsIter`. -/
structure Iter (E : Type) where
  patternIter : PatternIter
  allowWalk : Bool
  currentPath : Option (List OsChar) := none
  currentPattern : Option String := none
  currentDest : Option (List OsChar) := none
  walkIter : Option (List (Except E (List OsChar))) := none
  globIter : Option (List (Except E (List OsChar))) := none

/-- `ResourcePaths::new`. -/
def new {E : Type} (patterns : List String) (allowWalk : Bool) : Iter E :=
  { patternIter := .slice patterns, allowWalk }

/-- `ResourcePaths::from_map`, for the entries in the order of the iteration. -/
def fromMap {E : Type} (entries : List (String × String)) (allowWalk : Bool) : Iter E :=
  { patternIter := .map entries, allowWalk }

variable {E : Type}

/-- `Option::unwrap`. -/
def unwrap {α : Type} : Option α → Outcome Empty α
  | none => .panic "called `Option::unwrap()` on a `None` value"
  | some a => .ok a

/-- The target of a resource. -/
def targetOf (it : Iter E) (path : List OsChar) : Outcome Empty (List OsChar) :=
  match it.currentDest with
  | none => .ok (resourceRelpath path)
  | some dest =>
    if it.walkIter.isSome then do
      let pattern ← unwrap it.currentPattern
      return push dest ((stripPrefix path (os pattern)).getD path)
    else if (components dest).length = 0 then unwrap (fileName path)
    else if it.globIter.isSome then do
      let name ← unwrap (fileName path)
      return push dest name
    else return dest

/-- `resource_from_path`. -/
def resourceFromPath (tree : FileTree E) (it : Iter E) (path : List OsChar) :
    Outcome Empty (Item E) :=
  if !tree.pathExists path then .ok (.error (.resourcePathNotFound path))
  else do
    let target ← targetOf it path
    return .ok ⟨path, target⟩

/-- The next pattern, with its destination if there is one, and the patterns behind it. -/
def PatternIter.next : PatternIter → Option ((String × Option String) × PatternIter)
  | slice [] => none
  | slice (pattern :: patterns) => some ((pattern, none), slice patterns)
  | map [] => none
  | map ((pattern, dest) :: entries) => some ((pattern, some dest), map entries)

/-- A call returns an item or the end, and leaves the iterator in a state. -/
abbrev Answer (E : Type) := Outcome Empty (Option (Item E) × Iter E)

/-- `match x { Some(r) => Some(r), None => .. }`. -/
def orElse (x : Answer E) (f : Iter E → Answer E) : Answer E :=
  match x with
  | .ok (none, it) => f it
  | x => x

mutual

/-- `ResourcePathsIter::next`. Where there is no iterator, setting it to `None` changes nothing. -/
def next (tree : FileTree E) : Nat → Iter E → Answer E
  | 0, _ => .outOfFuel
  | fuel + 1, it =>
    if it.currentPath.isSome then nextCurrentPath tree fuel it
    else
      orElse (if it.walkIter.isSome then nextWalkIter tree fuel it else .ok (none, it)) fun it =>
        let it := { it with walkIter := none }
        orElse (if it.globIter.isSome then nextGlobIter tree fuel it else .ok (none, it)) fun it =>
          nextPattern tree fuel { it with globIter := none }

/-- `next_glob_iter`. -/
def nextGlobIter (tree : FileTree E) : Nat → Iter E → Answer E
  | 0, _ => .outOfFuel
  | fuel + 1, it =>
    (unwrap it.globIter).bind fun
    | [] => .ok (none, it)
    | .error e :: entries => .ok (some (.error (.glob e)), { it with globIter := some entries })
    | .ok entry :: entries =>
      nextCurrentPath tree fuel
        { it with globIter := some entries, currentPath := some (normalize entry) }

/-- `next_walk_iter`. -/
def nextWalkIter (tree : FileTree E) : Nat → Iter E → Answer E
  | 0, _ => .outOfFuel
  | fuel + 1, it =>
    (unwrap it.walkIter).bind fun
    | [] => .ok (none, it)
    | .error e :: entries =>
      .ok (some (.error (.walkdirError e)), { it with walkIter := some entries })
    | .ok entry :: entries =>
      nextCurrentPath tree fuel
        { it with walkIter := some entries, currentPath := some (normalize entry) }

/-- `next_current_path`. -/
def nextCurrentPath (tree : FileTree E) : Nat → Iter E → Answer E
  | 0, _ => .outOfFuel
  | fuel + 1, it =>
    (unwrap it.currentPath).bind fun path =>
      let it := { it with currentPath := none }
      if tree.isDir path then
        if it.globIter.isSome then next tree fuel it
        else if !it.allowWalk then .ok (some (.error (.notAllowedToWalkDir path)), it)
        else
          let it := if it.walkIter.isNone then { it with walkIter := some (tree.walk path) } else it
          orElse (nextWalkIter tree fuel it) fun it => next tree fuel { it with walkIter := none }
      else (resourceFromPath tree it path).bind fun r => .ok (some r, it)

/-- `next_pattern`. -/
def nextPattern (tree : FileTree E) : Nat → Iter E → Answer E
  | 0, _ => .outOfFuel
  | fuel + 1, it =>
    let it := { it with currentPattern := none, currentDest := none, currentPath := none }
    match it.patternIter.next with
    | none => .ok (none, it)
    | some ((pattern, dest), patternIter) =>
      let it := { it with
        patternIter
        currentPattern := dest.map fun _ => pattern
        currentDest := dest.map fun dest => resourceRelpath (os dest) }
      if '*' ∈ pattern.toList then
        match tree.glob pattern with
        | .error e => .ok (some (.error (.globPattern e)), it)
        | .ok entries =>
          orElse (nextGlobIter tree fuel { it with globIter := some entries }) fun it =>
            .ok (some (.error (.globPathNotFound pattern)), { it with globIter := none })
      else nextCurrentPath tree fuel { it with currentPath := some (normalize (os pattern)) }

end

/-- A number of calls of `next`. -/
def calls (tree : FileTree E) (fuel : Nat) : Nat → Iter E → Outcome Empty (List (Option (Item E)))
  | 0, _ => .ok []
  | n + 1, it => do
    let (r, it) ← next tree fuel it
    return r :: (← calls tree fuel n it)

end Tauri.Resources
