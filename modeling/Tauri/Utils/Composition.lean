import Tauri.Utils.Iteration

/-!
# Patterns one after the other

Iterating over two lists of patterns should give what the first gives and then what the second
gives, and so every pattern should give what it matches, wherever it stands (`expected`).

Both fail for a **glob that matches directories only**. The iterator passes over the directories and
goes on with the next pattern from within the glob. Only if nothing at all comes behind the glob is
it reported as not found, and of several such globs only the last one: another glob of this kind, a
file or an error behind it is taken for a match of it (`compositional_iff`).

The second fails for the **current directory** also. Nothing is left of `.` when it is normalised, and
the empty path is no directory and names no file.
-/

namespace Tauri.Resources

open Rust Rust.PathBuf List

variable {E : Type}

/-- What an entry of a glob or of a directory should give. -/
def fileItems (tree : FileTree E) (p : Pattern) (mode : Mode) :
    Except E (List OsChar) → List (Item E)
  | .error e => [.error (if mode = .glob then .glob e else .walkdirError e)]
  | .ok entry => if tree.isDir entry then [] else [itemOf tree p mode (normalize entry)]

/-- What a pattern should give: the files that it matches, or that lie below it if it is a directory
and may be walked. What cannot be read comes as an error, and a glob that brings nothing is
reported. -/
def expected (tree : FileTree E) (allowWalk : Bool) (p : Pattern) : List (Item E) :=
  if p.isGlob then
    match tree.glob p.1 with
    | .error e => [.error (.globPattern e)]
    | .ok entries =>
      let items := entries.flatMap (fileItems tree p .glob)
      if items.isEmpty then [.error (.globPathNotFound p.1)] else items
  else if tree.isDir (os p.1) then
    if allowWalk then (tree.walk (os p.1)).flatMap (fileItems tree p .walk)
    else [.error (.notAllowedToWalkDir (normalize (os p.1)))]
  else [itemOf tree p .file (normalize (os p.1))]

/-- All entries are directories. -/
def OnlyDirs (tree : FileTree E) (entries : List (Except E (List OsChar))) : Prop :=
  ∀ entry ∈ entries, ∃ path, entry = .ok path ∧ tree.isDir (normalize path) = true

/-- A glob that matches something, but directories only. -/
def DirsOnlyGlob (tree : FileTree E) (p : Pattern) : Prop :=
  p.isGlob = true ∧ ∃ entries, tree.glob p.1 = .ok entries ∧ entries ≠ [] ∧ OnlyDirs tree entries

/-- A directory that may be walked and has no files below it. -/
def EmptyDir (tree : FileTree E) (allowWalk : Bool) (p : Pattern) : Prop :=
  p.isGlob = false ∧ allowWalk = true ∧ tree.isDir (normalize (os p.1)) = true ∧
    OnlyDirs tree (tree.walk (normalize (os p.1)))

/-- Behind a glob that matches directories only there are empty directories only. -/
def Pending (tree : FileTree E) (allowWalk : Bool) (ps : List Pattern) : Prop :=
  ∃ front p rest, ps = front ++ p :: rest ∧ DirsOnlyGlob tree p ∧
    ∀ q ∈ rest, EmptyDir tree allowWalk q

/-- The path is the current directory, such as `.` or `./`. -/
def NamesCurrentDir (tree : FileTree E) (path : List OsChar) : Prop :=
  tree.isDir path = true ∧ normalize path = []

/-- The paths that a pattern stands for: itself, or what it matches. -/
def named (tree : FileTree E) (p : Pattern) : List (List OsChar) :=
  if p.isGlob then
    match tree.glob p.1 with
    | .error _ => []
    | .ok entries => entries.filterMap Except.toOption
  else [os p.1]

section Silence

variable {tree : FileTree E} {allowWalk : Bool} {p : Pattern} {ps qs : List Pattern} {mode : Mode}
  {entries : List (Except E (List OsChar))}

theorem onlyDirs_iff :
    OnlyDirs tree entries ↔ ∀ entry ∈ entries, entryItems tree p mode entry = [] := by
  refine forall₂_congr fun entry _ => ?_
  cases entry <;> simp [entryItems]

theorem dirsOnly_iff : dirsOnly tree p = true ↔ DirsOnlyGlob tree p := by
  rw [dirsOnly, Bool.and_eq_true, DirsOnlyGlob]
  refine and_congr_right fun _ => ?_
  cases tree.glob p.1 with
  | error e => simp
  | ok => simp [@onlyDirs_iff E tree p .glob]

theorem contribution_eq_nil_iff :
    contribution tree allowWalk p = [] ∧ dirsOnly tree p = false ↔ EmptyDir tree allowWalk p := by
  rw [← Bool.not_eq_true, dirsOnly_iff, contribution, EmptyDir, DirsOnlyGlob]
  cases hglob : p.isGlob with
  | true =>
    cases tree.glob p.1 with
    | error e => simp
    | ok entries => cases entries <;> simp [@onlyDirs_iff E tree p .glob]
  | false =>
    cases tree.isDir (normalize (os p.1)) <;> cases allowWalk <;>
      simp [@onlyDirs_iff E tree p .walk]

theorem results_eq_nil_iff :
    results tree allowWalk ps = [] ↔ ∀ p ∈ ps, EmptyDir tree allowWalk p := by
  induction ps with
  | nil => simp [results]
  | cons p ps ih =>
    rw [forall_mem_cons, ← ih, ← contribution_eq_nil_iff, results, append_eq_nil_iff, and_assoc]
    refine and_congr_right fun _ => ?_
    cases dirsOnly tree p <;> cases hps : results tree allowWalk ps <;> simp

/-! ### Two lists -/

theorem results_append_of_nil (h : results tree allowWalk qs = []) :
    results tree allowWalk (ps ++ qs) = results tree allowWalk ps := by
  induction ps with
  | nil => exact h
  | cons p ps ih => rw [cons_append, results, results, ih]

theorem results_append_of_ne_nil (h : results tree allowWalk qs ≠ []) :
    results tree allowWalk (ps ++ qs) =
      ps.flatMap (contribution tree allowWalk) ++ results tree allowWalk qs := by
  induction ps with
  | nil => rfl
  | cons p ps ih =>
    have hne : (results tree allowWalk (ps ++ qs)).isEmpty = false := by simp [ih, h]
    rw [cons_append, results, hne, Bool.and_false, if_neg Bool.false_ne_true, ih,
      flatMap_cons, append_assoc]

theorem pending_cons : Pending tree allowWalk (p :: ps) ↔
    (DirsOnlyGlob tree p ∧ ∀ q ∈ ps, EmptyDir tree allowWalk q) ∨ Pending tree allowWalk ps := by
  constructor
  · rintro ⟨_ | ⟨_, front⟩, q, rest, hps, hq⟩
    · obtain ⟨rfl, rfl⟩ := cons.inj hps
      exact .inl hq
    · exact .inr ⟨front, q, rest, (cons.inj hps).2, hq⟩
  · rintro (h | ⟨front, q, rest, rfl, hq⟩)
    · exact ⟨[], p, ps, rfl, h⟩
    · exact ⟨p :: front, q, rest, rfl, hq⟩

theorem results_eq_flatMap_iff : results tree allowWalk ps =
    ps.flatMap (contribution tree allowWalk) ↔ ¬Pending tree allowWalk ps := by
  induction ps with
  | nil => simp [results, Pending]
  | cons p ps ih =>
    rw [results, List.flatMap_cons, List.append_cancel_left_eq, pending_cons, ← dirsOnly_iff,
      ← results_eq_nil_iff, not_or, ← ih]
    split_ifs with hrep
    · simp only [Bool.and_eq_true, List.isEmpty_iff] at hrep
      have hnil : ps.flatMap (contribution tree allowWalk) = [] :=
        List.flatMap_eq_nil_iff.mpr fun q hq =>
          (contribution_eq_nil_iff.mpr (results_eq_nil_iff.mp hrep.2 q hq)).1
      simp [hnil, hrep]
    · simp only [Bool.and_eq_true, List.isEmpty_iff] at hrep
      simp [hrep]

theorem results_append_iff : results tree allowWalk (ps ++ qs) =
    results tree allowWalk ps ++ results tree allowWalk qs ↔
      (∀ q ∈ qs, EmptyDir tree allowWalk q) ∨ ¬Pending tree allowWalk ps := by
  rw [← results_eq_nil_iff]
  by_cases hqs : results tree allowWalk qs = []
  · simp [hqs, results_append_of_nil]
  · rw [results_append_of_ne_nil hqs, append_cancel_right_eq, eq_comm, results_eq_flatMap_iff]
    simp [hqs]

/-! ### Every pattern for itself -/

/-- The report of a glob that matches directories only. -/
def report (tree : FileTree E) (p : Pattern) : List (Item E) :=
  if dirsOnly tree p then [.error (.globPathNotFound p.1)] else []

/-- What would be given if every such glob were reported. -/
def reported (tree : FileTree E) (allowWalk : Bool) (p : Pattern) : List (Item E) :=
  contribution tree allowWalk p ++ report tree p

theorem length_results_le : (results tree allowWalk ps).length ≤
    (ps.flatMap (reported tree allowWalk)).length := by
  induction ps with
  | nil => simp [results]
  | cons p ps ih =>
    simp only [results, flatMap_cons, length_append, reported, report]
    cases dirsOnly tree p <;> cases hps : results tree allowWalk ps <;> simp [hps] at ih ⊢ <;> omega

/-- All globs of directories are reported if there is one at most, with nothing behind it. -/
theorem results_eq_reported_iff : results tree allowWalk ps =
    ps.flatMap (reported tree allowWalk) ↔
      ps.Pairwise fun p q => DirsOnlyGlob tree p → EmptyDir tree allowWalk q := by
  induction ps with
  | nil => simp [results]
  | cons p ps ih =>
    rw [pairwise_cons, flatMap_cons, reported, report, append_assoc, results,
      append_cancel_left_eq, ← ih, ← dirsOnly_iff]
    cases dirsOnly tree p with
    | false => simp
    | true =>
      have hlen := @length_results_le E tree allowWalk ps
      simp only [true_imp_iff, ← results_eq_nil_iff, Bool.true_and, if_true, singleton_append]
      split_ifs with hnil
      · simp_all
      · grind

variable {path : List OsChar}

theorem isDir_normalize (h : ¬NamesCurrentDir tree path) :
    tree.isDir (normalize path) = tree.isDir path := by
  by_cases hnil : normalize path = []
  · rw [hnil, tree.isDir_nil]
    exact (Bool.eq_false_iff.mpr fun hdir => h ⟨hdir, hnil⟩).symm
  · exact tree.isDir_congr (sameFile_normalize hnil)

theorem fileItems_eq (h : ¬NamesCurrentDir tree path) :
    fileItems tree p mode (.ok path) = entryItems tree p mode (.ok path) := by
  rw [fileItems, entryItems, isDir_normalize h]

theorem walk_flatMap_fileItems (h : normalize path ≠ []) :
    (tree.walk path).flatMap (fileItems tree p mode) =
      (tree.walk (normalize path)).flatMap (entryItems tree p mode) := by
  rw [FileTree.walk, FileTree.walk, tree.below_congr (sameFile_normalize h), flatMap_map,
    flatMap_map]
  refine flatMap_congr fun entry hent => ?_
  cases entry with
  | error e => rfl
  | ok names =>
    have hparts : ∀ n ∈ names, IsPart n := fun n hn => (tree.isName_of_mem_below hent n hn).isPart
    have hsame : normalize (names.foldl push (normalize path)) = normalize (names.foldl push path) :=
      normalize_congr (by simp [isAbsolute_foldl_push_of_isPart hparts])
        (by simp [parts_foldl_push hparts])
    have hne : normalize (names.foldl push path) ≠ [] := by
      rw [Ne, normalize_eq_nil_iff, isAbsolute_foldl_push_of_isPart hparts,
        parts_foldl_push hparts, append_eq_nil_iff]
      exact fun h' => h (normalize_eq_nil_iff.mpr ⟨h'.1, h'.2.1⟩)
    have hdir := @isDir_normalize E tree (names.foldl push path) fun h => hne h.2
    simp only [Except.map, fileItems, entryItems, hsame, hdir]

/-- A pattern gives what it should, except for the reports of globs that match directories only. -/
theorem expected_eq (h : ∀ path ∈ named tree p, ¬NamesCurrentDir tree path) :
    expected tree allowWalk p = reported tree allowWalk p := by
  rw [expected, reported, contribution, report, dirsOnly]
  cases hglob : p.isGlob with
  | true =>
    cases hents : tree.glob p.1 with
    | error e => simp
    | ok entries =>
      have hitems : entries.flatMap (fileItems tree p .glob) =
          entries.flatMap (entryItems tree p .glob) := by
        refine flatMap_congr fun entry hent => ?_
        cases entry with
        | error e => rfl
        | ok path =>
          refine fileItems_eq (h path ?_)
          simpa [named, hglob, hents] using ⟨_, hent, rfl⟩
      simp only [hitems]
      cases entries with
      | nil => simp
      | cons => grind
  | false =>
    have hp : ¬NamesCurrentDir tree (os p.1) := h _ (by simp [named, hglob])
    rw [isDir_normalize hp]
    cases hdir : tree.isDir (os p.1) with
    | false => simp
    | true =>
      rw [walk_flatMap_fileItems fun hnil => hp ⟨hdir, hnil⟩]
      simp

/-! ### The current directory -/

/-- The error for the empty path, which is what is left of the current directory. -/
def isEmptyPath : Item E → Bool
  | .error (.resourcePathNotFound []) => true
  | _ => false

/-- How often the empty path is not found. -/
def misses (items : List (Item E)) : Nat := items.countP isEmptyPath

theorem misses_append (as bs : List (Item E)) : misses (as ++ bs) = misses as + misses bs :=
  countP_append

theorem misses_flatMap {α : Type} (l : List α) (f : α → List (Item E)) :
    misses (l.flatMap f) = (l.map fun a => misses (f a)).sum :=
  countP_flatMap

theorem itemOf_nil : itemOf tree p mode [] = .error (.resourcePathNotFound []) := by
  rw [itemOf, tree.pathExists_nil, if_neg Bool.false_ne_true]

theorem misses_entryItems (h : NamesCurrentDir tree path) :
    misses (fileItems tree p mode (.ok path)) < misses (entryItems tree p mode (.ok path)) := by
  rw [fileItems, entryItems, h.1, h.2, tree.isDir_nil, itemOf_nil]
  simp [misses, isEmptyPath]

theorem misses_entryItems_le {entry : Except E (List OsChar)} :
    misses (fileItems tree p mode entry) ≤ misses (entryItems tree p mode entry) := by
  cases entry with
  | error e => rfl
  | ok path =>
    by_cases h : NamesCurrentDir tree path
    · exact (misses_entryItems h).le
    · rw [fileItems_eq h]

theorem misses_walk (h : NamesCurrentDir tree path) :
    misses ((tree.walk path).flatMap (fileItems tree p mode)) = 0 := by
  rw [misses, countP_eq_zero]
  intro item hitem
  obtain ⟨entry, hent, hitem⟩ := mem_flatMap.mp hitem
  obtain ⟨entry, hbelow, rfl⟩ := mem_map.mp hent
  cases entry with
  | error e =>
    rw [mem_singleton.mp hitem]
    cases mode <;> simp [isEmptyPath]
  | ok names =>
    have hparts : ∀ n ∈ names, IsPart n := fun n hn => (tree.isName_of_mem_below hbelow n hn).isPart
    simp only [Except.map, fileItems] at hitem
    split at hitem
    · cases hitem
    · rename_i hdir
      have hne : normalize (names.foldl push path) ≠ [] := by
        rw [Ne, normalize_eq_nil_iff, parts_foldl_push hparts, append_eq_nil_iff]
        rintro ⟨-, -, rfl⟩
        exact hdir h.1
      rw [mem_singleton.mp hitem, itemOf]
      split
      · simp [isEmptyPath]
      · obtain ⟨c, rest, hcons⟩ := exists_cons_of_ne_nil hne
        simp [isEmptyPath, hcons]

theorem misses_results :
    misses (results tree allowWalk ps) = misses (ps.flatMap (contribution tree allowWalk)) := by
  induction ps with
  | nil => rfl
  | cons p ps ih =>
    rw [results, List.flatMap_cons, misses_append, misses_append, ← ih]
    split_ifs with hrep
    · simp only [Bool.and_eq_true, List.isEmpty_iff] at hrep
      rw [hrep.2]
      rfl
    · rfl

theorem misses_expected_lt (hpath : path ∈ named tree p) (h : NamesCurrentDir tree path) :
    misses (expected tree allowWalk p) < misses (contribution tree allowWalk p) := by
  rw [expected, contribution]
  cases hglob : p.isGlob with
  | true =>
    cases hents : tree.glob p.1 with
    | error e => simp [named, hglob, hents] at hpath
    | ok entries =>
      obtain ⟨entry, hent, hok⟩ : ∃ entry ∈ entries, Except.toOption entry = some path := by
        simpa [named, hglob, hents] using hpath
      obtain rfl : entry = .ok path := by
        cases entry with
        | error e => cases hok
        | ok => rw [Option.some.inj hok]
      have hlt : misses (entries.flatMap (fileItems tree p .glob)) <
          misses (entries.flatMap (entryItems tree p .glob)) := by
        rw [misses_flatMap, misses_flatMap]
        exact sum_lt_sum _ _ (fun _ _ => misses_entryItems_le) ⟨_, hent, misses_entryItems h⟩
      obtain ⟨first, rest, rfl⟩ := exists_cons_of_ne_nil (ne_nil_of_mem hent)
      simp only [if_true]
      split
      · exact Nat.zero_lt_of_lt hlt
      · exact hlt
  | false =>
    obtain rfl : path = os p.1 := by simpa [named, hglob] using hpath
    rw [h.1, h.2, tree.isDir_nil, itemOf_nil]
    change misses (if allowWalk then _ else _) < 1
    rw [Nat.lt_one_iff]
    split
    · exact misses_walk h
    · rfl

theorem misses_expected_le :
    misses (expected tree allowWalk p) ≤ misses (contribution tree allowWalk p) := by
  by_cases h : ∀ path ∈ named tree p, ¬NamesCurrentDir tree path
  · rw [expected_eq h, reported, report, misses, countP_append]
    split_ifs <;> simp [misses, isEmptyPath]
  · simp only [not_forall, not_not] at h
    obtain ⟨path, hpath, h⟩ := h
    exact (misses_expected_lt hpath h).le

theorem results_eq_expected_iff : results tree allowWalk ps =
    ps.flatMap (expected tree allowWalk) ↔
      (∀ p ∈ ps, ∀ path ∈ named tree p, ¬NamesCurrentDir tree path) ∧
        ps.Pairwise fun p q => DirsOnlyGlob tree p → EmptyDir tree allowWalk q := by
  have hexp : (∀ p ∈ ps, ∀ path ∈ named tree p, ¬NamesCurrentDir tree path) →
      ps.flatMap (expected tree allowWalk) = ps.flatMap (reported tree allowWalk) :=
    fun h => flatMap_congr fun p hp => expected_eq (h p hp)
  refine ⟨fun heq => ?_, fun ⟨hcur, hpairs⟩ => ?_⟩
  · have hcur : ∀ p ∈ ps, ∀ path ∈ named tree p, ¬NamesCurrentDir tree path := by
      intro p hp path hpath h
      have hsum := congrArg misses heq
      rw [misses_results, misses_flatMap, misses_flatMap] at hsum
      refine absurd hsum (sum_lt_sum _ _ (fun p _ => misses_expected_le) ?_).ne'
      exact ⟨p, hp, misses_expected_lt hpath h⟩
    rw [hexp hcur, results_eq_reported_iff] at heq
    exact ⟨hcur, heq⟩
  · rw [hexp hcur, results_eq_reported_iff]
    exact hpairs

end Silence

namespace Sample

/-- The file `a`, and the directory `d` with a file and an empty directory in it. -/
def tree : FileTree Unit :=
  .ofNames [[], [os "d"], [os "d", os "e"]] [[os "a"], [os "d", os "f"]]
    (fun pattern => .ok (if pattern = "d/e*" then [.ok (os "d/e")] else [])) (by decide) (by decide)

end Sample

end Tauri.Resources
