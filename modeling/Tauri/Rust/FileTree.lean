import Tauri.Rust.Parts

/-!
# What is asked of a file tree

A program that only looks for files asks a file tree whether a path is a directory, whether it
exists, what lies below a directory, and what a glob pattern matches. The answers of `std::fs`, of
`walkdir` and of `glob` are taken as they come, in any order and with any errors among them, but
finitely many; the tree does not change while it is asked.

The laws are those that hold of every tree. A directory may be written with `.` in its path, with
repeated separators and with a separator at its end. The empty path names nothing, although the path
`.` that it is left of does. What exists and has no file name ends with `..` or is the root, and is a
directory.
-/

namespace Rust

open PathBuf

/-- Two texts that differ in `.` and in repeated separators, but are not empty without them. -/
def SameFile (p q : List OsChar) : Prop :=
  isAbsolute p = isAbsolute q ∧ parts p = parts q ∧ (isAbsolute p = true ∨ parts p ≠ [])

/-- A file tree, seen from a current directory. -/
structure FileTree (E : Type) where
  /-- `Path::is_dir`. -/
  isDir : List OsChar → Bool
  /-- `Path::exists`. -/
  pathExists : List OsChar → Bool
  /-- What `WalkDir` finds in a directory, by its names: the directory itself is one of them. -/
  below : List OsChar → List (Except E (List (List OsChar)))
  /-- `glob::glob`, with what its iterator gives. -/
  glob : String → Except E (List (Except E (List OsChar)))
  isDir_nil : isDir [] = false
  pathExists_nil : pathExists [] = false
  isDir_congr : ∀ {p q}, SameFile p q → isDir p = isDir q
  below_congr : ∀ {p q}, SameFile p q → below p = below q
  isName_of_mem_below : ∀ {p names}, .ok names ∈ below p → ∀ n ∈ names, IsName n
  isDir_of_fileName : ∀ {p}, pathExists p = true → fileName p = none → isDir p = true

/-- `WalkDir::new(p).into_iter()`, by the paths of the entries. -/
def FileTree.walk {E : Type} (tree : FileTree E) (p : List OsChar) :
    List (Except E (List OsChar)) :=
  (tree.below p).map fun entry => entry.map fun names => names.foldl push p

/-- The tree of some directories and files below the current directory, by their names. -/
def FileTree.ofNames {E : Type} (dirs files : List (List (List OsChar)))
    (glob : String → Except E (List (Except E (List OsChar))))
    (hnames : ∀ f ∈ dirs ++ files, ∀ n ∈ f, IsName n) (hfiles : [] ∉ files) : FileTree E where
  isDir p := !p.isEmpty && !isAbsolute p && dirs.contains (parts p)
  pathExists p := !p.isEmpty && !isAbsolute p && (dirs ++ files).contains (parts p)
  below p := if isAbsolute p then [] else
    (dirs ++ files).filterMap fun f => (f.dropPrefix? (parts p)).map .ok
  glob := glob
  isDir_nil := rfl
  pathExists_nil := rfl
  isDir_congr := by
    rintro p q ⟨habsolute, hparts, hp⟩
    have hne : ∀ r : List OsChar, isAbsolute r = true ∨ parts r ≠ [] → r.isEmpty = false := by
      rintro (_ | ⟨c, r⟩) hr
      · simp [isAbsolute] at hr
      · rfl
    rw [hne p hp, hne q (habsolute ▸ hparts ▸ hp), habsolute, hparts]
  below_congr := by
    rintro p q ⟨habsolute, hparts, -⟩
    rw [habsolute, hparts]
  isName_of_mem_below := by
    intro p names h n hn
    split at h
    · cases h
    · obtain ⟨f, hf, hdrop⟩ := List.mem_filterMap.mp h
      obtain ⟨_, hdrop, ⟨⟩⟩ := Option.map_eq_some_iff.mp hdrop
      obtain ⟨front, rfl, -⟩ := List.dropPrefix?_eq_some_iff.mp hdrop
      exact hnames _ hf n (List.mem_append_right _ hn)
  isDir_of_fileName := by
    intro p hexists hname
    simp only [Bool.and_eq_true, List.contains_iff_mem, List.mem_append] at hexists ⊢
    refine ⟨hexists.1, hexists.2.resolve_right fun hfile => ?_⟩
    obtain hnil | ⟨init, n, hparts⟩ := List.eq_nil_or_concat' (parts p)
    · exact hfiles (hnil ▸ hfile)
    · have hn := hnames _ (List.mem_append_right _ hfile) n (by simp [hparts])
      rw [fileName_of_parts hparts hn] at hname
      cases hname

end Rust
