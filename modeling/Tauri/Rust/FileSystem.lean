import Tauri.Rust.Path

/-!
# A file system with symbolic links

A `FileSystem` says what there is at each **location**, the list of names that leads to it from the
root through real directories. Resolving a path (`walk`) goes from a directory through the
components of the path; where it meets a symbolic link it goes on with the target of the link,
from the directory of the link, and after that with the components that are left. The number of
links that may be followed is bounded. A path leads to something (`found`), or to a place in an
existing directory where there is nothing yet (`missing`), or nowhere.
-/

namespace Rust

open List

/-- The names from the root to a place in the file system. -/
abbrev Location := List Name

inductive Node where
  | file
  | dir
  | symlink (target : Path)
  deriving DecidableEq

/-- A file system, with the greatest number of links that are followed for one path. -/
structure FileSystem where
  node : Location → Option Node
  root : node [] = some .dir
  maxLinks : Nat

/-- Where a path leads. -/
inductive Resolved where
  | found (loc : Location)
  | missing (loc : Location)
  deriving DecidableEq

namespace Resolved

def location : Resolved → Location
  | found loc => loc
  | missing loc => loc

end Resolved

namespace Path

/-- The directory that resolving a path starts from, in the directory `loc`. -/
def base (p : Path) (loc : Location) : Location :=
  match p.anchor with
  | .rootDir => []
  | _ => loc

/-- The absolute path of a location. -/
def ofLocation (loc : Location) : Path := ⟨.rootDir, loc.map .normal⟩

end Path

namespace FileSystem

/-- Goes through components up to a link that is to be followed. A link at the end is not, unless
`follow` says so. -/
def walkTo (fs : FileSystem) (follow : Bool)
    (next : Location → Path → List Component → Option Resolved) :
    List Component → Location → Option Resolved
  | [], loc => some (.found loc)
  | .parentDir :: cs, loc => fs.walkTo follow next cs loc.dropLast
  | .normal n :: cs, loc =>
    match fs.node (loc ++ [n]) with
    | none => if cs = [] then some (.missing (loc ++ [n])) else none
    | some .file => if cs = [] then some (.found (loc ++ [n])) else none
    | some .dir => fs.walkTo follow next cs (loc ++ [n])
    | some (.symlink target) =>
      if cs = [] ∧ follow = false then some (.found (loc ++ [n])) else next loc target cs

/-- Resolves components from a directory, following at most `links` links. -/
def walk (fs : FileSystem) (follow : Bool) :
    Nat → List Component → Location → Option Resolved
  | 0 => fs.walkTo follow fun _ _ _ => none
  | links + 1 => fs.walkTo follow fun loc target cs =>
    if target = .empty then none
    else fs.walk follow links (target.components ++ cs) (target.base loc)

/-- Resolves a path in the current directory. -/
def resolve (fs : FileSystem) (follow : Bool) (cwd : Location) (p : Path) : Option Resolved :=
  if p = .empty then none else fs.walk follow fs.maxLinks p.components (p.base cwd)

/-- Resolves a path that may have a separator after its last component (`slash`), which the
components do not show: a link there is followed, and has to lead to no file. -/
def lookup (fs : FileSystem) (follow : Bool) (cwd : Location) (p : Path) (slash : Bool) :
    Option Resolved :=
  match fs.resolve (follow || slash) cwd p with
  | some (.found loc) => if slash = true ∧ fs.node loc = some .file then none else some (.found loc)
  | r => r

/-- `Path::is_symlink` and `read_link`: the target of a symbolic link. -/
def readLink (fs : FileSystem) (cwd : Location) (p : Path) (slash : Bool) : Option Path :=
  match fs.lookup false cwd p slash with
  | some (.found loc) =>
    match fs.node loc with
    | some (.symlink target) => some target
    | _ => none
  | _ => none

/-- `canonicalize`. -/
def canonicalize (fs : FileSystem) (cwd : Location) (p : Path) (slash : Bool) : Option Path :=
  match fs.lookup true cwd p slash with
  | some (.found loc) => some (.ofLocation loc)
  | _ => none

/-- `Path::exists`. -/
def pathExists (fs : FileSystem) (cwd : Location) (p : Path) (slash : Bool) : Bool :=
  match fs.lookup true cwd p slash with
  | some (.found _) => true
  | _ => false

/-- The location that is accessed when the path is opened, or created if there is nothing. -/
def access (fs : FileSystem) (cwd : Location) (p : Path) (slash : Bool) : Option Location :=
  (fs.lookup true cwd p slash).map Resolved.location

/-- A real directory: so are all locations on the way to it. -/
def IsDir (fs : FileSystem) (loc : Location) : Prop :=
  ∀ loc', loc' <+: loc → fs.node loc' = some .dir

/-- A location with a directory or a file, reached through real directories. -/
def Canonical (fs : FileSystem) (loc : Location) : Prop :=
  (∀ loc', loc' <+: loc → loc' ≠ loc → fs.node loc' = some .dir) ∧
    (fs.node loc = some .dir ∨ fs.node loc = some .file)

variable {fs : FileSystem} {follow : Bool} {cs ds : List Component} {loc loc' : Location}
  {r : Resolved} {m n : Nat}

/-! ### Walks -/

/-- The walks that follow all links, case by case. -/
inductive Walks (fs : FileSystem) : Nat → List Component → Location → Resolved → Prop
  | nil (n : Nat) (loc : Location) : Walks fs n [] loc (.found loc)
  | parentDir {n : Nat} {cs : List Component} {loc : Location} {r : Resolved}
      (h : Walks fs n cs loc.dropLast r) : Walks fs n (.parentDir :: cs) loc r
  | missing (n : Nat) {nm : Name} {loc : Location} (hnode : fs.node (loc ++ [nm]) = none) :
      Walks fs n [.normal nm] loc (.missing (loc ++ [nm]))
  | file (n : Nat) {nm : Name} {loc : Location} (hnode : fs.node (loc ++ [nm]) = some .file) :
      Walks fs n [.normal nm] loc (.found (loc ++ [nm]))
  | dir {n : Nat} {nm : Name} {cs : List Component} {loc : Location} {r : Resolved}
      (hnode : fs.node (loc ++ [nm]) = some .dir) (h : Walks fs n cs (loc ++ [nm]) r) :
      Walks fs n (.normal nm :: cs) loc r
  | symlink {n : Nat} {nm : Name} {cs : List Component} {loc : Location} {r : Resolved}
      {target : Path} (hnode : fs.node (loc ++ [nm]) = some (.symlink target))
      (htarget : target ≠ .empty)
      (h : Walks fs n (target.components ++ cs) (target.base loc) r) :
      Walks fs (n + 1) (.normal nm :: cs) loc r

private theorem walks_of_walkTo {next : Location → Path → List Component → Option Resolved}
    (hnext : ∀ {nm cs loc r target}, fs.node (loc ++ [nm]) = some (.symlink target) →
      next loc target cs = some r → Walks fs n (.normal nm :: cs) loc r)
    (h : fs.walkTo true next cs loc = some r) : Walks fs n cs loc r := by
  induction cs generalizing loc with
  | nil =>
    cases h
    exact .nil _ _
  | cons c cs ih =>
    cases c with
    | parentDir => exact .parentDir (ih h)
    | normal nm =>
      rw [walkTo] at h
      split at h
      next hnode =>
        split_ifs at h with hcs
        subst hcs
        cases h
        exact .missing n hnode
      next hnode =>
        split_ifs at h with hcs
        subst hcs
        cases h
        exact .file n hnode
      next hnode => exact .dir hnode (ih h)
      next target hnode => exact hnext hnode (by simpa using h)

theorem walk_eq_some : fs.walk true n cs loc = some r ↔ Walks fs n cs loc r := by
  constructor
  · intro h
    induction n generalizing cs loc r with
    | zero => exact walks_of_walkTo (fun _ hnone => by cases hnone) h
    | succ n ih =>
      refine walks_of_walkTo (fun {nm cs loc r target} hnode hnext => ?_) h
      split_ifs at hnext with htarget
      exact .symlink hnode htarget (ih hnext)
  · intro h
    induction h with
    | nil n loc => cases n <;> rfl
    | @parentDir n cs loc r h ih => cases n <;> exact ih
    | missing n hnode | file n hnode => cases n <;> simp [walk, walkTo, hnode]
    | @dir n nm cs loc r hnode h ih =>
      have hstep : fs.walk true n (.normal nm :: cs) loc = fs.walk true n cs (loc ++ [nm]) := by
        cases n <;> simp [walk, walkTo, hnode]
      rw [hstep, ih]
    | symlink hnode htarget h ih => simp [walk, walkTo, hnode, htarget, ih]

namespace Walks

theorem mono (h : Walks fs n cs loc r) (hle : n ≤ m) : Walks fs m cs loc r := by
  induction h generalizing m with
  | nil n loc => exact .nil m loc
  | parentDir _ ih => exact .parentDir (ih hle)
  | missing n hnode => exact .missing m hnode
  | file n hnode => exact .file m hnode
  | dir hnode _ ih => exact .dir hnode (ih hle)
  | symlink hnode htarget _ ih =>
    obtain ⟨m, rfl⟩ : ∃ m', m = m' + 1 := ⟨m - 1, by omega⟩
    exact .symlink hnode htarget (ih (by omega))

theorem unique {r' : Resolved} (h : Walks fs m cs loc r) (h' : Walks fs n cs loc r') : r = r' := by
  have hm := walk_eq_some.mpr (h.mono (Nat.le_max_left m n))
  have hn := walk_eq_some.mpr (h'.mono (Nat.le_max_right m n))
  exact Option.some.inj (hm.symm.trans hn)

theorem append (h : Walks fs m cs loc (.found loc')) (hdir : fs.node loc' = some .dir)
    (h' : Walks fs n ds loc' r) : Walks fs (m + n) (cs ++ ds) loc r := by
  generalize hfound : Resolved.found loc' = r₀ at h
  induction h with
  | nil m loc =>
    cases hfound
    exact h'.mono (Nat.le_add_left n m)
  | parentDir _ ih => exact .parentDir (ih hfound)
  | missing => cases hfound
  | file => simp_all
  | dir hnode _ ih => exact .dir hnode (ih hfound)
  | @symlink _ _ _ _ _ _ hnode htarget _ ih =>
    have hrest := ih hfound
    rw [append_assoc] at hrest
    rw [Nat.add_right_comm]
    exact .symlink hnode htarget hrest

end Walks

/-! ### Locations -/

theorem isDir_nil (fs : FileSystem) : fs.IsDir [] := by
  intro loc' h
  rw [prefix_nil.mp h]
  exact fs.root

theorem IsDir.dropLast (h : fs.IsDir loc) : fs.IsDir loc.dropLast :=
  fun loc' hloc' => h loc' (hloc'.trans (List.dropLast_prefix loc))

theorem IsDir.snoc {nm : Name} (h : fs.IsDir loc) (hnode : fs.node (loc ++ [nm]) = some .dir) :
    fs.IsDir (loc ++ [nm]) := by
  intro loc' hloc'
  rcases prefix_concat_iff.mp hloc' with rfl | hloc'
  · exact hnode
  · exact h loc' hloc'

theorem IsDir.base (h : fs.IsDir loc) (p : Path) : fs.IsDir (p.base loc) := by
  rw [Path.base]
  split
  · exact isDir_nil fs
  · exact h

theorem IsDir.canonical (h : fs.IsDir loc) : fs.Canonical loc :=
  ⟨fun loc' hloc' _ => h loc' hloc', .inl (h loc prefix_rfl)⟩

theorem Walks.canonical (hloc : fs.IsDir loc) (h : Walks fs n cs loc (.found loc')) :
    fs.Canonical loc' := by
  generalize hfound : Resolved.found loc' = r at h
  induction h with
  | nil =>
    cases hfound
    exact hloc.canonical
  | parentDir _ ih => exact ih hloc.dropLast hfound
  | missing => cases hfound
  | @file n nm loc hnode =>
    cases hfound
    refine ⟨fun loc' hloc' hne => ?_, .inr hnode⟩
    exact hloc loc' ((prefix_concat_iff.mp hloc').resolve_left hne)
  | dir hnode _ ih => exact ih (hloc.snoc hnode) hfound
  | symlink _ _ _ ih => exact ih (hloc.base _) hfound

variable {names : List Name}

theorem walk_names (h : fs.Canonical (loc ++ names)) :
    fs.walk follow n (names.map .normal) loc = some (.found (loc ++ names)) := by
  induction names generalizing loc with
  | nil =>
    rw [append_nil]
    cases n <;> rfl
  | cons nm names ih =>
    have hassoc : loc ++ nm :: names = (loc ++ [nm]) ++ names := by simp
    rw [hassoc] at h ⊢
    have hdir : fs.node (loc ++ [nm]) = some .dir →
        fs.walk follow n ((nm :: names).map .normal) loc =
          fs.walk follow n (names.map .normal) (loc ++ [nm]) := by
      intro hnode
      cases n <;> simp [walk, walkTo, hnode]
    cases names with
    | nil =>
      rw [append_nil] at h ⊢
      rcases h.2 with hnode | hnode
      · rw [hdir hnode]
        cases n <;> rfl
      · cases n <;> simp [walk, walkTo, hnode]
    | cons => rw [hdir (h.1 _ (prefix_append _ _) (by simp)), ih h]

theorem walks_names (h : fs.Canonical (loc ++ names)) (n : Nat) :
    Walks fs n (names.map .normal) loc (.found (loc ++ names)) :=
  walk_eq_some.mp (walk_names h)

theorem Canonical.of_isPrefix (h : fs.Canonical loc') (hloc : loc <+: loc') : fs.Canonical loc := by
  by_cases heq : loc = loc'
  · exact heq ▸ h
  · refine ⟨fun loc'' hloc'' hne => ?_, .inl (h.1 loc hloc heq)⟩
    refine h.1 loc'' (hloc''.trans hloc) ?_
    rintro rfl
    exact hne (hloc''.eq_of_length_le hloc.length_le)

/-- A walk along names through real directories, and on, goes on from where they lead, which is a
directory. -/
theorem Walks.of_names (h : Walks fs n (names.map .normal ++ ds) loc r)
    (hnames : fs.Canonical (loc ++ names)) (hloc : fs.node loc = some .dir) (hds : ds ≠ []) :
    fs.node (loc ++ names) = some .dir ∧ Walks fs n ds (loc ++ names) r := by
  induction names generalizing loc with
  | nil =>
    rw [append_nil]
    exact ⟨hloc, h⟩
  | cons nm names ih =>
    have hassoc : loc ++ nm :: names = (loc ++ [nm]) ++ names := by simp
    rw [hassoc] at hnames ⊢
    have hne : names.map .normal ++ ds ≠ [] := by simp [hds]
    rw [map_cons, cons_append] at h
    generalize hrest : names.map Component.normal ++ ds = rest at h hne
    cases h with
    | missing | file => exact absurd rfl hne
    | dir hnode h =>
      rw [← hrest] at h
      exact ih h hnames hnode
    | symlink hnode _ _ =>
      have hnode' := (hnames.of_isPrefix (prefix_append (loc ++ [nm]) names)).2
      simp [hnode] at hnode'

/-! ### Resolving a path -/

variable {cwd : Location} {p target : Path} {slash : Bool}

theorem resolve_eq_some :
    fs.resolve true cwd p = some r ↔
      p ≠ .empty ∧ Walks fs fs.maxLinks p.components (p.base cwd) r := by
  rw [resolve, ← walk_eq_some]
  split_ifs with hp <;> simp [hp]

@[simp] theorem lookup_false (fs : FileSystem) (follow : Bool) (cwd : Location) (p : Path) :
    fs.lookup follow cwd p false = fs.resolve follow cwd p := by
  rw [lookup, Bool.or_false]
  split
  next loc hloc => simp [hloc]
  · rfl

theorem resolve_of_lookup (h : fs.lookup follow cwd p slash = some r) :
    fs.resolve (follow || slash) cwd p = some r := by
  rw [lookup] at h
  split at h
  next loc hloc =>
    split_ifs at h
    rw [hloc, ← h]
  · exact h

theorem canonical_of_lookup (hcwd : fs.IsDir cwd)
    (h : fs.lookup true cwd p slash = some (.found loc)) : fs.Canonical loc := by
  have hwalks := (resolve_eq_some.mp (resolve_of_lookup h)).2
  exact hwalks.canonical (hcwd.base p)

theorem canonicalize_eq_some {q : Path} :
    fs.canonicalize cwd p slash = some q ↔
      ∃ loc, fs.lookup true cwd p slash = some (.found loc) ∧ q = .ofLocation loc := by
  rw [canonicalize]
  rcases fs.lookup true cwd p slash with _ | loc | loc
  · simp
  · simp [eq_comm]
  · simp

theorem pathExists_eq_true :
    fs.pathExists cwd p slash = true ↔ ∃ loc, fs.lookup true cwd p slash = some (.found loc) := by
  rw [pathExists]
  rcases fs.lookup true cwd p slash with _ | loc | loc <;> simp

theorem resolve_ofLocation (h : fs.Canonical loc) (cwd : Location) :
    fs.resolve follow cwd (.ofLocation loc) = some (.found loc) := by
  have hne : Path.ofLocation loc ≠ .empty := by simp [Path.ofLocation, Path.empty]
  rw [resolve, if_neg hne]
  exact walk_names h

theorem lookup_ofLocation (h : fs.Canonical loc) (follow : Bool) (cwd : Location) (slash : Bool) :
    fs.lookup follow cwd (.ofLocation loc) slash = some (.found loc) ∨
      fs.lookup follow cwd (.ofLocation loc) slash = none := by
  rw [lookup, resolve_ofLocation h]
  exact (ite_eq_or_eq _ none (some (Resolved.found loc))).symm

theorem readLink_ofLocation (h : fs.Canonical loc) (cwd : Location) (slash : Bool) :
    fs.readLink cwd (.ofLocation loc) slash = none := by
  rw [readLink]
  rcases lookup_ofLocation h false cwd slash with hlookup | hlookup
  · rw [hlookup]
    rcases h.2 with hnode | hnode <;> simp only [hnode]
  · rw [hlookup]

end FileSystem

end Rust
