import Tauri.Bundle.Resources

/-!
# Resources in an MSI

`generate_resource_data` of the MSI bundler builds a tree of directories. A resource is put into the
directory of its target, which a cursor looks for by the texts of the paths below the first
directory, and adds where it is missing. Files at the root are kept under the empty name, which the
libraries of the output directory are put under in the end.

The tree is built right: every resource that is put into it is in its directory once, and no
directory is there twice (`Holds`). What is wrong is what is put into it (`complete_iff`):

* of a file with several **targets** only the first one;
* a **library** unless the path of any resource ends with its name, wherever that one is put;
* and where a library is put, it **replaces** the files at the root.

Directories whose names are no Unicode are renamed or not handled at all.
-/

namespace Tauri.Bundle.Msi

open Rust Rust.PathBuf Tauri.Resources
open List hiding beq_eq_decide

variable {E S : Type}

/-- `ResourceDirectory`, with the sources of its files. -/
inductive ResourceDirectory (S : Type) where
  | mk (path name : List Char) (files : List S) (directories : List (ResourceDirectory S))

namespace ResourceDirectory

def path : ResourceDirectory S → List Char
  | mk path _ _ _ => path

def name : ResourceDirectory S → List Char
  | mk _ name _ _ => name

def files : ResourceDirectory S → List S
  | mk _ _ files _ => files

def directories : ResourceDirectory S → List (ResourceDirectory S)
  | mk _ _ _ directories => directories

end ResourceDirectory

/-- `iter().position(p)` and `get_mut` at this position. -/
def updateFirst {α : Type} (p : α → Bool) (f : α → α) : List α → Option (List α)
  | [] => none
  | a :: as => if p a then some (f a :: as) else (updateFirst p f as).map (a :: ·)

/-- The loop over the directories of a target behind the first, and `add_file`. The cursor is the
directory that the loop has come to, and `path` is the text that it has put together. -/
def addFile (file : S) : List (List Char) → List Char → ResourceDirectory S → ResourceDirectory S
  | [], _, d => ⟨d.path, d.name, d.files ++ [file], d.directories⟩
  | name :: names, path, d =>
    let path := path ++ name ++ ['\\']
    ⟨d.path, d.name, d.files,
      (updateFirst (fun f => f.path = path) (addFile file names path) d.directories).getD
        (d.directories ++ [addFile file names path ⟨path, name, [], []⟩])⟩

/-- `ResourceMap`, by its lookups. -/
abbrev ResourceMap (S : Type) := List Char → Option (ResourceDirectory S)

/-- The names of the directories of a target. -/
def directoriesOf (target : List OsChar) : List (List OsChar) :=
  (components target).dropLast.map Component.asOsStr

/-- `into_string().expect(..)`. -/
def directoryName (directory : List OsChar) : Outcome (Error E) (List Char) :=
  match toStr directory with
  | none => .panic "failed to read resource folder name"
  | some name => .ok name

/-- The body of the loop of `generate_resource_data`. -/
def insertFile (source : List OsChar → S) (resources : ResourceMap S) (resource : Resource) :
    Outcome (Error E) (ResourceMap S) :=
  if (components resource.target).length = 0 then .panic "attempt to subtract with overflow"
  else do
    let directories := directoriesOf resource.target
    let first := (directories.head?.map toStringLossy).getD []
    let names ← directories.tail.mapM directoryName
    let entry := (resources first).getD ⟨first, first, [], []⟩
    return fun key =>
      if key = first then some (addFile (source resource.path) names [] entry) else resources key

/-- The libraries of the output directory, by their sources and names, and `Path::ends_with`. -/
structure OutDir (S : Type) where
  endsWith : S → List Char → Bool
  dlls : List (S × List Char)
  nodup : (dlls.map Prod.fst).Nodup
  endsWith_name : ∀ dll ∈ dlls, endsWith dll.1 dll.2 = true

/-- Libraries replace what is at the root. -/
def insertDlls (resources : ResourceMap S) (dlls : List (S × List Char)) : ResourceMap S :=
  fun key =>
    if dlls ≠ [] ∧ key = [] then some ⟨[], [], dlls.map Prod.fst, []⟩ else resources key

/-- `generate_resource_data` of the MSI bundler. -/
def generateResourceData [DecidableEq S] (source : List OsChar → S) (out : OutDir S)
    (items : List (Item E)) : Outcome (Error E) (ResourceMap S) := do
  let (addedResources, resources) ← forNew source (insertFile source) (fun _ => none) items
  return insertDlls resources
    (out.dlls.filter fun dll => !addedResources.any fun r => out.endsWith r dll.2)

/-! ### The tree of directories -/

/-- The directories at a path below a directory. -/
def below : List (List Char) → ResourceDirectory S → List (ResourceDirectory S)
  | [], d => [d]
  | name :: names, d => (d.directories.filter fun c => c.name = name).flatMap (below names)

def filesBelow (names : List (List Char)) (d : ResourceDirectory S) : List S :=
  (below names d).flatMap fun c => c.files

/-- The directories at a path. The entry with the empty name stands for the root. -/
def directoriesAt (resources : ResourceMap S) (names : List (List Char)) :
    List (ResourceDirectory S) :=
  (resources []).toList.flatMap (below names) ++
    match names with
    | [] => []
    | name :: names => if name = [] then [] else (resources name).toList.flatMap (below names)

/-- The files in a directory. -/
def filesAt (resources : ResourceMap S) (names : List (List Char)) : List S :=
  (directoriesAt resources names).flatMap fun d => d.files

/-- The directories have different names, and their paths are what the cursor looks for. -/
inductive Tidy : List Char → ResourceDirectory S → Prop
  | mk {path : List Char} {d : ResourceDirectory S}
      (names : (d.directories.map fun c => c.name).Nodup)
      (paths : ∀ c ∈ d.directories, c.path = path ++ c.name ++ ['\\'])
      (tidy : ∀ c ∈ d.directories, Tidy c.path c) : Tidy path d

section Tree

variable {path n : List Char} {d : ResourceDirectory S} {names ns : List (List Char)} {file s : S}

theorem updateFirst_eq_some {α : Type} {p : α → Bool} {f : α → α} {l l' : List α}
    (h : updateFirst p f l = some l') :
    ∃ front a back, l = front ++ a :: back ∧ p a = true ∧ l' = front ++ f a :: back := by
  induction l generalizing l' with
  | nil => cases h
  | cons a l ih =>
    rw [updateFirst] at h
    split_ifs at h with ha
    · exact ⟨[], a, l, rfl, ha, (Option.some.inj h).symm⟩
    · obtain ⟨l₀, hl₀, rfl⟩ := Option.map_eq_some_iff.mp h
      obtain ⟨front, b, back, rfl, hb, rfl⟩ := ih hl₀
      exact ⟨a :: front, b, back, rfl, hb, rfl⟩

theorem updateFirst_eq_none {α : Type} {p : α → Bool} {f : α → α} {l : List α}
    (h : updateFirst p f l = none) : ∀ a ∈ l, p a = false := by
  induction l with
  | nil => simp
  | cons a l ih =>
    rw [updateFirst] at h
    split_ifs at h with ha
    exact forall_mem_cons.mpr ⟨by simpa using ha, ih (Option.map_eq_none_iff.mp h)⟩

@[simp] theorem name_addFile : (addFile file names path d).name = d.name := by cases names <;> rfl

@[simp] theorem path_addFile : (addFile file names path d).path = d.path := by cases names <;> rfl

theorem filesBelow_cons : filesBelow (n :: ns) d =
    (d.directories.filter fun c => c.name = n).flatMap (filesBelow ns) := by
  rw [filesBelow, below, flatMap_assoc]
  rfl

theorem filesBelow_of_directories (h : d.directories = []) (hfiles : d.files = []) :
    filesBelow ns d = [] := by
  cases ns with
  | nil => simp [filesBelow, below, hfiles]
  | cons => simp [filesBelow_cons, h]

theorem tidy_of_directories (h : d.directories = []) : Tidy path d :=
  ⟨by simp [h], by simp [h], by simp [h]⟩

theorem directories_addFile (h : Tidy path d) : ∃ front c back,
    (addFile file (n :: names) path d).directories =
      front ++ addFile file names (path ++ n ++ ['\\']) c :: back ∧
    c.name = n ∧ c.path = path ++ n ++ ['\\'] ∧ Tidy c.path c ∧
    (d.directories = front ++ c :: back ∨
      d.directories = front ∧ back = [] ∧ c.directories = [] ∧ c.files = [] ∧
        n ∉ front.map fun c => c.name) := by
  obtain ⟨-, hpaths, htidy⟩ := h
  cases hupd : updateFirst (fun f : ResourceDirectory S => f.path = path ++ n ++ ['\\'])
      (addFile file names (path ++ n ++ ['\\'])) d.directories with
  | some l =>
    obtain ⟨front, c, back, hd, hc, rfl⟩ := updateFirst_eq_some hupd
    have hmem : c ∈ d.directories := by simp [hd]
    have hpath : c.path = path ++ n ++ ['\\'] := by simpa using hc
    have hname : c.name = n := by simp_all
    exact ⟨front, c, back, congrArg (fun l => Option.getD l _) hupd, hname, hpath,
      htidy c hmem, .inl hd⟩
  | none =>
    refine ⟨d.directories, ⟨path ++ n ++ ['\\'], n, [], []⟩, [],
      congrArg (fun l => Option.getD l _) hupd, rfl, rfl, tidy_of_directories rfl,
      .inr ⟨rfl, rfl, rfl, rfl, fun hmem => ?_⟩⟩
    obtain ⟨c, hc, rfl⟩ := mem_map.mp hmem
    simpa [hpaths c hc] using updateFirst_eq_none hupd c hc

theorem tidy_addFile (h : Tidy path d) : Tidy path (addFile file names path d) := by
  induction names generalizing path d with
  | nil =>
    obtain ⟨hnames, hpaths, htidy⟩ := h
    exact ⟨hnames, hpaths, htidy⟩
  | cons n names ih =>
    obtain ⟨front, c, back, hdirs, hname, hpath, hc, hd⟩ :=
      @directories_addFile S path n d names file h
    obtain ⟨hnames, hpaths, htidy⟩ := h
    have hnew := @ih c.path c hc
    rw [hpath] at hnew
    have hother : ∀ x, x ∈ front ∨ x ∈ back → x ∈ d.directories := by
      rcases hd with hd | ⟨hd, rfl, -⟩ <;> simp +contextual [hd, or_imp]
    refine ⟨?_, fun x hx => ?_, fun x hx => ?_⟩
    · rw [hdirs]
      rcases hd with hd | ⟨hd, rfl, -, -, hfresh⟩
      · simpa [hd] using hnames
      · rw [hd] at hnames
        simpa [hname, nodup_append, hnames] using hfresh
    · rw [hdirs, mem_append, mem_cons] at hx
      rcases hx with hx | rfl | hx
      · exact hpaths x (hother x (.inl hx))
      · rw [path_addFile, name_addFile, hpath, hname]
      · exact hpaths x (hother x (.inr hx))
    · rw [hdirs, mem_append, mem_cons] at hx
      rcases hx with hx | rfl | hx
      · exact htidy x (hother x (.inl hx))
      · rw [path_addFile, hpath]
        exact hnew
      · exact htidy x (hother x (.inr hx))

theorem count_insert [DecidableEq S] {k : List Char} (front back : List (ResourceDirectory S))
    (c : ResourceDirectory S) :
    (((front ++ c :: back).filter fun c => c.name = k).flatMap (filesBelow ns)).count s =
      (((front ++ back).filter fun c => c.name = k).flatMap (filesBelow ns)).count s +
        if c.name = k then (filesBelow ns c).count s else 0 := by
  by_cases h : c.name = k
  · simp [h]
    omega
  · simp [h]

open ResourceDirectory

theorem count_filesBelow [DecidableEq S] (h : Tidy path d) :
    (filesBelow ns (addFile file names path d)).count s =
      (filesBelow ns d).count s + if ns = names ∧ file = s then 1 else 0 := by
  induction names generalizing path d ns with
  | nil =>
    cases ns with
    | nil => simp [filesBelow, below, addFile, files, count_singleton]
    | cons => simp [filesBelow_cons, addFile, directories]
  | cons n names ih =>
    obtain ⟨front, c, back, hdirs, hname, hpath, hc, hd⟩ :=
      @directories_addFile S path n d names file h
    cases ns with
    | nil => simp [filesBelow, below, addFile, files]
    | cons k ns =>
      have hnew := @ih c.path c ns hc
      rw [hpath] at hnew
      rw [filesBelow_cons, filesBelow_cons, hdirs, count_insert, name_addFile, hname, hnew]
      rcases hd with hd | ⟨hd, rfl, hcdirs, hcfiles, -⟩
      · rw [hd, count_insert, hname]
        by_cases hk : n = k <;> simp [hk, eq_comm, add_assoc]
      · rw [hd, filesBelow_of_directories hcdirs hcfiles, append_nil]
        by_cases hk : n = k <;> simp [hk, eq_comm]

theorem length_below_le (h : Tidy path d) : (below ns d).length ≤ 1 := by
  induction ns generalizing path d with
  | nil => rfl
  | cons n ns ih =>
    obtain ⟨hnames, -, htidy⟩ := h
    have hfilt : (d.directories.filter fun c => c.name = n).length ≤ 1 := by
      have hcnt := nodup_iff_count_le_one.mp hnames n
      rw [count, countP_map] at hcnt
      rw [← countP_eq_length_filter]
      simpa [Function.comp_def, beq_eq_decide] using hcnt
    rw [below]
    cases hd : d.directories.filter fun c => c.name = n with
    | nil => simp
    | cons c rest =>
      obtain rfl : rest = [] := by simpa [hd] using hfilt
      have hc : c ∈ d.directories := (mem_filter.mp (hd ▸ mem_singleton_self c)).1
      simpa using ih (htidy c hc)

end Tree

/-! ### The table of directories -/

/-- The entry for a first directory, a new one if there is none. -/
def entry (m : ResourceMap S) (key : List Char) : ResourceDirectory S :=
  (m key).getD ⟨key, key, [], []⟩

/-- The text of a name. -/
abbrev osNames (names : List (List Char)) : List (List OsChar) := names.map (List.map .char)

/-- The sources of the resources in a directory. -/
def sourcesIn (source : List OsChar → S) (rs : List Resource) (ds : List (List OsChar)) : List S :=
  (rs.filter fun r => directoriesOf r.target = ds).map fun r => source r.path

/-- The table has every resource in its directory once. -/
structure Holds [DecidableEq S] (source : List OsChar → S) (rs : List Resource)
    (m : ResourceMap S) : Prop where
  root : (entry m []).directories = []
  tidy : ∀ key, Tidy [] (entry m key)
  files : ∀ names, (filesAt m names).Perm (sourcesIn source rs (osNames names))

section Table

variable {source : List OsChar → S} {m : ResourceMap S} {names : List (List Char)} {r : Resource}
  {rs : List Resource}

theorem filesAt_eq (hroot : (entry m []).directories = []) : filesAt m names =
    if names.head? = some [] then [] else
      filesBelow names.tail (entry m (names.head?.getD [])) := by
  have hent : ∀ key ns, ((m key).toList.flatMap (below ns)).flatMap (fun d => d.files) =
      filesBelow ns (entry m key) := by
    intro key ns
    cases hkey : m key with
    | none =>
      rw [entry, hkey]
      exact (filesBelow_of_directories rfl rfl).symm
    | some d => simp [entry, hkey, filesBelow]
  cases names with
  | nil => simp [filesAt, directoriesAt, hent, entry]
  | cons n ns =>
    simp only [filesAt, directoriesAt, flatMap_append, hent, filesBelow_cons, hroot]
    by_cases hn : n = []
    · simp [hn]
    · simp [hn, hent]

theorem mapM_directoryName (names : List (List Char)) :
    (osNames names).mapM directoryName = (.ok names : Outcome (Error E) (List (List Char))) := by
  induction names with
  | nil => rfl
  | cons n names ih =>
    have hn : directoryName (n.map .char) = (.ok n : Outcome (Error E) (List Char)) := by
      rw [directoryName, toStr_eq_some.mpr rfl]
    rw [osNames, map_cons, mapM_cons, hn, Outcome.ok_bind, ih]
    rfl

theorem insertFile_eq (htarget : parts r.target ≠ [])
    (hnames : directoriesOf r.target = osNames names) : insertFile (E := E) source m r =
      .ok fun key => if key = names.head?.getD [] then
        some (addFile (source r.path) names.tail [] (entry m (names.head?.getD []))) else m key := by
  obtain ⟨c, hlast, -⟩ := exists_getLast?_components htarget
  have hlen : ¬(components r.target).length = 0 := by grind
  have hfirst : ((osNames names).head?.map toStringLossy).getD [] = names.head?.getD [] := by
    cases names <;> simp
  have htail : (osNames names).tail = osNames names.tail := by simp
  rw [insertFile, if_neg hlen]
  simp only [hnames, hfirst, htail, mapM_directoryName]
  rfl

theorem entry_ite {key : List Char} {d : ResourceDirectory S} (k : List Char) :
    entry (fun k => if k = key then some d else m k) k = if k = key then d else entry m k := by
  rw [entry]
  split_ifs <;> rfl

theorem ne_nil_of_mem_directoriesOf {target : List OsChar} :
    ∀ d ∈ directoriesOf target, d ≠ [] := by
  intro d hd
  obtain ⟨c, hc, rfl⟩ := mem_map.mp hd
  cases c with
  | rootDir | curDir | parentDir => exact cons_ne_nil _ _
  | normal n =>
    rcases mem_append.mp (mem_of_mem_dropLast hc) with hc | hc
    · split_ifs at hc <;> simp at hc
    · exact (isName_of_mem hc).ne_nil

theorem eq_iff_of_head? {ns : List (List Char)} (hnames : names.head? ≠ some [])
    (hns : ns.head? ≠ some []) : names = ns ↔
      ns.head?.getD [] = names.head?.getD [] ∧ ns.tail = names.tail := by
  cases names <;> cases ns <;> simp_all [eq_comm]

theorem entry_insertDlls (dlls : List (S × List Char)) (key : List Char) :
    entry (insertDlls m dlls) key =
      if dlls ≠ [] ∧ key = [] then ⟨[], [], dlls.map Prod.fst, []⟩ else entry m key := by
  rw [entry, insertDlls]
  split_ifs <;> rfl

variable [DecidableEq S]

theorem holds_empty : Holds source [] fun _ => none := by
  refine ⟨rfl, fun _ => tidy_of_directories rfl, fun names => ?_⟩
  cases names <;> simp [filesAt, directoriesAt, sourcesIn]

section

variable (h : Holds source rs m)
include h

theorem Holds.insertFile (htarget : parts r.target ≠ [])
    (hnames : directoriesOf r.target = osNames names) :
    ∃ m', insertFile (E := E) source m r = .ok m' ∧ Holds source (rs ++ [r]) m' := by
  have hne : names.head? ≠ some [] := by
    intro hhead
    have hmem : [] ∈ osNames names := mem_map.mpr ⟨[], mem_of_head? hhead, rfl⟩
    exact ne_nil_of_mem_directoriesOf [] (hnames ▸ hmem) rfl
  set m' : ResourceMap S := fun key => if key = names.head?.getD [] then
    some (addFile (source r.path) names.tail [] (entry m (names.head?.getD []))) else m key
  have hroot : (entry m' []).directories = [] := by
    rw [entry_ite]
    split_ifs with hfirst
    · cases names with
      | nil => exact h.root
      | cons => exact absurd (congrArg some hfirst.symm) hne
    · exact h.root
  refine ⟨m', insertFile_eq htarget hnames, hroot, fun key => ?_, fun ns => ?_⟩
  · rw [entry_ite]
    split_ifs with hfirst
    · exact tidy_addFile (h.tidy _)
    · exact h.tidy key
  · rw [perm_iff_count]
    intro s
    have hold := (h.files ns).count_eq s
    have hnew : (sourcesIn source (rs ++ [r]) (osNames ns)).count s =
        (sourcesIn source rs (osNames ns)).count s +
          if names = ns ∧ source r.path = s then 1 else 0 := by
      have hinj : Function.Injective osNames := map_injective_iff.mpr map_char_injective
      rw [sourcesIn, filter_append, map_append, count_append, ← sourcesIn]
      by_cases heq : names = ns <;> simp [hnames, hinj.eq_iff, heq, count_singleton]
    rw [filesAt_eq h.root] at hold
    rw [hnew, ← hold, filesAt_eq hroot]
    by_cases hns : ns.head? = some []
    · have hdiff : names ≠ ns := fun heq => hne (heq ▸ hns)
      simp [hns, hdiff]
    · rw [if_neg hns, if_neg hns, entry_ite]
      simp only [eq_iff_of_head? hne hns]
      by_cases hkey : ns.head?.getD [] = names.head?.getD []
      · rw [if_pos hkey, count_filesBelow (h.tidy _), hkey]
        simp
      · simp [hkey]

theorem Holds.run {rs' : List Resource}
    (hrs : ∀ r ∈ rs', parts r.target ≠ [] ∧ ∃ names, directoriesOf r.target = osNames names) :
    ∃ m', rs'.foldlM (Msi.insertFile (E := E) source) m = .ok m' ∧ Holds source (rs ++ rs') m' := by
  induction rs' generalizing rs m with
  | nil => exact ⟨m, rfl, by simpa using h⟩
  | cons r rs' ih =>
    obtain ⟨⟨htarget, names, hnames⟩, hrs⟩ := forall_mem_cons.mp hrs
    obtain ⟨m₁, hm₁, h₁⟩ := h.insertFile (E := E) htarget hnames
    obtain ⟨m', hm', h'⟩ := ih h₁ hrs
    refine ⟨m', ?_, by simpa using h'⟩
    rw [foldlM_cons, hm₁]
    exact hm'

variable (dlls)

theorem directories_insertDlls : (entry (insertDlls m dlls) []).directories = [] := by
  rw [entry_insertDlls]
  split_ifs
  · rfl
  · exact h.root

theorem filesAt_insertDlls :
    filesAt (insertDlls m dlls) names =
      if dlls ≠ [] ∧ names = [] then dlls.map Prod.fst else filesAt m names := by
  rw [filesAt_eq (directories_insertDlls h dlls), filesAt_eq h.root, entry_insertDlls]
  cases names with
  | nil => by_cases hdlls : dlls = [] <;> simp [hdlls, filesBelow, below, ResourceDirectory.files]
  | cons n ns => by_cases hn : n = [] <;> simp [hn]

theorem length_directoriesAt_le : (directoriesAt (insertDlls m dlls) names).length ≤ 1 := by
  have hroot := directories_insertDlls h dlls
  have htidy : ∀ key, Tidy [] (entry (insertDlls m dlls) key) := by
    intro key
    rw [entry_insertDlls]
    split_ifs
    · exact tidy_of_directories rfl
    · exact h.tidy key
  generalize insertDlls m dlls = m' at hroot htidy
  have hbelow : ∀ key ns, ((m' key).toList.flatMap (below ns)).length ≤ 1 := by
    intro key ns
    have hkey := htidy key
    cases hd : m' key with
    | none => simp
    | some d =>
      rw [entry, hd] at hkey
      simpa using length_below_le hkey
  cases names with
  | nil => simpa [directoriesAt] using hbelow [] []
  | cons n ns =>
    have hnil : (m' []).toList.flatMap (below (n :: ns)) = [] := by
      cases hd : m' [] with
      | none => rfl
      | some d =>
        rw [entry, hd] at hroot
        simpa [below] using fun c hc => absurd hc (by simp [show d.directories = [] from hroot])
    simp only [directoriesAt, hnil, nil_append]
    split_ifs
    · simp
    · exact hbelow n ns

end

end Table

/-! ### What is in the MSI -/

/-- A resource is put to the root under a name. -/
def atRoot (r : Resource) (name : List Char) : Bool :=
  components r.target = [.normal (name.map .char)]

/-- The files in a directory, by the names of the target. -/
def filesIn (resources : ResourceMap S) (ds : List (List OsChar)) : List S :=
  match ds.mapM toStr with
  | none => []
  | some names => filesAt resources names

/-- The libraries that are not at the root as resources. -/
def missingDlls (out : OutDir S) (rs : List Resource) : List (S × List Char) :=
  out.dlls.filter fun dll => !rs.any fun r => atRoot r dll.2

/-- The libraries that are added. -/
def addedDlls (source : List OsChar → S) (out : OutDir S) (rs : List Resource) :
    List (S × List Char) :=
  out.dlls.filter fun dll => !rs.any fun r => out.endsWith (source r.path) dll.2

section Complete

variable {source : List OsChar → S} {out : OutDir S} {rs : List Resource} {m : ResourceMap S}
  {dll : S × List Char}

variable {ds : List (List OsChar)}

theorem mapM_toStr {names : List (List Char)} :
    ds.mapM toStr = some names ↔ ds = osNames names := by
  induction ds generalizing names with
  | nil => cases names <;> simp
  | cons d ds ih =>
    rw [mapM_cons]
    constructor
    · intro h
      obtain ⟨n, hn, h⟩ := Option.bind_eq_some_iff.mp h
      obtain ⟨ns, hns, h⟩ := Option.bind_eq_some_iff.mp h
      rw [← Option.some.inj h, toStr_eq_some.mp hn, ih.mp hns]
      rfl
    · intro h
      cases names with
      | nil => cases h
      | cons =>
        obtain ⟨hd, hds⟩ := cons_eq_cons.mp h
        rw [toStr_eq_some.mpr hd, ih.mpr hds]
        rfl

theorem filesIn_osNames (names : List (List Char)) : filesIn m (osNames names) = filesAt m names := by
  rw [filesIn, mapM_toStr.mpr rfl]

theorem mem_addedDlls : dll ∈ addedDlls source out rs ↔
    dll ∈ out.dlls ∧ ∀ r ∈ rs, out.endsWith (source r.path) dll.2 = false := by
  simp [addedDlls, mem_filter]

theorem not_mem_addedDlls {r : Resource} (hr : r ∈ rs) :
    source r.path ∉ (addedDlls source out rs).map Prod.fst := by
  intro hmem
  obtain ⟨dll, hdll, hsrc⟩ := mem_map.mp hmem
  obtain ⟨hout, hends⟩ := mem_addedDlls.mp hdll
  have hname := out.endsWith_name dll hout
  rw [hsrc, hends r hr] at hname
  cases hname

theorem mem_map_fst_filter {p : S × List Char → Bool} (hdll : dll ∈ out.dlls) :
    dll.1 ∈ (out.dlls.filter p).map Prod.fst ↔ p dll = true := by
  constructor
  · intro hmem
    obtain ⟨dll', hdll', heq⟩ := mem_map.mp hmem
    obtain ⟨hout, hp⟩ := mem_filter.mp hdll'
    rwa [← inj_on_of_nodup_map out.nodup hout hdll heq]
  · intro hp
    exact mem_map.mpr ⟨dll, mem_filter.mpr ⟨hdll, hp⟩, rfl⟩

theorem addedDlls_eq_iff : addedDlls source out rs = missingDlls out rs ↔
    ∀ dll ∈ out.dlls, (∃ r ∈ rs, out.endsWith (source r.path) dll.2 = true) ↔
      ∃ r ∈ rs, atRoot r dll.2 = true := by
  constructor
  · intro h dll hdll
    have hmem : dll ∈ addedDlls source out rs ↔ dll ∈ missingDlls out rs := by rw [h]
    rw [← not_iff_not]
    simpa [addedDlls, missingDlls, mem_filter, hdll] using hmem
  · intro h
    refine filter_congr fun dll hdll => ?_
    rw [Bool.eq_iff_iff]
    simpa using not_congr (h dll hdll)

theorem addedDlls_ne_nil_iff : addedDlls source out rs ≠ [] ↔
    ∃ dll ∈ out.dlls, ∀ r ∈ rs, out.endsWith (source r.path) dll.2 = false := by
  rw [addedDlls, Ne, filter_eq_nil_iff]
  simp

variable [DecidableEq S]

/-- The sources of the resources that should be in a directory, for every target once. -/
def targetsIn (source : List OsChar → S) (rs : List Resource) (ds : List (List OsChar)) : List S :=
  ((rs.map fun r => (source r.path, r.target)).dedup.filter fun p => directoriesOf p.2 = ds).map
    Prod.fst

/-- What should be in a directory: the resources, and at the root the libraries that are not there
as resources. -/
def expectedIn (source : List OsChar → S) (out : OutDir S) (rs : List Resource)
    (ds : List (List OsChar)) : List S :=
  targetsIn source rs ds ++ if ds = [] then (missingDlls out rs).map Prod.fst else []

/-- Everything is in its directory once, and no directory is there twice. -/
structure Complete (source : List OsChar → S) (out : OutDir S) (rs : List Resource)
    (resources : ResourceMap S) : Prop where
  entries : ∀ ds, (filesIn resources ds).Perm (expectedIn source out rs ds)
  unique : ∀ names, (directoriesAt resources names).length ≤ 1

/-- The names of directories are Unicode, no file has two targets, the resources whose paths end
with the name of a library are those that are put to the root under this name, and with any other
library there is nothing at the root. -/
structure Bundleable (source : List OsChar → S) (out : OutDir S) (rs : List Resource) : Prop where
  unicode : ∀ r ∈ rs, ∃ names, directoriesOf r.target = osNames names
  targets : ∀ r ∈ rs, ∀ r' ∈ rs, source r.path = source r'.path → r.target = r'.target
  dlls : ∀ dll ∈ out.dlls, (∃ r ∈ rs, out.endsWith (source r.path) dll.2 = true) ↔
    ∃ r ∈ rs, atRoot r dll.2 = true
  root : (∃ dll ∈ out.dlls, ∀ r ∈ rs, out.endsWith (source r.path) dll.2 = false) →
    ∀ r ∈ rs, directoriesOf r.target ≠ []

theorem generateResourceData_eq
    (h : ∀ r ∈ rs, parts r.target ≠ [] ∧ ∃ names, directoriesOf r.target = osNames names) :
    ∃ m, generateResourceData (E := E) source out (rs.map .ok) =
        .ok (insertDlls m (addedDlls source out rs)) ∧ Holds source (fresh source [] rs) m := by
  have hemp : Holds source [] fun _ => none := holds_empty
  obtain ⟨m, hrun, hm⟩ := hemp.run (E := E) fun r (hr : r ∈ fresh source [] rs) =>
    h r (mem_of_mem_fresh hr).1
  refine ⟨m, ?_, hm⟩
  have hany : ∀ name, ((fresh source [] rs).map fun r => source r.path).any
      (fun s => out.endsWith s name) = rs.any fun r => out.endsWith (source r.path) name := by
    intro name
    rw [Bool.eq_iff_iff, any_eq_true, any_eq_true]
    constructor
    · rintro ⟨s, hs, hends⟩
      obtain ⟨r, hr, rfl⟩ := mem_map.mp hs
      exact ⟨r, (mem_of_mem_fresh hr).1, hends⟩
    · rintro ⟨r, hr, hends⟩
      obtain ⟨r', hr', hsame⟩ := exists_mem_fresh hr (not_mem_nil : source r.path ∉ [])
      exact ⟨_, mem_map.mpr ⟨r', hr', rfl⟩, hsame ▸ hends⟩
  rw [generateResourceData, forNew_eq, hrun]
  simp only [Outcome.ok_bind, hany]
  rfl

theorem targetsIn_perm
    (htgts : ∀ r ∈ rs, ∀ r' ∈ rs, source r.path = source r'.path → r.target = r'.target)
    (ds : List (List OsChar)) :
    (sourcesIn source (fresh source [] rs) ds).Perm (targetsIn source rs ds) := by
  have hnd : ((fresh source [] rs).map fun r => (source r.path, r.target)).Nodup := by
    refine Nodup.of_map Prod.fst ?_
    rw [map_map]
    exact nodup_fresh
  have hperm : ((fresh source [] rs).map fun r => (source r.path, r.target)).Perm
      (rs.map fun r => (source r.path, r.target)).dedup := by
    rw [perm_ext_iff_of_nodup hnd (nodup_dedup _)]
    intro p
    rw [mem_dedup, mem_map, mem_map]
    constructor
    · rintro ⟨r, hr, rfl⟩
      exact ⟨r, (mem_of_mem_fresh hr).1, rfl⟩
    · rintro ⟨r, hr, rfl⟩
      obtain ⟨r', hr', hsame⟩ := exists_mem_fresh hr (not_mem_nil : source r.path ∉ [])
      exact ⟨r', hr', by rw [hsame, htgts r' (mem_of_mem_fresh hr').1 r hr hsame]⟩
  have hsrcs : sourcesIn source (fresh source [] rs) ds =
      (((fresh source [] rs).map fun r => (source r.path, r.target)).filter
        fun p => directoriesOf p.2 = ds).map Prod.fst := by
    rw [filter_map, map_map]
    rfl
  rw [hsrcs, targetsIn]
  exact (hperm.filter _).map _

theorem mem_targetsIn {s : S} : s ∈ targetsIn source rs ds ↔
    ∃ r ∈ rs, directoriesOf r.target = ds ∧ source r.path = s := by
  simp [targetsIn, and_assoc]

theorem Complete.unicode (h : Complete source out rs m) :
    ∀ r ∈ rs, ∃ names, directoriesOf r.target = osNames names := by
  intro r hr
  have hmem : source r.path ∈ filesIn m (directoriesOf r.target) :=
    (h.entries _).mem_iff.mpr (mem_append_left _ (mem_targetsIn.mpr ⟨r, hr, rfl, rfl⟩))
  unfold filesIn at hmem
  split at hmem
  · cases hmem
  · exact ⟨_, mapM_toStr.mp ‹_›⟩

theorem targetsIn_eq_nil_iff : targetsIn source rs ds = [] ↔
    ∀ r ∈ rs, directoriesOf r.target ≠ ds := by
  rw [eq_nil_iff_forall_not_mem]
  simp only [mem_targetsIn, not_exists, not_and]
  exact ⟨fun h r hr hds => h _ r hr hds rfl, fun h _ r hr hds => absurd hds (h r hr)⟩

section Table

variable (hm : Holds source (fresh source [] rs) m)
include hm

theorem targets_of_complete (h : Complete source out rs (insertDlls m (addedDlls source out rs))) :
    ∀ r ∈ rs, ∀ r' ∈ rs, source r.path = source r'.path → r.target = r'.target := by
  -- It is enough to compare with the resource that is put into the table.
  have hfirst : ∀ r ∈ rs, ∀ r₀ ∈ fresh source [] rs, source r₀.path = source r.path →
      r.target = r₀.target := by
    intro r hr r₀ hr₀ hsame
    by_contra hne
    obtain ⟨names, hnames⟩ := h.unicode r hr
    have hexp := h.entries (osNames names)
    rw [filesIn_osNames, filesAt_insertDlls hm] at hexp
    have hmem : source r.path ∈ expectedIn source out rs (osNames names) :=
      mem_append_left _ (mem_targetsIn.mpr ⟨r, hr, hnames, rfl⟩)
    split_ifs at hexp with hdlls
    · exact not_mem_addedDlls hr (hexp.mem_iff.mpr hmem)
    -- No source is twice in the table, so that the two are in one directory and have one target.
    replace hexp := (hm.files names).symm.trans hexp
    obtain ⟨r₁, hr₁, hsrc⟩ := mem_map.mp (hexp.mem_iff.mpr hmem)
    obtain ⟨hr₁, hds⟩ := mem_filter.mp hr₁
    obtain rfl : r₁ = r₀ := inj_on_of_nodup_map nodup_fresh hr₁ hr₀ (hsrc.trans hsame.symm)
    have hnd : (targetsIn source rs (osNames names)).Nodup :=
      (hexp.nodup_iff.mp (nodup_fresh.sublist (filter_sublist.map _))).of_append_left
    have hpair : ∀ r' ∈ rs, directoriesOf r'.target = osNames names →
        (source r'.path, r'.target) ∈ ((rs.map fun r => (source r.path, r.target)).dedup.filter
          fun p => directoriesOf p.2 = osNames names) := by
      intro r' hr' hds
      exact mem_filter.mpr ⟨mem_dedup.mpr (mem_map.mpr ⟨r', hr', rfl⟩), by simpa⟩
    have heq := inj_on_of_nodup_map hnd (hpair r hr hnames)
      (hpair r₁ (mem_of_mem_fresh hr₁).1 (by simpa using hds)) hsame.symm
    exact hne (congrArg Prod.snd heq)
  intro r hr r' hr' hsame
  obtain ⟨r₀, hr₀, hr₀'⟩ := exists_mem_fresh hr (not_mem_nil : source r.path ∉ [])
  rw [hfirst r hr r₀ hr₀ hr₀', hfirst r' hr' r₀ hr₀ (hr₀'.trans hsame)]

theorem dlls_of_complete (h : Complete source out rs (insertDlls m (addedDlls source out rs)))
    (htgts : ∀ r ∈ rs, ∀ r' ∈ rs, source r.path = source r'.path → r.target = r'.target) :
    addedDlls source out rs = missingDlls out rs ∧
      (addedDlls source out rs ≠ [] → targetsIn source rs [] = []) := by
  have hroot := h.entries (osNames [])
  rw [filesIn_osNames, filesAt_insertDlls hm, expectedIn, if_pos (show osNames [] = [] from rfl)]
    at hroot
  by_cases hadded : addedDlls source out rs = []
  · -- The files at the root are the resources, which leaves no place for a library.
    rw [if_neg (by simp [hadded])] at hroot
    have hlen := (((hm.files []).trans (targetsIn_perm htgts _)).symm.trans hroot).length_eq
    have hmiss : missingDlls out rs = [] := by simpa using hlen
    exact ⟨hadded.trans hmiss.symm, absurd hadded⟩
  · rw [if_pos ⟨hadded, rfl⟩] at hroot
    have hnil : targetsIn source rs [] = [] := by
      refine targetsIn_eq_nil_iff.mpr fun r hr hds => not_mem_addedDlls hr (hroot.mem_iff.mpr ?_)
      exact mem_append_left _ (mem_targetsIn.mpr ⟨r, hr, hds, rfl⟩)
    refine ⟨filter_congr fun dll hdll => ?_, fun _ => hnil⟩
    rw [show targetsIn source rs (osNames []) = [] from hnil, nil_append] at hroot
    rw [Bool.eq_iff_iff]
    exact (mem_map_fst_filter hdll).symm.trans (hroot.mem_iff.trans (mem_map_fst_filter hdll))

theorem complete_of_bundleable (h : Bundleable source out rs) :
    Complete source out rs (insertDlls m (addedDlls source out rs)) := by
  refine ⟨fun ds => ?_, fun names => length_directoriesAt_le hm _⟩
  rw [expectedIn, ← addedDlls_eq_iff.mpr h.dlls]
  cases hds : ds.mapM toStr with
  | none =>
    have hnone : ∀ names, ds ≠ osNames names := by
      rintro names heq
      rw [mapM_toStr.mpr heq] at hds
      cases hds
    have hnil : targetsIn source rs ds = [] := by
      refine targetsIn_eq_nil_iff.mpr fun r hr heq => ?_
      obtain ⟨names, hnames⟩ := h.unicode r hr
      exact hnone names (heq.symm.trans hnames)
    rw [filesIn, hds, hnil, if_neg (show ds ≠ [] from hnone [])]
    rfl
  | some names =>
    obtain rfl := mapM_toStr.mp hds
    have hfiles := (hm.files names).trans (targetsIn_perm h.targets _)
    rw [filesIn_osNames, filesAt_insertDlls hm]
    by_cases hadded : addedDlls source out rs = []
    · simpa [hadded] using hfiles
    · by_cases hnames : names = []
      · have hnil : targetsIn source rs [] = [] :=
          targetsIn_eq_nil_iff.mpr (h.root (addedDlls_ne_nil_iff.mp hadded))
        simp [hnames, hadded, hnil]
      · simpa [hnames] using hfiles

theorem complete_iff_bundleable :
    Complete source out rs (insertDlls m (addedDlls source out rs)) ↔ Bundleable source out rs := by
  refine ⟨fun h => ?_, complete_of_bundleable hm⟩
  have htgts := targets_of_complete hm h
  obtain ⟨hdlls, hroot⟩ := dlls_of_complete hm h htgts
  refine ⟨h.unicode, htgts, addedDlls_eq_iff.mp hdlls, fun hadded => ?_⟩
  exact targetsIn_eq_nil_iff.mp (hroot (addedDlls_ne_nil_iff.mpr hadded))

end Table

/-- Whatever `resource_files` gives, the resources and the libraries are in the MSI under the
conditions of `Bundleable`, and only then. -/
theorem complete_iff (tree : FileTree E) (settings : Settings) (source : List OsChar → S)
    (out : OutDir S) : ∃ items : List (Item E),
      (∀ it, resourceFiles settings = .ok it → Iterates tree it items) ∧
      ∀ rs, items = rs.map .ok →
        ((∃ resources, generateResourceData source out items = .ok resources ∧
          Complete source out rs resources) ↔ Bundleable source out rs) := by
  obtain ⟨items, hitems, htgts⟩ := exists_items tree settings
  refine ⟨items, hitems, ?_⟩
  rintro rs rfl
  have hrun : (∀ r ∈ rs, ∃ names, directoriesOf r.target = osNames names) →
      ∃ m, generateResourceData (E := E) source out (rs.map .ok) =
        .ok (insertDlls m (addedDlls source out rs)) ∧ Holds source (fresh source [] rs) m :=
    fun hunicode => generateResourceData_eq fun r hr => ⟨htgts rs rfl r hr, hunicode r hr⟩
  constructor
  · rintro ⟨resources, hres, h⟩
    obtain ⟨m, hm, hholds⟩ := hrun h.unicode
    rw [hm, Outcome.ok.injEq] at hres
    exact (complete_iff_bundleable hholds).mp (hres ▸ h)
  · intro h
    obtain ⟨m, hm, hholds⟩ := hrun h.unicode
    exact ⟨_, hm, (complete_iff_bundleable hholds).mpr h⟩

end Complete

namespace Sample

/-- The library `x.dll` in the output directory. -/
def out : OutDir (List OsChar) where
  endsWith path name := fileName path = some (name.map .char)
  dlls := [(os "/o/x.dll", "x.dll".toList)]
  nodup := by decide
  endsWith_name := by decide

end Sample

/-- The library replaces the file `a` at the root, and of two targets of a file there is one. -/
theorem root_files_replaced :
    (Iterates Sample.tree (new ["a"] true) [.ok ⟨os "a", os "a"⟩] ∧
      ∃ resources, generateResourceData (E := Unit) (push (os "/c")) Sample.out
        [.ok ⟨os "a", os "a"⟩] = .ok resources ∧ filesIn resources [] = [os "/o/x.dll"]) ∧
    (Iterates Sample.tree (fromMap [("a", "x/b"), ("./a", "y/b")] true)
        [.ok ⟨os "a", os "x/b"⟩, .ok ⟨os "a", os "y/b"⟩] ∧
      ∃ resources, generateResourceData (E := Unit) (push (os "/c")) Sample.out
        [.ok ⟨os "a", os "x/b"⟩, .ok ⟨os "a", os "y/b"⟩] = .ok resources ∧
          filesIn resources [os "x"] = [os "/c/a"] ∧ filesIn resources [os "y"] = []) :=
  ⟨⟨iterates_results Resources.Sample.tree (.slice ["a"]) true, _, rfl, rfl⟩,
    ⟨iterates_results Resources.Sample.tree (.map [("a", "x/b"), ("./a", "y/b")]) true,
      _, rfl, rfl, rfl⟩⟩

end Tauri.Bundle.Msi
