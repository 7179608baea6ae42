import Tauri.Scope.Fs

/-!
# What an allowed path gives access to

A scope allows locations: the one that the path given to `allow_file` leads to, and all those at or
below the one that the path given to `allow_directory` leads to. `is_allowed` decides on the text of
a path instead: of the canonical path if there is something, and else of the path as it is, or the
target of a link as the link has it. `isAllowed_contained_iff` says for which paths the two agree,
whatever is allowed: those that are looked up as a path that **leads** to the location they give
access to, and that, if there is nothing yet, stay below each directory they name.
-/

namespace Tauri.Fs

open Rust List

variable {G : Glob} {fs : FileSystem} {cwd loc : Location} {path f p : Path} {slash : Bool}

/-! ### Allowed locations -/

/-- The location that a path leads to, however many links there are on the way. -/
def Designates (fs : FileSystem) (cwd : Location) (path : Path) (loc : Location) : Prop :=
  path ≠ .empty ∧ ∃ n r, fs.Walks n path.components (path.base cwd) r ∧ r.location = loc

/-- The locations that a call allows. -/
def Call.Allows (fs : FileSystem) (cwd loc : Location) : Call → Prop
  | allowFile path => Designates fs cwd path loc
  | allowDirectory path _ => ∃ d, Designates fs cwd path d ∧ d <+: loc
  | forbidFile _ | forbidDirectory _ _ => False

theorem Designates.unique {loc' : Location} (h : Designates fs cwd path loc)
    (h' : Designates fs cwd path loc') : loc = loc' := by
  obtain ⟨-, n, r, hwalks, rfl⟩ := h
  obtain ⟨-, n', r', hwalks', rfl⟩ := h'
  rw [hwalks.unique hwalks']

open FileSystem

theorem designates_ofLocation (h : fs.Canonical loc) : Designates fs cwd (.ofLocation loc) loc :=
  ⟨ofLocation_ne_empty loc, 0, .found loc, walks_names h 0, rfl⟩

theorem Designates.of_form (hcwd : fs.IsDir cwd) (hpath : path ≠ .empty)
    (hf : f ∈ forms fs cwd path) (h : Designates fs cwd f loc) : Designates fs cwd path loc := by
  rcases mem_cons.mp hf with rfl | hf
  · exact h
  obtain ⟨cs, ds, d, happ, hres, rfl⟩ := exists_of_canonicalizeParent (Option.mem_toList.mp hf)
  have hcs : fs.Walks fs.maxLinks cs (path.base cwd) (.found d) := (resolve_eq_some.mp hres).2
  have hd : fs.Canonical d := hcs.canonical (hcwd.base path)
  obtain ⟨-, n, r, hwalks, rfl⟩ := h
  by_cases hds : ds = []
  · -- The form is the canonical path itself.
    subst hds
    rw [Path.join_nil] at hwalks
    rw [hwalks.unique (walks_names hd 0)]
    rw [append_nil] at happ
    exact ⟨hpath, fs.maxLinks, .found d, by rw [happ]; exact hcs, rfl⟩
  · obtain ⟨hdir, hrest⟩ := hwalks.of_names hd fs.root hds
    refine ⟨hpath, fs.maxLinks + n, r, ?_, rfl⟩
    rw [happ]
    exact hcs.append hdir hrest

theorem exists_of_join_eq_ofLocation {cs : List Component} (h : f.join cs = .ofLocation loc) :
    ∃ d, f = .ofLocation d ∧ d <+: loc ∧ (cs = [] → d = loc) := by
  obtain ⟨anchor, ds⟩ := f
  have hanchor : anchor = .rootDir := congrArg Path.anchor h
  have hcomp : ds ++ cs = loc.map .normal := congrArg Path.components h
  obtain ⟨d, e, rfl, rfl, rfl⟩ := map_eq_append_iff.mp hcomp.symm
  refine ⟨d, by rw [hanchor]; rfl, prefix_append d e, fun he => ?_⟩
  rw [map_eq_nil_iff.mp he, append_nil]

/-! ### The path that is looked up -/

theorem tryResolveSymlinkAndCanonicalize_eq_some {q q' : Path} {slash' : Bool}
    (hq : resolveSymlink fs cwd p slash = (q, slash')) :
    tryResolveSymlinkAndCanonicalize fs cwd p slash = some q' ↔
      (∃ loc, fs.lookup true cwd q slash' = some (.found loc) ∧ q' = .ofLocation loc) ∨
        fs.pathExists cwd q slash' = false ∧ q' = q := by
  rw [tryResolveSymlinkAndCanonicalize, hq]
  cases hexists : fs.pathExists cwd q slash' with
  | true => simp [hexists, canonicalize_eq_some]
  | false =>
    have hnone : ∀ loc, fs.lookup true cwd q slash' ≠ some (.found loc) := by
      intro loc hloc
      rw [pathExists_eq_true.mpr ⟨loc, hloc⟩] at hexists
      cases hexists
    simp [hexists, hnone, eq_comm]

/-- The path `q` that is looked up leads to the location. If there is something at `q`, it is at the
location. If there is nothing, each path that `q` is a form of leads there, and each path that `q`
lies below by its text leads to a directory above it, where patterns can match `q` so. -/
structure Leads (fs : FileSystem) (cwd : Location) (leadingDot : Bool) (q : Path) (slash : Bool)
    (loc : Location) : Prop where
  found : ∀ loc', fs.lookup true cwd q slash = some (.found loc') →
    toStr (Path.ofLocation loc').text ≠ none → loc' = loc
  missing : fs.pathExists cwd q slash = false → toStr q.text ≠ none →
    ∀ path f cs, Proper fs cwd path → f ∈ forms fs cwd path → q = f.join cs →
      (leadingDot = true → ∀ c ∈ cs, ¬ Hidden c) →
      ∃ d, Designates fs cwd path d ∧ d <+: loc ∧ (cs = [] → d = loc)

/-- If a path is looked up as one at or below a form of a path, this path leads to the location or
to a directory above it. -/
theorem Leads.exists_designates {leadingDot slash' : Bool} {q : Path}
    (h : Leads fs cwd leadingDot q slash' loc) (hcwd : fs.IsDir cwd)
    (hq : resolveSymlink fs cwd p slash = (q, slash')) {cs : List Component}
    (hres : tryResolveSymlinkAndCanonicalize fs cwd p slash = some (f.join cs))
    (htext : toStr (f.join cs).text ≠ none) (hproper : Proper fs cwd path)
    (hf : f ∈ forms fs cwd path) (hdots : leadingDot = true → ∀ c ∈ cs, ¬ Hidden c) :
    ∃ d, Designates fs cwd path d ∧ d <+: loc ∧ (cs = [] → d = loc) := by
  rcases (tryResolveSymlinkAndCanonicalize_eq_some hq).mp hres with
    ⟨loc', hfound, hjoin⟩ | ⟨hmiss, hjoin⟩
  · rw [hjoin] at htext
    obtain rfl := h.found loc' hfound htext
    obtain ⟨d, rfl, hpre, hself⟩ := exists_of_join_eq_ofLocation hjoin
    have hcan := (canonical_of_lookup hcwd hfound).of_isPrefix hpre
    exact ⟨d, (designates_ofLocation hcan).of_form hcwd hproper.ne_empty hf, hpre, hself⟩
  · rw [hjoin] at htext
    exact h.missing hmiss htext path f cs hproper hf hjoin.symm hdots

/-- **Containment.** For all sets of allowed files and directories, given by proper paths, a path
that is allowed gives access to an allowed location, exactly if the path that it is looked up as
leads to the location that the path gives access to. -/
theorem isAllowed_contained_iff (laws : G.Laws) (hcwd : fs.IsDir cwd) (leadingDot : Bool)
    (p : Path) (slash : Bool) :
    (∀ calls, (∀ call ∈ calls, call.forbids = false ∧ Proper fs cwd call.path) →
      ((⟨[], [], leadingDot⟩ : Scope G).run fs cwd calls).isAllowed fs cwd p slash = true →
      ∀ loc, fs.access cwd p slash = some loc → ∃ call ∈ calls, call.Allows fs cwd loc) ↔
    ∀ loc, fs.access cwd p slash = some loc →
      Leads fs cwd leadingDot (resolveSymlink fs cwd p slash).1
        (resolveSymlink fs cwd p slash).2 loc := by
  generalize hq : resolveSymlink fs cwd p slash = qs
  obtain ⟨q, slash'⟩ := qs
  constructor
  · intro hcontained loc hloc
    -- One call that covers the path that is looked up allows the location.
    have hcall : ∀ call q', call.forbids = false → Proper fs cwd call.path →
        tryResolveSymlinkAndCanonicalize fs cwd p slash = some q' → toStr q'.text ≠ none →
        Covers fs cwd leadingDot call q' → call.Allows fs cwd loc := by
      intro call q' hforb hproper hres htext hcov
      have hproper' : ∀ call' ∈ [call], Proper fs cwd call'.path := by simpa using hproper
      have hallow := (Scope.isAllowed_run_iff laws hproper').mpr
        ⟨q', hres, htext, by simp [hforb], call, by simp, hforb, hcov⟩
      obtain ⟨call', hmem, hallows⟩ := hcontained [call] (by simp [hforb, hproper]) hallow loc hloc
      rw [← mem_singleton.mp hmem]
      exact hallows
    refine ⟨fun loc' hfound htext => ?_, fun hmiss htext path f cs hproper hf hjoin hdots => ?_⟩
    · have hcan : fs.Canonical loc' := canonical_of_lookup hcwd hfound
      have hallows := hcall (.allowFile (.ofLocation loc')) (.ofLocation loc') rfl
        (proper_ofLocation hcan htext)
        ((tryResolveSymlinkAndCanonicalize_eq_some hq).mpr (.inl ⟨loc', hfound, rfl⟩)) htext
        ⟨_, mem_cons_self, [], (Path.join_nil _).symm, by simp, by simp⟩
      exact (designates_ofLocation hcan).unique hallows
    · have hres := (tryResolveSymlinkAndCanonicalize_eq_some hq).mpr (.inr ⟨hmiss, rfl⟩)
      by_cases hcs : cs = []
      · have hallows := hcall (.allowFile path) q rfl hproper hres htext
          ⟨f, hf, cs, hjoin, by simp [hcs], hdots⟩
        exact ⟨loc, hallows, prefix_rfl, fun _ => rfl⟩
      · obtain ⟨d, hd, hpre⟩ := hcall (.allowDirectory path true) q rfl hproper hres htext
          ⟨f, hf, cs, hjoin, fun _ => ⟨true, rfl, by simp⟩, hdots⟩
        exact ⟨d, hd, hpre, fun hnil => absurd hnil hcs⟩
  · intro hleads calls hcalls hallow loc hloc
    obtain ⟨q', hres, htext, -, call, hmem, hforb, f, hf, cs, rfl, hrec, hdots⟩ :=
      (Scope.isAllowed_run_iff laws fun call hcall => (hcalls call hcall).2).mp hallow
    have hproper := (hcalls call hmem).2
    obtain ⟨d, hd, hpre, hself⟩ :=
      (hleads loc hloc).exists_designates hcwd hq hres htext hproper hf hdots
    refine ⟨call, hmem, ?_⟩
    cases call with
    | allowFile =>
      have hcs : cs = [] := by
        by_contra hcs
        obtain ⟨recursive, hnone, -⟩ := hrec hcs
        cases hnone
      rw [← hself hcs]
      exact hd
    | allowDirectory => exact ⟨d, hd, hpre⟩
    | forbidFile | forbidDirectory => cases hforb

namespace Sample

def other : Name := ⟨[.char 'e'], by decide, by decide, by decide, by decide⟩

def absent : Name := ⟨[.char 'n'], by decide, by decide, by decide, by decide⟩

def link : Name := ⟨[.char 'l'], by decide, by decide, by decide, by decide⟩

def relative : Name := ⟨[.char 'r'], by decide, by decide, by decide, by decide⟩

def replacement : Name := ⟨[.char '�'], by decide, by decide, by decide, by decide⟩

def invalid : Name := ⟨[.invalid [255]], by decide, by decide, by decide, by decide⟩

/-- The directories `/d` and `/e` with files, and in `/d` the links `l` to `/e` and `r` to `x`. -/
def links : FileSystem where
  node loc :=
    if loc = [] ∨ loc = [dir] ∨ loc = [other] then some .dir
    else if loc = [dir, file] ∨ loc = [other, file] ∨ loc = [dir, replacement] then some .file
    else if loc = [dir, link] then some (.symlink (.ofLocation [other]))
    else if loc = [dir, relative] then some (.symlink ⟨.none, [.normal file]⟩)
    else none
  root := rfl
  maxLinks := 40

/-- A scope with the calls made on it allows a path, and the path gives access to a location that
no call allows. -/
def Escapes (cwd : Location) (calls : List Call) (p : Path) : Prop :=
  (scope.run links cwd calls).isAllowed links cwd p false = true ∧
    ∃ loc, links.access cwd p false = some loc ∧ ¬ ∃ call ∈ calls, call.Allows links cwd loc

theorem escapes_of_resolve {cwd loc : Location} {path p : Path} {r : Resolved}
    (hallow :
      (scope.run links cwd [.allowDirectory path true]).isAllowed links cwd p false = true)
    (haccess : links.access cwd p false = some loc)
    (hres : links.resolve true cwd path = some r) (houtside : ¬ r.location <+: loc) :
    Escapes cwd [.allowDirectory path true] p := by
  refine ⟨hallow, loc, haccess, ?_⟩
  rintro ⟨call, hmem, hallows⟩
  obtain rfl := mem_singleton.mp hmem
  obtain ⟨d, hd, hpre⟩ := hallows
  obtain ⟨hne, hwalks⟩ := resolve_eq_some.mp hres
  rw [hd.unique ⟨hne, _, r, hwalks, rfl⟩] at hpre
  exact houtside hpre

end Sample

open Sample

/-- With `/d` allowed, a file that is created in it is in an allowed location. -/
theorem sample_new_file_contained :
    ∃ call ∈ [Call.allowDirectory (.ofLocation [Sample.dir]) true],
      call.Allows Sample.links [] [Sample.dir, Sample.absent] := by
  have hroot := isDir_nil links
  have hdir : links.IsDir [dir] := hroot.snoc rfl
  have hmiss : links.resolve true [] (.ofLocation [dir, absent]) =
      some (.missing [dir, absent]) := rfl
  refine (isAllowed_contained_iff glob_laws hroot true
    (.ofLocation [dir, absent]) false).mpr (fun loc hloc => ?_) _ ?_ rfl _ rfl
  · obtain rfl : [dir, absent] = loc := Option.some_injective _ hloc
    refine ⟨fun loc' hfound _ => ?_, fun _ _ path f cs hproper hf hjoin _ => ?_⟩
    · cases hmiss.symm.trans (resolve_of_lookup hfound)
    · -- The file, and the directories above it, are where their names say.
      obtain ⟨d, rfl, hpre, hself⟩ := exists_of_join_eq_ofLocation hjoin.symm
      refine ⟨d, Designates.of_form hroot hproper.ne_empty hf ?_, hpre, hself⟩
      rcases prefix_concat_iff.mp (show d <+: [dir] ++ [absent] from hpre) with
        rfl | hpre
      · obtain ⟨hne, hwalks⟩ := resolve_eq_some.mp hmiss
        exact ⟨hne, _, _, hwalks, rfl⟩
      · exact designates_ofLocation (hdir.canonical.of_isPrefix hpre)
  · intro call hcall
    obtain rfl := mem_singleton.mp hcall
    exact ⟨rfl, proper_ofLocation hdir.canonical (by decide)⟩

/-- Allowed paths that give access to other locations: any, with the empty directory allowed; the
link `/d/r` to `x`, in `/e` with `/e` allowed; what is created as `/d/l/n`, with `/d` allowed; the
file that is named by the replacement character, with a file allowed whose name is no UTF-8. -/
theorem sample_allowed_outside :
    Sample.glob.Laws ∧ Sample.links.IsDir [Sample.other] ∧
      Sample.Escapes [] [.allowDirectory .empty true] (.ofLocation [Sample.dir, Sample.file]) ∧
      Sample.Escapes [Sample.other] [.allowDirectory (.ofLocation [Sample.other]) true]
        (.ofLocation [Sample.dir, Sample.relative]) ∧
      Sample.Escapes [] [.allowDirectory (.ofLocation [Sample.dir]) true]
        (.ofLocation [Sample.dir, Sample.link, Sample.absent]) ∧
      Sample.Escapes [] [.allowFile (.ofLocation [Sample.dir, Sample.invalid])]
        (.ofLocation [Sample.dir, Sample.replacement]) := by
  refine ⟨glob_laws, (isDir_nil links).snoc rfl, ?_, ?_, ?_, ?_⟩
  · refine ⟨rfl, _, rfl, ?_⟩
    rintro ⟨call, hmem, hallows⟩
    obtain rfl := mem_singleton.mp hmem
    obtain ⟨d, hd, -⟩ := hallows
    exact hd.1 rfl
  · exact escapes_of_resolve rfl rfl rfl (by decide)
  · exact escapes_of_resolve rfl rfl rfl (by decide)
  · refine ⟨rfl, _, rfl, ?_⟩
    rintro ⟨call, hmem, hallows⟩
    obtain rfl := mem_singleton.mp hmem
    have hres : links.resolve true [] (.ofLocation [dir, invalid]) =
        some (.missing [dir, invalid]) := rfl
    obtain ⟨hne, hwalks⟩ := resolve_eq_some.mp hres
    have heq := Designates.unique hallows ⟨hne, _, _, hwalks, rfl⟩
    exact absurd heq (by decide)

end Tauri.Fs
