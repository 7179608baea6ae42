import Tauri.Scope.Forbidden

/-!
# The answers of the scope

What `is_allowed` answers after a directory was allowed, and after any calls.

The patterns of a directory are made from its path as `to_string_lossy` shows it, and compared with
the path that is asked for as `to_str` gives it. Both are the path itself only where it is valid
UTF-8: `isAllowed_allowDirectory_iff_within` says when the answers are those documented.

`run_isAllowed` looks at calls in any number. Each appends patterns that do not depend on the scope
it is made on, so only the set of calls matters.
-/

namespace Tauri.Fs

open Rust List

/-! ### An allowed directory -/

/-- What `allow_directory` is for: the directory `d`, its children, or with `recursive` what lies
anywhere below it; no name with a leading dot below it if that has to be matched literally. -/
inductive Within (leadingDot : Bool) : Bool → Location → Location → Prop
  | self (recursive : Bool) (d : Location) : Within leadingDot recursive d d
  | child (d : Location) (nm : Name) (h : leadingDot = true → ¬ Hidden (.normal nm)) :
      Within leadingDot false d (d ++ [nm])
  | descendant (d names : Location) (hne : names ≠ [])
      (h : leadingDot = true → ∀ nm ∈ names, ¬ Hidden (.normal nm)) :
      Within leadingDot true d (d ++ names)

/-- The path of the location is valid UTF-8. -/
def Utf8 (loc : Location) : Prop := toStr (Path.ofLocation loc).text ≠ none

section Directory

variable {G : Glob} {fs : FileSystem} {cwd d loc : Location} {recursive leadingDot : Bool}

theorem within_iff : Within leadingDot recursive d loc ↔
    ∃ names, loc = d ++ names ∧ (names ≠ [] → recursive = false → names.length = 1) ∧
      (leadingDot = true → ∀ nm ∈ names, ¬ Hidden (.normal nm)) := by
  constructor
  · intro h
    cases h with
    | self => exact ⟨[], by simp, by simp, by simp⟩
    | child _ nm h => exact ⟨[nm], rfl, by simp, by simpa using h⟩
    | descendant _ names hne h => exact ⟨names, rfl, by simp, h⟩
  · rintro ⟨names, rfl, hlen, hdots⟩
    by_cases hnames : names = []
    · rw [hnames, append_nil]
      exact .self recursive d
    · cases recursive with
      | true => exact .descendant d names hnames hdots
      | false =>
        obtain ⟨nm, rfl⟩ := length_eq_one_iff.mp (hlen hnames rfl)
        exact .child d nm (by simpa using hdots)

open Component

theorem lossy_ofLocation (d : Location) :
    (Path.ofLocation d).lossy = .ofLocation (d.map Name.lossy) := by
  simp [Path.ofLocation, Path.lossy, lossy]

theorem Utf8.of_within (h : Within leadingDot recursive d loc) (hloc : Utf8 loc) : Utf8 d := by
  obtain ⟨names, rfl, -⟩ := within_iff.mp h
  rw [Utf8, ofLocation_append] at hloc
  obtain ⟨s, hs⟩ := toStr_of_join (ofLocation_ne_empty d) hloc
  rw [Utf8, hs]
  exact Option.some_ne_none s

theorem Utf8.map_lossy (h : Utf8 d) : d.map Name.lossy = d := by
  have hpath := lossy_ofLocation d
  rw [Path.lossy_eq_self h] at hpath
  have hcomp : d.map normal = (d.map Name.lossy).map .normal :=
    congrArg Path.components hpath
  exact (map_injective_iff.mpr (fun _ _ h => normal.inj h) hcomp).symm

theorem Pushes.matching_directory_iff (laws : G.Laws) (hd : fs.Canonical d) (hloc : Utf8 loc)
    {patterns : List G.Pattern} {ok : Bool}
    (h : Pushes fs cwd (.ofLocation d)
      ((Call.allowDirectory (.ofLocation d) recursive).builders G) patterns ok) :
    (∃ p ∈ patterns, G.matchesPathWith p (.ofLocation loc) ⟨true, leadingDot⟩ = true) ↔
      Within leadingDot recursive (d.map Name.lossy) loc := by
  let call : Call := .allowDirectory (.ofLocation d) recursive
  have hpush : Pushes fs cwd call.path (call.builders G) patterns ok := h
  have hpath : call.path ≠ .empty := ofLocation_ne_empty d
  rw [hpush.matching_lossy_iff laws hpath hloc, within_iff]
  constructor
  · rintro ⟨f, hf, cs, hjoin, hlen, hdots⟩
    rw [forms_ofLocation hd f hf, lossy_ofLocation] at hjoin
    -- The components of the location after those of the directory are names.
    have hcomp : loc.map normal = (d.map Name.lossy).map .normal ++ cs :=
      congrArg Path.components hjoin
    obtain ⟨ds, names, rfl, hds, rfl⟩ := map_eq_append_iff.mp hcomp
    obtain rfl := map_injective_iff.mpr (fun _ _ h => normal.inj h) hds
    refine ⟨names, rfl, fun hnames hrec => ?_, fun hlead nm hnm => ?_⟩
    · obtain ⟨r, hr, hone⟩ := hlen (by simpa using hnames)
      cases hr
      simpa using hone hrec
    · exact hdots hlead _ (mem_map_of_mem hnm)
  · rintro ⟨names, rfl, hlen, hdots⟩
    refine ⟨.ofLocation d, mem_cons_self, names.map .normal, ?_, fun hnames => ?_,
      fun hlead c hc => ?_⟩
    · rw [lossy_ofLocation, ofLocation_append]
    · exact ⟨recursive, rfl, by simpa using hlen (by simpa using hnames)⟩
    · obtain ⟨nm, hnm, rfl⟩ := mem_map.mp hc
      exact hdots hlead nm hnm

/-- **An allowed directory.** A canonical path is allowed if it is valid UTF-8 and lies in the
directory as it is shown. -/
theorem isAllowed_allowDirectory_iff (laws : G.Laws) (hd : fs.Canonical d)
    (hloc : fs.Canonical loc) (slash : Bool) :
    ((⟨[], [], leadingDot⟩ : Scope G).run fs cwd
        [.allowDirectory (.ofLocation d) recursive]).isAllowed fs cwd (.ofLocation loc) slash =
        true ↔
      Utf8 loc ∧ Within leadingDot recursive (d.map Name.lossy) loc := by
  let empty : Scope G := ⟨[], [], leadingDot⟩
  obtain ⟨patterns, ok, hperform, hpush⟩ :=
    empty.exists_perform fs cwd (.allowDirectory (.ofLocation d) recursive)
  have hrun : empty.run fs cwd [.allowDirectory (.ofLocation d) recursive] =
      ⟨patterns, [], leadingDot⟩ := by
    rw [Scope.run, foldl_cons, hperform]
    rfl
  rw [hrun, Scope.isAllowed_iff, tryResolveSymlinkAndCanonicalize_ofLocation hloc]
  constructor
  · rintro ⟨q, hq, -, hmatch⟩
    cases hq
    have htext : Utf8 loc := by
      obtain ⟨p, -, hp⟩ := hmatch
      intro hnone
      simp [Glob.matchesPathWith, hnone] at hp
    exact ⟨htext, (hpush.matching_directory_iff laws hd htext).mp hmatch⟩
  · rintro ⟨htext, hin⟩
    exact ⟨_, rfl, by simp, (hpush.matching_directory_iff laws hd htext).mpr hin⟩

/-- **Exactness.** After `allow_directory` of a canonical directory on an empty scope, a canonical
path is allowed exactly if it lies in the directory, provided that the path is valid UTF-8 if it
lies in the directory, and the directory is if the path lies in the one that it is shown as; and
only then. -/
theorem isAllowed_allowDirectory_iff_within (laws : G.Laws) (hd : fs.Canonical d)
    (hloc : fs.Canonical loc) (slash : Bool) :
    (((⟨[], [], leadingDot⟩ : Scope G).run fs cwd
        [.allowDirectory (.ofLocation d) recursive]).isAllowed fs cwd (.ofLocation loc) slash =
        true ↔ Within leadingDot recursive d loc) ↔
      (Within leadingDot recursive d loc → Utf8 loc) ∧
        (Within leadingDot recursive (d.map Name.lossy) loc → Utf8 loc → Utf8 d) := by
  rw [isAllowed_allowDirectory_iff laws hd hloc]
  constructor
  · intro h
    exact ⟨fun hin => (h.mpr hin).1,
      fun hshown htext => htext.of_within (h.mp ⟨htext, hshown⟩)⟩
  · rintro ⟨hval, hshown⟩
    constructor
    · rintro ⟨htext, hin⟩
      rwa [(hshown hin htext).map_lossy] at hin
    · intro hin
      have htext := hval hin
      refine ⟨htext, ?_⟩
      rwa [(htext.of_within hin).map_lossy]

end Directory

namespace Sample

/-- A name that is the byte `0xff`. -/
def unreadable : Name := ⟨[.invalid [0xff]], nofun, nofun, nofun, nofun⟩

/-- The directory `/d` with the files `x` and one with a name that is no UTF-8. -/
def bytes : FileSystem where
  node loc :=
    if loc = [] ∨ loc = [dir] then some .dir
    else if loc = [dir, file] ∨ loc = [dir, unreadable] then some .file
    else none
  root := rfl
  maxLinks := 40

theorem canonical_bytes {loc : Location}
    (h : bytes.walk true 0 (loc.map .normal) [] = some (.found loc)) : bytes.Canonical loc :=
  (FileSystem.walk_eq_some.mp h).canonical (FileSystem.isDir_nil bytes)

end Sample

open Sample

/-- With `/d` allowed, `/d/x` is allowed. -/
theorem sample_within_allowed :
    (Sample.scope.run Sample.bytes []
      [.allowDirectory (.ofLocation [Sample.dir]) false]).isAllowed Sample.bytes []
        (.ofLocation [Sample.dir, Sample.file]) false = true := by
  have hin : Within true false [dir] [dir, file] := .child [dir] file fun _ => by decide
  have hfile : Utf8 [dir, file] := by
    rw [Utf8]
    decide
  have hdir : Utf8 [dir] := by
    rw [Utf8]
    decide
  exact ((isAllowed_allowDirectory_iff_within glob_laws (canonical_bytes rfl)
    (canonical_bytes rfl) false).mpr ⟨fun _ => hfile, fun _ _ => hdir⟩).mpr hin

/-- With `/d` allowed, the child of `/d` with a name that is no UTF-8 is not. -/
theorem sample_within_not_allowed :
    Sample.glob.Laws ∧ Sample.bytes.Canonical [Sample.dir] ∧
      Sample.bytes.Canonical [Sample.dir, Sample.unreadable] ∧
      Within true false [Sample.dir] [Sample.dir, Sample.unreadable] ∧
      (Sample.scope.run Sample.bytes []
        [.allowDirectory (.ofLocation [Sample.dir]) false]).isAllowed Sample.bytes []
          (.ofLocation [Sample.dir, Sample.unreadable]) false = false :=
  ⟨glob_laws, canonical_bytes rfl, canonical_bytes rfl,
    .child [dir] unreadable fun _ => by decide, rfl⟩

/-! ### The order of calls -/

section Order

variable {G : Glob} (fs : FileSystem) (cwd : Location)

/-- The patterns that a call adds. -/
def Call.pushed (G : Glob) (call : Call) : List G.Pattern :=
  ((⟨[], [], false⟩ : Scope G).perform fs cwd call).1.patterns call.forbids

theorem pushPattern_append (list : List G.Pattern) (path : Path)
    (f : List Char → Option G.Pattern) :
    pushPattern fs cwd list path f =
      (list ++ (pushPattern fs cwd [] path f).1, (pushPattern fs cwd [] path f).2) := by
  simp only [pushPattern]
  cases f (toStringLossy path.text) with
  | none => simp
  | some =>
    cases canonicalizeParent fs cwd path with
    | none => simp
    | some p => cases h : f (toStringLossy p.text) <;> simp [h]

theorem pushDirectory_append (list : List G.Pattern) (path : Path) (recursive : Bool) :
    pushDirectory fs cwd list path recursive =
      (list ++ (pushDirectory fs cwd [] path recursive).1,
        (pushDirectory fs cwd ([] : List G.Pattern) path recursive).2) := by
  simp only [pushDirectory]
  rw [pushPattern_append fs cwd list]
  obtain ⟨patterns, ok⟩ := pushPattern fs cwd [] path (escapedPattern G)
  cases ok with
  | false => rfl
  | true =>
    simp only
    rw [pushPattern_append fs cwd (list ++ patterns), pushPattern_append fs cwd patterns,
      append_assoc]

theorem Scope.perform_eq (scope : Scope G) (call : Call) :
    (scope.perform fs cwd call).1 = scope.extend call.forbids (call.pushed fs cwd G) := by
  cases call with
  | allowDirectory =>
    simp only [perform, pushDirectory_append fs cwd scope.allowedPatterns]
    rfl
  | allowFile =>
    simp only [perform, pushFile, pushPattern_append fs cwd scope.allowedPatterns]
    rfl
  | forbidDirectory =>
    simp only [perform, pushDirectory_append fs cwd scope.forbiddenPatterns]
    rfl
  | forbidFile =>
    simp only [perform, pushFile, pushPattern_append fs cwd scope.forbiddenPatterns]
    rfl

variable {fs cwd}

variable {scope : Scope G} {calls : List Call}

theorem Scope.mem_patterns_run {forbids : Bool} {p : G.Pattern} :
    p ∈ (scope.run fs cwd calls).patterns forbids ↔
      p ∈ scope.patterns forbids ∨
        ∃ call ∈ calls, call.forbids = forbids ∧ p ∈ call.pushed fs cwd G := by
  induction calls generalizing scope with
  | nil => simp [run]
  | cons call calls ih =>
    have hrun : scope.run fs cwd (call :: calls) =
        (scope.extend call.forbids (call.pushed fs cwd G)).run fs cwd calls := by
      rw [run, foldl_cons, perform_eq]
      rfl
    rw [hrun, ih, patterns_extend, exists_mem_cons_iff]
    split_ifs with hforb
    · simp only [mem_append, hforb, true_and, or_assoc]
    · simp only [hforb, false_and, false_or]

theorem Scope.matches_run_mono {calls' : List Call} {forbids : Bool}
    (h : ∀ call ∈ calls, call.forbids = forbids → call ∈ calls') {q : Path}
    (hmatch : ∃ p ∈ (scope.run fs cwd calls).patterns forbids,
      G.matchesPathWith p q scope.matchOptions = true) :
    ∃ p ∈ (scope.run fs cwd calls').patterns forbids,
      G.matchesPathWith p q scope.matchOptions = true := by
  obtain ⟨p, hp, hmatch⟩ := hmatch
  refine ⟨p, ?_, hmatch⟩
  rw [mem_patterns_run] at hp ⊢
  refine hp.imp_right ?_
  rintro ⟨call, hcall, hforb, hpushed⟩
  exact ⟨call, h call hcall hforb, hforb, hpushed⟩

/-- A path that is allowed after some calls is allowed after others, with at least the same that
allow and at most the same that forbid. -/
theorem Scope.isAllowed_run_mono {calls' : List Call}
    (hallow : ∀ call ∈ calls, call.forbids = false → call ∈ calls')
    (hforbid : ∀ call ∈ calls', call.forbids = true → call ∈ calls) {path : Path} {slash : Bool}
    (h : (scope.run fs cwd calls).isAllowed fs cwd path slash = true) :
    (scope.run fs cwd calls').isAllowed fs cwd path slash = true := by
  rw [isAllowed_iff, (scope.run_mono fs cwd _).2] at h ⊢
  obtain ⟨q, hq, hforb, hallowed⟩ := h
  refine ⟨q, hq, fun p hp hmatch => ?_, matches_run_mono hallow hallowed⟩
  obtain ⟨p', hp', hmatch'⟩ := matches_run_mono hforbid ⟨p, hp, hmatch⟩
  exact hforb p' hp' hmatch'

/-- **The order of calls.** What is allowed after calls depends on the set of them. A further call
that allows takes no answer back, one that forbids adds none, and no path is both allowed and
forbidden. -/
theorem run_isAllowed (scope : Scope G) (path : Path) (slash : Bool) :
    (∀ calls calls' : List Call, (∀ call, call ∈ calls ↔ call ∈ calls') →
      (scope.run fs cwd calls).isAllowed fs cwd path slash =
        (scope.run fs cwd calls').isAllowed fs cwd path slash) ∧
    (∀ (before after : List Call) (call : Call), call.forbids = false →
      (scope.run fs cwd (before ++ after)).isAllowed fs cwd path slash = true →
      (scope.run fs cwd (before ++ call :: after)).isAllowed fs cwd path slash = true) ∧
    (∀ (before after : List Call) (call : Call), call.forbids = true →
      (scope.run fs cwd (before ++ after)).isAllowed fs cwd path slash = false →
      (scope.run fs cwd (before ++ call :: after)).isAllowed fs cwd path slash = false) ∧
    ∀ calls : List Call, ¬ ((scope.run fs cwd calls).isAllowed fs cwd path slash = true ∧
      (scope.run fs cwd calls).isForbidden fs cwd path slash = true) := by
  -- One more call is the only one that can be new.
  have hsub : ∀ (before after : List Call) (call : Call),
      ∀ c ∈ before ++ after, c ∈ before ++ call :: after := fun before after call c hc =>
    ((sublist_cons_self call after).append_left before).subset hc
  have hnew : ∀ (before after : List Call) (call : Call),
      ∀ c ∈ before ++ call :: after, c.forbids ≠ call.forbids → c ∈ before ++ after := by
    intro before after call c hc hne
    have hne' : c ≠ call := fun h => hne (h ▸ rfl)
    simpa [hne'] using hc
  refine ⟨fun calls calls' hcalls => ?_, fun before after call hcall h => ?_,
    fun before after call hcall h => ?_, fun calls ⟨hallow, hforbidden⟩ => ?_⟩
  · have hmp : ∀ c ∈ calls, c ∈ calls' := fun c => (hcalls c).mp
    have hmpr : ∀ c ∈ calls', c ∈ calls := fun c => (hcalls c).mpr
    rw [Bool.eq_iff_iff]
    exact ⟨Scope.isAllowed_run_mono (fun c hc _ => hmp c hc) fun c hc _ => hmpr c hc,
      Scope.isAllowed_run_mono (fun c hc _ => hmpr c hc) fun c hc _ => hmp c hc⟩
  · refine Scope.isAllowed_run_mono (fun c hc _ => hsub before after call c hc)
      (fun c hc hforb => hnew before after call c hc ?_) h
    simp [hcall, hforb]
  · rw [Bool.eq_false_iff] at h ⊢
    refine fun hallow => h (Scope.isAllowed_run_mono
      (fun c hc hforb => hnew before after call c hc ?_)
      (fun c hc _ => hsub before after call c hc) hallow)
    simp [hcall, hforb]
  · obtain ⟨q, hq, hnone, -⟩ := Scope.isAllowed_iff.mp hallow
    rw [Scope.isForbidden, hq, any_eq_true] at hforbidden
    obtain ⟨p, hp, hmatch⟩ := hforbidden
    exact hnone p hp hmatch

end Order

/-- `/d/x` is forbidden before or after `/d` is allowed. -/
theorem sample_run_isAllowed :
    (Sample.scope.run Sample.bytes [] [.allowDirectory (.ofLocation [Sample.dir]) true,
      .forbidFile (.ofLocation [Sample.dir, Sample.file])]).isAllowed Sample.bytes []
        (.ofLocation [Sample.dir, Sample.file]) false =
      (Sample.scope.run Sample.bytes [] [.forbidFile (.ofLocation [Sample.dir, Sample.file]),
        .allowDirectory (.ofLocation [Sample.dir]) true]).isAllowed Sample.bytes []
          (.ofLocation [Sample.dir, Sample.file]) false :=
  (run_isAllowed scope _ false).1 _ _ fun _ => by
    rw [mem_pair, mem_pair, or_comm]

end Tauri.Fs
