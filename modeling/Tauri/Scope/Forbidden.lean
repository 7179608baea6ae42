import Tauri.Scope.Fs

/-!
# Forbidden paths

What `forbid_file` and `forbid_directory` are documented for: a forbidden path is denied **always**,
also where it is allowed. The patterns of a forbidden directory are matched with the options of the
scope, by which on Unix a wildcard matches no leading dot; `forbidden_denied_iff` says that dots are
the only way out.
-/

namespace Tauri.Fs

open Rust List

/-- The calls that forbid a location, given by the path of `d`: the location itself, or one below a
directory. -/
inductive Forbids : Call → Location → Location → Prop
  | file (d : Location) : Forbids (.forbidFile (.ofLocation d)) d d
  | recursive {d loc : Location} (h : d <+: loc) :
      Forbids (.forbidDirectory (.ofLocation d) true) d loc
  | self (d : Location) : Forbids (.forbidDirectory (.ofLocation d) false) d d
  | child (d : Location) (nm : Name) :
      Forbids (.forbidDirectory (.ofLocation d) false) d (d ++ [nm])

section Forbidden

variable {G : Glob} {fs : FileSystem} {cwd d loc : Location} {call : Call}

theorem ofLocation_append (d names : Location) :
    Path.ofLocation (d ++ names) = (Path.ofLocation d).join (names.map .normal) := by
  simp [Path.ofLocation, Path.join]

open FileSystem

theorem tryResolveSymlinkAndCanonicalize_ofLocation (h : fs.Canonical loc) (slash : Bool) :
    tryResolveSymlinkAndCanonicalize fs cwd (.ofLocation loc) slash = some (.ofLocation loc) := by
  rw [tryResolveSymlinkAndCanonicalize, resolveSymlink, readLink_ofLocation h]
  rcases lookup_ofLocation h true cwd slash with hlookup | hlookup
  · simp [pathExists, canonicalize, hlookup]
  · simp [pathExists, hlookup]

theorem Forbids.exists_names (h : Forbids call d loc) : call.forbids = true ∧
    call.path = .ofLocation d ∧ ∃ names, loc = d ++ names ∧ (names ≠ [] →
      ∃ recursive, call = .forbidDirectory (.ofLocation d) recursive ∧
        (recursive = false → names.length = 1)) := by
  cases h with
  | file | self => exact ⟨rfl, rfl, [], by simp, by simp⟩
  | recursive hpre =>
    obtain ⟨names, rfl⟩ := hpre
    exact ⟨rfl, rfl, names, rfl, fun _ => ⟨true, rfl, by simp⟩⟩
  | child => exact ⟨rfl, rfl, _, rfl, fun _ => ⟨false, rfl, by simp⟩⟩

theorem Forbids.covers_iff (h : Forbids call d loc) (hd : fs.Canonical d) {leadingDot : Bool} :
    Covers fs cwd leadingDot call (.ofLocation loc) ↔
      (leadingDot = true → ∀ nm ∈ loc.drop d.length, ¬ Hidden (.normal nm)) := by
  obtain ⟨-, hpath, names, rfl, hcall⟩ := h.exists_names
  rw [drop_left, Covers, hpath, ofLocation_append]
  constructor
  · rintro ⟨f, hf, cs, hjoin, -, hdots⟩ hlead nm hnm
    rw [forms_ofLocation hd f hf] at hjoin
    refine hdots hlead _ ?_
    rw [← (Path.join_injective _) hjoin]
    exact mem_map_of_mem hnm
  · intro hdots
    refine ⟨.ofLocation d, mem_cons_self, names.map .normal, rfl, fun hne => ?_,
      fun hlead c hc => ?_⟩
    · obtain ⟨recursive, rfl, hlen⟩ := hcall (by simpa using hne)
      exact ⟨recursive, rfl, by simpa using hlen⟩
    · obtain ⟨nm, hnm, rfl⟩ := mem_map.mp hc
      exact hdots hlead nm hnm

/-- **Forbidden paths.** A location that a successful call forbids is denied by every scope,
whatever it allows, exactly if a leading dot need not be matched literally, or the text of the
location is no valid UTF-8, or no name on the way from the forbidden directory to it begins with a
dot. -/
theorem forbidden_denied_iff (laws : G.Laws) (hforbids : Forbids call d loc)
    (hd : fs.Canonical d) (hloc : fs.Canonical loc) (leadingDot : Bool) :
    (∀ (scope : Scope G) (before after : List Call),
      scope.requireLiteralLeadingDot = leadingDot →
      ((scope.run fs cwd before).perform fs cwd call).2 = true →
      ∀ slash, (scope.run fs cwd (before ++ call :: after)).isAllowed fs cwd (.ofLocation loc)
        slash = false) ↔
    (leadingDot = true → toStr (Path.ofLocation loc).text ≠ none →
      ∀ nm ∈ loc.drop d.length, ¬ Hidden (.normal nm)) := by
  obtain ⟨hforbidding, hpath, names, hnames, -⟩ := hforbids.exists_names
  have hproper : toStr (Path.ofLocation loc).text ≠ none → Proper fs cwd call.path := by
    intro htext
    rw [hnames, ofLocation_append] at htext
    obtain ⟨s, hs⟩ := toStr_of_join (ofLocation_ne_empty d) htext
    rw [hpath]
    exact proper_ofLocation hd (by simp [hs])
  constructor
  · rintro hden rfl htext
    have hcov : Covers fs cwd true call (.ofLocation loc) := by
      by_contra hnot
      -- A scope that allows the file of the location first allows it in spite of the call.
      let empty : Scope G := ⟨[], [], true⟩
      have hcalls : ∀ c ∈ [.allowFile (.ofLocation loc), call], Proper fs cwd c.path := by
        intro c hc
        rcases mem_pair.mp hc with rfl | rfl
        · exact proper_ofLocation hloc htext
        · exact hproper htext
      have hself : Covers fs cwd true (.allowFile (.ofLocation loc)) (.ofLocation loc) :=
        ⟨_, mem_cons_self, [], (Path.join_nil _).symm, by simp, by simp⟩
      have hallow := (Scope.isAllowed_run_iff laws hcalls).mpr ⟨_,
        tryResolveSymlinkAndCanonicalize_ofLocation hloc false, htext,
        by simpa [Call.forbids] using fun _ => hnot, _, mem_cons_self, rfl, hself⟩
      obtain ⟨patterns, ok, hperform, hpush⟩ :=
        (empty.run fs cwd [.allowFile (.ofLocation loc)]).exists_perform fs cwd call
      have hok : ok = true := hpush.ok_eq_true laws
      have hdeny := hden empty [.allowFile (.ofLocation loc)] [] rfl (by rw [hperform, hok])
        false
      exact Bool.eq_false_iff.mp hdeny hallow
    exact (hforbids.covers_iff hd).mp hcov rfl
  · intro hdots scope before after hlead _ slash
    obtain ⟨patterns, ok, hpush, hsub⟩ := scope.exists_pushes_run fs cwd before after hforbidding
    have hopt : (scope.run fs cwd (before ++ call :: after)).matchOptions = ⟨true, leadingDot⟩ := by
      rw [(scope.run_mono fs cwd _).2, Scope.matchOptions, hlead]
    rw [Bool.eq_false_iff]
    intro hallow
    obtain ⟨q, hq, hforb, pattern, -, hmatch⟩ := Scope.isAllowed_iff.mp hallow
    rw [tryResolveSymlinkAndCanonicalize_ofLocation hloc] at hq
    cases hq
    have htext : toStr (Path.ofLocation loc).text ≠ none := by
      intro hnone
      simp [Glob.matchesPathWith, hnone] at hmatch
    have hcov : Covers fs cwd leadingDot call (.ofLocation loc) :=
      (hforbids.covers_iff hd).mpr fun hleadingDot => hdots hleadingDot htext
    obtain ⟨pattern', hmem, hmatch'⟩ := (hpush.matching_iff laws (hproper htext) htext).mpr hcov
    exact hforb pattern' (hsub hmem) (by rw [hopt]; exact hmatch')

end Forbidden

namespace Sample

def hidden : Name := ⟨[.char '.', .char 'x'], by decide, by decide, by decide, by decide⟩

/-- The directory `/d` with the files `x` and `.x`. -/
def tree : FileSystem where
  node loc :=
    if loc = [] ∨ loc = [dir] then some .dir
    else if loc = [dir, file] ∨ loc = [dir, hidden] then some .file
    else none
  root := rfl
  maxLinks := 40

theorem canonical_tree {loc : Location}
    (h : tree.walk true 0 (loc.map .normal) [] = some (.found loc)) : tree.Canonical loc :=
  (FileSystem.walk_eq_some.mp h).canonical (FileSystem.isDir_nil tree)

end Sample

open Sample

/-- With `/d` forbidden after `/d/x` was allowed, `/d/x` is denied. -/
theorem sample_forbidden_denied :
    (Sample.scope.run Sample.tree [] [.allowFile (.ofLocation [Sample.dir, Sample.file]),
      .forbidDirectory (.ofLocation [Sample.dir]) true]).isAllowed Sample.tree []
        (.ofLocation [Sample.dir, Sample.file]) false = false := by
  have hforb : Forbids (.forbidDirectory (.ofLocation [dir]) true) [dir]
      [dir, file] := .recursive (prefix_append _ _)
  have hplain : ∀ nm ∈ [dir, file].drop [dir].length,
      ¬ Hidden (.normal nm) := by decide
  exact (forbidden_denied_iff glob_laws hforb (canonical_tree rfl)
    (canonical_tree rfl) true).mpr (fun _ _ => hplain) scope
      [.allowFile (.ofLocation [dir, file])] [] rfl rfl false

/-- With `/d` forbidden after `/d/.x` was allowed, `/d/.x` stays allowed: the pattern `/d/**` does
not match it. -/
theorem sample_hidden_not_denied :
    Sample.glob.Laws ∧
      Forbids (.forbidDirectory (.ofLocation [Sample.dir]) true) [Sample.dir]
        [Sample.dir, Sample.hidden] ∧
      Sample.tree.Canonical [Sample.dir] ∧ Sample.tree.Canonical [Sample.dir, Sample.hidden] ∧
      ((Sample.scope.run Sample.tree []
        [.allowFile (.ofLocation [Sample.dir, Sample.hidden])]).perform Sample.tree []
          (.forbidDirectory (.ofLocation [Sample.dir]) true)).2 = true ∧
      (Sample.scope.run Sample.tree [] [.allowFile (.ofLocation [Sample.dir, Sample.hidden]),
        .forbidDirectory (.ofLocation [Sample.dir]) true]).isAllowed Sample.tree []
          (.ofLocation [Sample.dir, Sample.hidden]) false = true :=
  ⟨glob_laws, .recursive (prefix_append _ _), canonical_tree rfl,
    canonical_tree rfl, rfl, rfl⟩

end Tauri.Fs
