import Tauri.Rust.FileSystem

/-!
# The file system scope

`scope::fs::Scope`: glob patterns of paths that are allowed and of paths that are forbidden. The
functions `allow_file`, `allow_directory`, `forbid_file` and `forbid_directory` turn a path into
patterns: the escaped path as it is given and as far as it can be canonicalised, for a directory
also with `*` or `**` below it. `is_allowed` looks the path up in both lists, after resolving a
link and canonicalising, where the path exists.

The `glob` crate is a parameter (`Glob`), of which what its documentation says is assumed
(`Glob.Laws`). The platform is Unix.
-/

namespace Tauri.Fs

open Rust List

/-! ### The glob crate -/

/-- The `MatchOptions` of `glob`; matching is case sensitive. -/
structure MatchOptions where
  requireLiteralSeparator : Bool
  requireLiteralLeadingDot : Bool

/-- What the scope uses of `glob`: `Pattern::new`, `Pattern::escape`, `Pattern::matches_with`. -/
structure Glob where
  Pattern : Type
  new : List Char → Option Pattern
  escape : List Char → List Char
  matchesWith : Pattern → List Char → MatchOptions → Bool

/-- What `**` at the end of a pattern matches, or `*` if not `recursive`, when separators are only
matched literally: a text of any components, or of one; where a leading dot has to be matched
literally too, of components that begin with no dot. -/
def Matched (recursive leadingDot : Bool) (r : List Char) : Prop :=
  (recursive = false → '/' ∉ r) ∧
    (leadingDot = true → ∀ s ∈ r.splitOn '/', s.head? ≠ some '.')

/-- The text of the wildcard. -/
def wildcard (recursive : Bool) : List Char := if recursive then ['*', '*'] else ['*']

/-- The documentation of `glob`, for the patterns the scope builds. -/
structure Glob.Laws (G : Glob) : Prop where
  /-- An escaped string, compiled into a pattern, matches the string and nothing else. -/
  escape : ∀ s, ∃ p, G.new (G.escape s) = some p ∧
    ∀ t o, G.matchesWith p t o = true ↔ t = s
  /-- The separator is no metacharacter. -/
  escape_separator : ∀ s, G.escape (s ++ ['/']) = G.escape s ++ ['/']
  /-- A wildcard that is the last component. -/
  wildcard : ∀ s recursive, ∃ p, G.new (G.escape s ++ '/' :: wildcard recursive) = some p ∧
    ∀ t leadingDot, G.matchesWith p t ⟨true, leadingDot⟩ = true ↔
      ∃ r, t = s ++ '/' :: r ∧ Matched recursive leadingDot r

/-- `Pattern::matches_path_with`. -/
def Glob.matchesPathWith (G : Glob) (p : G.Pattern) (path : Path) (options : MatchOptions) : Bool :=
  match toStr path.text with
  | none => false
  | some t => G.matchesWith p t options

/-! ### The scope -/

/-- `Scope`, without its event listeners. -/
structure Scope (G : Glob) where
  allowedPatterns : List G.Pattern
  forbiddenPatterns : List G.Pattern
  requireLiteralLeadingDot : Bool

/-- The `match_options` that `Scope::new` sets. -/
def Scope.matchOptions {G : Glob} (scope : Scope G) : MatchOptions :=
  ⟨true, scope.requireLiteralLeadingDot⟩

/-- `escaped_pattern`. -/
def escapedPattern (G : Glob) (p : List Char) : Option G.Pattern := G.new (G.escape p)

/-- `escaped_pattern_with`. -/
def escapedPatternWith (G : Glob) (p append : List Char) : Option G.Pattern :=
  if p.getLast? = some '/' then G.new (G.escape p ++ append)
  else G.new (G.escape p ++ ['/'] ++ append)

section Operations

variable (fs : FileSystem) (cwd : Location)

/-- The loop of `canonicalize_parent`: the components of the path in reverse, and those that
failed. -/
def canonicalizeParentLoop (anchor : Anchor) : List Component → List Component → Option Path
  | [], failed => (fs.canonicalize cwd ⟨anchor, []⟩ false).map fun path => path.join failed
  | last :: rev, failed =>
    match fs.canonicalize cwd ⟨anchor, (last :: rev).reverse⟩ false with
    | some path => some (path.join failed)
    | none => canonicalizeParentLoop anchor rev (last :: failed)

/-- `canonicalize_parent`. -/
def canonicalizeParent (path : Path) : Option Path :=
  canonicalizeParentLoop fs cwd path.anchor path.components.reverse []

/-- `push_pattern`, with the list as it is left on failure too. -/
def pushPattern {P : Type} (list : List P) (path : Path) (f : List Char → Option P) :
    List P × Bool :=
  match f (toStringLossy path.text) with
  | none => (list, false)
  | some pattern =>
    let list := list ++ [pattern]
    match canonicalizeParent fs cwd path with
    | none => (list, true)
    | some p =>
      match f (toStringLossy p.text) with
      | none => (list, false)
      | some pattern => (list ++ [pattern], true)

variable {G : Glob}

/-- The patterns that `allow_file` and `forbid_file` push. -/
def pushFile (list : List G.Pattern) (path : Path) : List G.Pattern × Bool :=
  pushPattern fs cwd list path (escapedPattern G)

/-- The patterns that `allow_directory` and `forbid_directory` push. -/
def pushDirectory (list : List G.Pattern) (path : Path) (recursive : Bool) :
    List G.Pattern × Bool :=
  match pushPattern fs cwd list path (escapedPattern G) with
  | (list, false) => (list, false)
  | (list, true) =>
    pushPattern fs cwd list path fun p => escapedPatternWith G p (wildcard recursive)

/-- A call that changes the scope. -/
inductive Call where
  | allowDirectory (path : Path) (recursive : Bool)
  | allowFile (path : Path)
  | forbidDirectory (path : Path) (recursive : Bool)
  | forbidFile (path : Path)

/-- `allow_directory`, `allow_file`, `forbid_directory` and `forbid_file`: the scope after the
call, and whether it succeeded. -/
def Scope.perform (scope : Scope G) : Call → Scope G × Bool
  | .allowDirectory path recursive =>
    let (list, ok) := pushDirectory fs cwd scope.allowedPatterns path recursive
    ({ scope with allowedPatterns := list }, ok)
  | .allowFile path =>
    let (list, ok) := pushFile fs cwd scope.allowedPatterns path
    ({ scope with allowedPatterns := list }, ok)
  | .forbidDirectory path recursive =>
    let (list, ok) := pushDirectory fs cwd scope.forbiddenPatterns path recursive
    ({ scope with forbiddenPatterns := list }, ok)
  | .forbidFile path =>
    let (list, ok) := pushFile fs cwd scope.forbiddenPatterns path
    ({ scope with forbiddenPatterns := list }, ok)

/-- A sequence of calls. -/
def Scope.run (scope : Scope G) (calls : List Call) : Scope G :=
  calls.foldl (fun scope call => (scope.perform fs cwd call).1) scope

/-- The path that `try_resolve_symlink_and_canonicalize` goes on with: the target of a link, as the
link has it. -/
def resolveSymlink (path : Path) (slash : Bool) : Path × Bool :=
  match fs.readLink cwd path slash with
  | some target => (target, false)
  | none => (path, slash)

/-- `try_resolve_symlink_and_canonicalize`. -/
def tryResolveSymlinkAndCanonicalize (path : Path) (slash : Bool) : Option Path :=
  let (path, slash) := resolveSymlink fs cwd path slash
  if !fs.pathExists cwd path slash then some path else fs.canonicalize cwd path slash

/-- `is_allowed`, of a path that may have a separator after its last component. -/
def Scope.isAllowed (scope : Scope G) (path : Path) (slash : Bool) : Bool :=
  match tryResolveSymlinkAndCanonicalize fs cwd path slash with
  | none => false
  | some path =>
    if scope.forbiddenPatterns.any fun p => G.matchesPathWith p path scope.matchOptions then false
    else scope.allowedPatterns.any fun p => G.matchesPathWith p path scope.matchOptions

/-- `is_forbidden`. -/
def Scope.isForbidden (scope : Scope G) (path : Path) (slash : Bool) : Bool :=
  match tryResolveSymlinkAndCanonicalize fs cwd path slash with
  | none => true
  | some path => scope.forbiddenPatterns.any fun p => G.matchesPathWith p path scope.matchOptions

end Operations

/-! ### The lists of patterns -/

section Lists

variable {G : Glob}

/-- The paths that a given path is turned into patterns as. -/
def forms (fs : FileSystem) (cwd : Location) (path : Path) : List Path :=
  path :: (canonicalizeParent fs cwd path).toList

namespace Call

def path : Call → Path
  | allowDirectory path _ | allowFile path | forbidDirectory path _ | forbidFile path => path

def forbids : Call → Bool
  | allowDirectory _ _ | allowFile _ => false
  | forbidDirectory _ _ | forbidFile _ => true

/-- For a directory, whether its subdirectories are included. -/
def recursive : Call → Option Bool
  | allowDirectory _ recursive | forbidDirectory _ recursive => some recursive
  | allowFile _ | forbidFile _ => none

/-- The functions that turn a path into patterns. -/
def builders (G : Glob) (call : Call) : List (List Char → Option G.Pattern) :=
  escapedPattern G ::
    (call.recursive.map fun recursive p => escapedPatternWith G p (wildcard recursive)).toList

end Call

variable {fs : FileSystem} {cwd : Location} {list : List G.Pattern} {path : Path}

/-- What pushing patterns of a path does, for some functions that build them: it appends such
patterns, all of them if it succeeds, and fails if one is not valid. -/
structure Pushes (fs : FileSystem) (cwd : Location) (path : Path)
    (fns : List (List Char → Option G.Pattern)) (patterns : List G.Pattern) (ok : Bool) : Prop where
  sound : ∀ pattern ∈ patterns, ∃ p ∈ forms fs cwd path, ∃ f ∈ fns,
    f (toStringLossy p.text) = some pattern
  complete : ok = true → ∀ p ∈ forms fs cwd path, ∀ f ∈ fns, ∃ pattern ∈ patterns,
    f (toStringLossy p.text) = some pattern
  fails : ok = false → ∃ p ∈ forms fs cwd path, ∃ f ∈ fns, f (toStringLossy p.text) = none

theorem Pushes.append {fns fns' : List (List Char → Option G.Pattern)}
    {patterns patterns' : List G.Pattern} {ok : Bool} (h : Pushes fs cwd path fns patterns true)
    (h' : Pushes fs cwd path fns' patterns' ok) :
    Pushes fs cwd path (fns ++ fns') (patterns ++ patterns') ok where
  sound := by
    intro pattern hpat
    rcases mem_append.mp hpat with hpat | hpat
    · obtain ⟨p, hp, f, hf, hfp⟩ := h.sound pattern hpat
      exact ⟨p, hp, f, mem_append_left _ hf, hfp⟩
    · obtain ⟨p, hp, f, hf, hfp⟩ := h'.sound pattern hpat
      exact ⟨p, hp, f, mem_append_right _ hf, hfp⟩
  complete := by
    intro hok p hp f hf
    rcases mem_append.mp hf with hf | hf
    · obtain ⟨pattern, hpat, hfp⟩ := h.complete rfl p hp f hf
      exact ⟨pattern, mem_append_left _ hpat, hfp⟩
    · obtain ⟨pattern, hpat, hfp⟩ := h'.complete hok p hp f hf
      exact ⟨pattern, mem_append_right _ hpat, hfp⟩
  fails := by
    intro hok
    obtain ⟨p, hp, f, hf, hfp⟩ := h'.fails hok
    exact ⟨p, hp, f, mem_append_right _ hf, hfp⟩

theorem Pushes.append_of_fails {fns : List (List Char → Option G.Pattern)}
    {patterns : List G.Pattern} (h : Pushes fs cwd path fns patterns false)
    (fns' : List (List Char → Option G.Pattern)) :
    Pushes fs cwd path (fns ++ fns') patterns false where
  sound := by
    intro pattern hpat
    obtain ⟨p, hp, f, hf, hfp⟩ := h.sound pattern hpat
    exact ⟨p, hp, f, mem_append_left _ hf, hfp⟩
  complete := by simp
  fails := by
    intro _
    obtain ⟨p, hp, f, hf, hfp⟩ := h.fails rfl
    exact ⟨p, hp, f, mem_append_left _ hf, hfp⟩

variable (fs cwd list path)

theorem exists_pushPattern (f : List Char → Option G.Pattern) : ∃ patterns ok,
    pushPattern fs cwd list path f = (list ++ patterns, ok) ∧
      Pushes fs cwd path [f] patterns ok := by
  rw [pushPattern]
  cases hpath : f (toStringLossy path.text) with
  | none => exact ⟨[], false, by simp, by simp, by simp, by simp [forms, hpath]⟩
  | some pattern =>
    cases hcan : canonicalizeParent fs cwd path with
    | none =>
      exact ⟨[pattern], true, rfl, by simp [forms, hpath], by simp [forms, hcan, hpath],
        by simp⟩
    | some p =>
      cases hp : f (toStringLossy p.text) with
      | none =>
        exact ⟨[pattern], false, by simp [hp], by simp [forms, hpath], by simp,
          by simp [forms, hcan, hp]⟩
      | some pattern' =>
        exact ⟨[pattern, pattern'], true, by simp [hp], by simp [forms, hcan, hpath, hp],
          by simp [forms, hcan, hpath, hp], by simp⟩

theorem exists_pushDirectory (recursive : Bool) : ∃ patterns ok,
    pushDirectory fs cwd list path recursive = (list ++ patterns, ok) ∧
      Pushes fs cwd path
        [escapedPattern G, fun p => escapedPatternWith G p (wildcard recursive)] patterns ok := by
  obtain ⟨patterns, ok, heq, hpush⟩ := exists_pushPattern fs cwd list path (escapedPattern G)
  rw [pushDirectory, heq]
  cases ok with
  | false => exact ⟨patterns, false, rfl, hpush.append_of_fails _⟩
  | true =>
    obtain ⟨patterns', ok, heq', hpushes'⟩ := exists_pushPattern fs cwd (list ++ patterns) path
      fun p => escapedPatternWith G p (wildcard recursive)
    rw [append_assoc] at heq'
    exact ⟨patterns ++ patterns', ok, heq', hpush.append hpushes'⟩

variable {fs cwd list path}

/-- The scope with more patterns in one of its lists. -/
def Scope.extend (scope : Scope G) (forbids : Bool) (patterns : List G.Pattern) : Scope G :=
  if forbids then { scope with forbiddenPatterns := scope.forbiddenPatterns ++ patterns }
  else { scope with allowedPatterns := scope.allowedPatterns ++ patterns }

theorem Scope.exists_perform (fs : FileSystem) (cwd : Location) (scope : Scope G) (call : Call) :
    ∃ patterns ok, scope.perform fs cwd call = (scope.extend call.forbids patterns, ok) ∧
      Pushes fs cwd call.path (call.builders G) patterns ok := by
  cases call with
  | allowDirectory path recursive =>
    obtain ⟨patterns, ok, heq, hpush⟩ :=
      exists_pushDirectory fs cwd scope.allowedPatterns path recursive
    exact ⟨patterns, ok, by simp only [perform, heq]; rfl, hpush⟩
  | allowFile path =>
    obtain ⟨patterns, ok, heq, hpush⟩ :=
      exists_pushPattern fs cwd scope.allowedPatterns path (escapedPattern G)
    exact ⟨patterns, ok, by simp only [perform, pushFile, heq]; rfl, hpush⟩
  | forbidDirectory path recursive =>
    obtain ⟨patterns, ok, heq, hpush⟩ :=
      exists_pushDirectory fs cwd scope.forbiddenPatterns path recursive
    exact ⟨patterns, ok, by simp only [perform, heq]; rfl, hpush⟩
  | forbidFile path =>
    obtain ⟨patterns, ok, heq, hpush⟩ :=
      exists_pushPattern fs cwd scope.forbiddenPatterns path (escapedPattern G)
    exact ⟨patterns, ok, by simp only [perform, pushFile, heq]; rfl, hpush⟩

theorem Scope.run_mono (fs : FileSystem) (cwd : Location) (scope : Scope G) (calls : List Call) :
    scope.forbiddenPatterns ⊆ (scope.run fs cwd calls).forbiddenPatterns ∧
      (scope.run fs cwd calls).matchOptions = scope.matchOptions := by
  induction calls generalizing scope with
  | nil => exact ⟨Subset.refl _, rfl⟩
  | cons call calls ih =>
    obtain ⟨patterns, ok, heq, -⟩ := scope.exists_perform fs cwd call
    obtain ⟨hsub, hopt⟩ := ih (scope.extend call.forbids patterns)
    rw [run, foldl_cons, heq]
    cases hforb : call.forbids with
    | false =>
      rw [hforb] at hsub hopt
      exact ⟨hsub, hopt⟩
    | true =>
      rw [hforb] at hsub hopt
      exact ⟨Subset.trans (subset_append_left _ _) hsub, hopt⟩

theorem Scope.run_append (scope : Scope G) (calls calls' : List Call) :
    scope.run fs cwd (calls ++ calls') = (scope.run fs cwd calls).run fs cwd calls' :=
  foldl_append

theorem Scope.exists_pushes_run (fs : FileSystem) (cwd : Location) (scope : Scope G)
    (before after : List Call) {call : Call} (hforb : call.forbids = true) :
    ∃ patterns ok, Pushes fs cwd call.path (call.builders G) patterns ok ∧
      patterns ⊆ (scope.run fs cwd (before ++ call :: after)).forbiddenPatterns := by
  obtain ⟨patterns, ok, hperform, hpush⟩ := (scope.run fs cwd before).exists_perform fs cwd call
  refine ⟨patterns, ok, hpush, ?_⟩
  have hrun : scope.run fs cwd (before ++ call :: after) =
      ((scope.run fs cwd before).extend true patterns).run fs cwd after := by
    rw [run_append, run, foldl_cons, hperform, hforb]
    rfl
  rw [hrun]
  exact Subset.trans (subset_append_right _ _)
    (((scope.run fs cwd before).extend true patterns).run_mono fs cwd after).1

theorem Scope.isAllowed_iff {scope : Scope G} {slash : Bool} :
    scope.isAllowed fs cwd path slash = true ↔
      ∃ q, tryResolveSymlinkAndCanonicalize fs cwd path slash = some q ∧
        (∀ p ∈ scope.forbiddenPatterns, ¬ G.matchesPathWith p q scope.matchOptions = true) ∧
        ∃ p ∈ scope.allowedPatterns, G.matchesPathWith p q scope.matchOptions = true := by
  rw [isAllowed]
  cases tryResolveSymlinkAndCanonicalize fs cwd path slash <;> simp

end Lists

/-! ### What the patterns match -/

section Matching

variable {G : Glob} {path q : Path}

open Path

theorem exists_escapedPattern (laws : G.Laws) (path : Path) :
    ∃ pattern, escapedPattern G (toStringLossy path.text) = some pattern ∧
      ∀ q options, G.matchesPathWith pattern q options = true ↔ q = path.lossy := by
  have htext := toStr_eq_some.mp path.toStr_lossy
  obtain ⟨pattern, hnew, hmat⟩ := laws.escape (toStringLossy path.text)
  refine ⟨pattern, hnew, fun q options => ?_⟩
  rw [Glob.matchesPathWith]
  cases hq : toStr q.text with
  | none =>
    refine iff_of_false (by simp) ?_
    rintro rfl
    rw [path.toStr_lossy] at hq
    cases hq
  | some t =>
    have hqtext := toStr_eq_some.mp hq
    simp only [hmat]
    constructor
    · rintro rfl
      exact text_injective (hqtext.trans htext.symm)
    · rintro rfl
      exact map_char_injective (hqtext.symm.trans htext)

/-- The pattern of a directory with a wildcard matches what continues the stem of the directory, as
it is shown. -/
theorem exists_escapedPatternWith (laws : G.Laws) (path : Path) (recursive : Bool) :
    ∃ pattern, escapedPatternWith G (toStringLossy path.text) (wildcard recursive) =
        some pattern ∧
      ∀ q leadingDot, G.matchesPathWith pattern q ⟨true, leadingDot⟩ = true ↔
        ∃ r : List Char, q.text = path.lossy.stem ++ .char '/' :: r.map .char ∧
          Matched recursive leadingDot r := by
  have htext := toStr_eq_some.mp path.toStr_lossy
  -- The text before the separator in the pattern is the stem.
  obtain ⟨s', hstem, hpat⟩ : ∃ s' : List Char, path.lossy.stem = s'.map .char ∧
      escapedPatternWith G (toStringLossy path.text) (wildcard recursive) =
        G.new (G.escape s' ++ '/' :: wildcard recursive) := by
    generalize toStringLossy path.text = s at htext
    rw [escapedPatternWith]
    by_cases hroot : path.lossy = .root
    · obtain rfl : s = ['/'] := by
        rw [hroot] at htext
        exact map_char_injective htext.symm
      refine ⟨[], by rw [hroot]; rfl, ?_⟩
      have hescape := laws.escape_separator []
      rw [nil_append] at hescape
      have hlast : ['/'].getLast? = some '/' := rfl
      rw [if_pos hlast, hescape, append_assoc]
      rfl
    · refine ⟨s, by rw [← htext, text, if_neg hroot], ?_⟩
      have hlast : ¬ s.getLast? = some '/' := by
        intro hlast
        obtain ⟨t, rfl⟩ := getLast?_eq_some_iff.mp hlast
        rw [map_append] at htext
        exact hroot (eq_root_of_text htext)
      rw [if_neg hlast, append_assoc]
      rfl
  obtain ⟨pattern, hnew, hmat⟩ := laws.wildcard s' recursive
  refine ⟨pattern, hpat.trans hnew, fun q leadingDot => ?_⟩
  rw [Glob.matchesPathWith, hstem]
  have hcont : ∀ r : List Char, (s'.map OsChar.char ++ .char '/' :: r.map .char) =
      (s' ++ '/' :: r).map .char := by simp
  cases hq : toStr q.text with
  | none =>
    refine iff_of_false (by simp) ?_
    rintro ⟨r, hr, -⟩
    rw [hcont] at hr
    rw [toStr_eq_some.mpr hr] at hq
    cases hq
  | some t =>
    have hqtext := toStr_eq_some.mp hq
    simp only [hmat, hqtext, hcont, map_char_injective.eq_iff]

/-- A component that begins with a dot. -/
def Hidden (c : Component) : Prop := c.text.head? = some (.char '.')

instance (c : Component) : Decidable (Hidden c) := inferInstanceAs (Decidable (_ = _))

variable {cs : List Component}

theorem toStr_of_join (hpath : path ≠ .empty) (h : toStr (path.join cs).text ≠ none) :
    ∃ s, toStr path.text = some s := by
  obtain ⟨t, ht⟩ := Option.ne_none_iff_exists'.mp h
  by_cases hcs : cs = []
  · rw [hcs, join_nil] at ht
    exact ⟨t, ht⟩
  have htext := toStr_eq_some.mp ht
  rw [text_join hpath hcs] at htext
  obtain ⟨s, -, -, hs, -⟩ := map_eq_append_iff.mp htext.symm
  by_cases hroot : path = .root
  · exact ⟨['/'], by rw [hroot]; rfl⟩
  · exact ⟨s, toStr_eq_some.mpr (by rw [text, if_neg hroot, hs])⟩

theorem leadingDots_iff (hcs : cs ≠ []) {r : List Char} (hr : r.map .char = Path.below cs) :
    (∀ s ∈ r.splitOn '/', s.head? ≠ some '.') ↔ ∀ c ∈ cs, ¬ Hidden c := by
  have hsegs : (r.splitOn '/').map (map OsChar.char) = cs.map Component.text := by
    rw [← splitOn_map_char, hr, splitOn_below hcs]
  have hhead : ∀ s : List Char, (s.map OsChar.char).head? = some (.char '.') ↔
      s.head? = some '.' := by
    intro s
    cases s <;> simp
  constructor
  · intro h c hc hhidden
    have hin : c.text ∈ (r.splitOn '/').map (map OsChar.char) := by
      rw [hsegs]
      exact mem_map_of_mem hc
    obtain ⟨s, hs, hseg⟩ := mem_map.mp hin
    rw [Hidden, ← hseg, hhead] at hhidden
    exact h s hs hhidden
  · intro h s hs hdot
    have hin : s.map OsChar.char ∈ cs.map Component.text := by
      rw [← hsegs]
      exact mem_map_of_mem hs
    obtain ⟨c, hc, hseg⟩ := mem_map.mp hin
    refine h c hc ?_
    rw [Hidden, hseg, hhead]
    exact hdot

theorem separator_notMem_iff (hcs : cs ≠ []) {r : List Char} (hr : r.map .char = Path.below cs) :
    '/' ∉ r ↔ cs.length = 1 := by
  constructor
  · intro hr'
    have hsegs : (r.splitOn '/').map (map OsChar.char) = cs.map Component.text := by
      rw [← splitOn_map_char, hr, splitOn_below hcs]
    have hone : r.splitOn '/' = [r] := by
      have hsplit : (['/'].intercalate [r]).splitOn '/' = [r] :=
        splitOn_intercalate '/' (by simpa using hr') (by simp)
      simpa using hsplit
    rw [hone] at hsegs
    simpa using (congrArg length hsegs).symm
  · intro hone hin
    obtain ⟨c, rfl⟩ := length_eq_one_iff.mp hone
    have hmem : OsChar.char '/' ∈ r.map .char := mem_map_of_mem hin
    rw [hr] at hmem
    exact c.separator_notMem_text (by simpa [below] using hmem)

/-- The pattern with the wildcard of a directory matches what lies below it, unless a dot is in the
way. -/
theorem matchesPathWith_join_iff (laws : G.Laws) (hpath : path ≠ .empty) (hcs : cs ≠ [])
    (htext : toStr (path.lossy.join cs).text ≠ none) {recursive leadingDot : Bool}
    {pattern : G.Pattern}
    (hpat : escapedPatternWith G (toStringLossy path.text) (wildcard recursive) =
      some pattern) :
    G.matchesPathWith pattern (path.lossy.join cs) ⟨true, leadingDot⟩ = true ↔
      (recursive = false → cs.length = 1) ∧ (leadingDot = true → ∀ c ∈ cs, ¬ Hidden c) := by
  obtain ⟨pattern', hpat', hmat⟩ := exists_escapedPatternWith laws path recursive
  obtain rfl : pattern = pattern' := Option.some.inj (hpat.symm.trans hpat')
  have hjoin := text_join (lossy_ne_empty hpath) hcs
  have hmatched : ∀ r : List Char, r.map .char = below cs → (Matched recursive leadingDot r ↔
      (recursive = false → cs.length = 1) ∧ (leadingDot = true → ∀ c ∈ cs, ¬ Hidden c)) :=
    fun r hr => and_congr (imp_congr_right fun _ => separator_notMem_iff hcs hr)
      (imp_congr_right fun _ => leadingDots_iff hcs hr)
  rw [hmat, hjoin]
  constructor
  · simp_all
  · intro h
    obtain ⟨t, ht⟩ := Option.ne_none_iff_exists'.mp htext
    obtain ⟨-, t₂, -, -, ht₂⟩ := map_eq_append_iff.mp
      ((toStr_eq_some.mp ht).symm.trans hjoin)
    obtain ⟨-, r, -, -, hr⟩ := map_eq_cons_iff.mp ht₂
    exact ⟨r, by rw [hr], (hmatched r hr).mpr h⟩

end Matching

/-! ### What a call covers -/

section Covers

variable {G : Glob} {fs : FileSystem} {cwd loc : Location} {path q : Path} {call : Call}

open Path

open FileSystem

/-- The longest ancestor of a path that is there, the path itself included: its components, those
behind it, and where it leads. -/
structure LongestAncestor (fs : FileSystem) (cwd : Location) (path : Path)
    (cs ds : List Component) (a : Path) : Prop where
  split : path.components = cs ++ ds
  canonical : fs.canonicalize cwd ⟨path.anchor, cs⟩ false = some a
  longest : ∀ cs', cs' <+: path.components → cs.length < cs'.length →
    fs.canonicalize cwd ⟨path.anchor, cs'⟩ false = none

/-- The loop ends at the longest ancestor, or there is none. -/
theorem canonicalizeParentLoop_cases (anchor : Anchor) (rev failed : List Component) :
    (∃ cs ds a, LongestAncestor fs cwd ⟨anchor, rev.reverse⟩ cs ds a ∧
        canonicalizeParentLoop fs cwd anchor rev failed = some (a.join (ds ++ failed))) ∨
      (∀ cs, cs <+: rev.reverse → fs.canonicalize cwd ⟨anchor, cs⟩ false = none) ∧
        canonicalizeParentLoop fs cwd anchor rev failed = none := by
  induction rev generalizing failed with
  | nil =>
    rcases hcan : fs.canonicalize cwd ⟨anchor, []⟩ false with _ | a
    · exact .inr ⟨by simpa using hcan, by simp [canonicalizeParentLoop, hcan]⟩
    · exact .inl ⟨[], [], a, ⟨rfl, hcan, by simp⟩, by simp [canonicalizeParentLoop, hcan]⟩
  | cons last rev ih =>
    rw [canonicalizeParentLoop]
    rcases hcan : fs.canonicalize cwd ⟨anchor, (last :: rev).reverse⟩ false with _ | a
    · -- what is longer than an ancestor of the parent may be the path itself
      have hprefix {cs : List Component} (hcs : cs <+: (last :: rev).reverse)
          (hrev : cs <+: rev.reverse → fs.canonicalize cwd ⟨anchor, cs⟩ false = none) :
          fs.canonicalize cwd ⟨anchor, cs⟩ false = none := by
        rw [reverse_cons, prefix_concat_iff, ← reverse_cons] at hcs
        rcases hcs with rfl | hcs
        · exact hcan
        · exact hrev hcs
      rcases ih (last :: failed) with ⟨cs, ds, a, hlong, hloop⟩ | ⟨hnone, hloop⟩
      · refine .inl ⟨cs, ds ++ [last], a, ⟨?_, hlong.canonical, ?_⟩, by simpa using hloop⟩
        · have hsplit : rev.reverse = cs ++ ds := hlong.split
          simp [hsplit]
        · exact fun cs' hcs' hlt => hprefix hcs' fun h => hlong.longest cs' h hlt
      · exact .inr ⟨fun cs hcs => hprefix hcs (hnone cs), hloop⟩
    · refine .inl ⟨(last :: rev).reverse, [], a, ⟨by simp, hcan, ?_⟩, rfl⟩
      exact fun cs' hcs' hlt => absurd hcs'.length_le hlt.not_ge

theorem canonicalizeParent_cases (fs : FileSystem) (cwd : Location) (path : Path) :
    (∃ cs ds a, LongestAncestor fs cwd path cs ds a ∧
        canonicalizeParent fs cwd path = some (a.join ds)) ∨
      (∀ cs, cs <+: path.components → fs.canonicalize cwd ⟨path.anchor, cs⟩ false = none) ∧
        canonicalizeParent fs cwd path = none := by
  simpa [canonicalizeParent] using
    canonicalizeParentLoop_cases path.anchor path.components.reverse []

/-- `canonicalize_parent` gives where the longest ancestor leads with the components behind it, and
nothing if and only if no ancestor but the empty path is there. What it gives, `push_pattern` adds
to the pattern as it is. -/
theorem canonicalizeParent_exact (fs : FileSystem) (cwd : Location) (path : Path) :
    (∀ q, canonicalizeParent fs cwd path = some q →
        ∃ cs ds a, LongestAncestor fs cwd path cs ds a ∧ q = a.join ds) ∧
      (canonicalizeParent fs cwd path = none ↔
        ∀ cs, cs <+: path.components → (⟨path.anchor, cs⟩ : Path) ≠ .empty →
          fs.canonicalize cwd ⟨path.anchor, cs⟩ false = none) ∧
      ∀ (P : Type) (list : List P) (f : List Char → Option P) (p p' : P) (q : Path),
        canonicalizeParent fs cwd path = some q → f (toStringLossy path.text) = some p →
          f (toStringLossy q.text) = some p' →
            pushPattern fs cwd list path f = (list ++ [p, p'], true) := by
  refine ⟨?_, ?_, fun P list f p p' q hq hp hp' => by simp [pushPattern, hp, hq, hp']⟩
  all_goals
    rcases canonicalizeParent_cases fs cwd path with ⟨cs, ds, a, hlong, heq⟩ | ⟨hnone, heq⟩
  · intro q hq
    exact ⟨cs, ds, a, hlong, Option.some.inj (hq.symm.trans heq)⟩
  · simp [heq]
  · have hempty : (⟨path.anchor, cs⟩ : Path) ≠ .empty := fun hempty => by
      have hcan := hlong.canonical
      simp [hempty, FileSystem.canonicalize, FileSystem.resolve] at hcan
    refine iff_of_false (by simp [heq]) fun h => ?_
    cases hlong.canonical.symm.trans (h cs ⟨ds, hlong.split.symm⟩ hempty)
  · exact iff_of_true heq fun cs hcs _ => hnone cs hcs

/-- What `canonicalize_parent` returns: the location that the path leads to up to some component,
and the components after it. -/
theorem exists_of_canonicalizeParent (h : canonicalizeParent fs cwd path = some q) :
    ∃ cs ds loc, path.components = cs ++ ds ∧
      fs.resolve true cwd ⟨path.anchor, cs⟩ = some (.found loc) ∧
      q = (Path.ofLocation loc).join ds := by
  rcases canonicalizeParent_cases fs cwd path with ⟨cs, ds, a, hlong, heq⟩ | ⟨-, hnone⟩
  · obtain ⟨loc, hloc, rfl⟩ := FileSystem.canonicalize_eq_some.mp hlong.canonical
    rw [FileSystem.lookup_false] at hloc
    exact ⟨cs, ds, loc, hlong.split, hloc, Option.some.inj (h.symm.trans heq)⟩
  · cases h.symm.trans hnone

theorem ofLocation_ne_empty (d : Location) : Path.ofLocation d ≠ .empty := by
  simp [ofLocation, empty]

theorem forms_ne_empty (h : path ≠ .empty) : ∀ f ∈ forms fs cwd path, f ≠ .empty := by
  intro f hf
  rcases mem_cons.mp hf with rfl | hf
  · exact h
  · obtain ⟨cs, ds, loc, -, -, rfl⟩ := exists_of_canonicalizeParent (Option.mem_toList.mp hf)
    simp [ofLocation, join, empty]

/-- A path that patterns can stand for: it is not empty, and valid UTF-8 in all its forms. -/
structure Proper (fs : FileSystem) (cwd : Location) (path : Path) : Prop where
  ne_empty : path ≠ .empty
  valid : ∀ f ∈ forms fs cwd path, toStr f.text ≠ none

theorem canonicalizeParent_of_canonicalize {path q : Path}
    (h : fs.canonicalize cwd path false = some q) : canonicalizeParent fs cwd path = some q := by
  have hrev : fs.canonicalize cwd ⟨path.anchor, path.components.reverse.reverse⟩ false =
      some q := by
    rw [reverse_reverse]
    exact h
  rw [canonicalizeParent]
  generalize path.components.reverse = rev at hrev
  cases rev with
  | nil =>
    rw [reverse_nil] at hrev
    simp [canonicalizeParentLoop, hrev]
  | cons => simp only [canonicalizeParentLoop, hrev, join_nil]

theorem forms_ofLocation (h : fs.Canonical loc) : ∀ p ∈ forms fs cwd (.ofLocation loc),
    p = .ofLocation loc := by
  have hcan : fs.canonicalize cwd (.ofLocation loc) false = some (.ofLocation loc) := by
    rw [canonicalize, lookup_false, resolve_ofLocation h]
  simp [forms, canonicalizeParent_of_canonicalize hcan]

theorem proper_ofLocation (h : fs.Canonical loc) (htext : toStr (Path.ofLocation loc).text ≠ none) :
    Proper fs cwd (.ofLocation loc) := by
  refine ⟨ofLocation_ne_empty loc, fun f hf => ?_⟩
  rw [forms_ofLocation h f hf]
  exact htext

variable {ok : Bool}

theorem Pushes.ok_eq_true (laws : G.Laws) {patterns : List G.Pattern}
    (h : Pushes fs cwd path (call.builders G) patterns ok) : ok = true := by
  by_contra hok
  obtain ⟨f, -, b, hb, hnone⟩ := h.fails (by simpa using hok)
  rcases mem_cons.mp hb with rfl | hb
  · obtain ⟨pattern, hpat, -⟩ := exists_escapedPattern laws f
    cases hpat.symm.trans hnone
  · obtain ⟨recursive, -, rfl⟩ := Option.map_eq_some_iff.mp (Option.mem_toList.mp hb)
    obtain ⟨pattern, hpat, -⟩ := exists_escapedPatternWith laws f recursive
    cases hpat.symm.trans hnone

/-- What a call is meant for: a form of its path, and for a directory what lies below it; no
component with a leading dot below it if that has to be matched literally. -/
def Covers (fs : FileSystem) (cwd : Location) (leadingDot : Bool) (call : Call) (q : Path) : Prop :=
  ∃ f ∈ forms fs cwd call.path, ∃ cs, q = f.join cs ∧
    (cs ≠ [] → ∃ recursive, call.recursive = some recursive ∧
      (recursive = false → cs.length = 1)) ∧
    (leadingDot = true → ∀ c ∈ cs, ¬ Hidden c)

variable {leadingDot : Bool}

/-- **Patterns.** The patterns of a call match what its path covers, as the path is shown. -/
theorem Pushes.matching_lossy_iff (laws : G.Laws) (hpath : call.path ≠ .empty)
    {patterns : List G.Pattern} (h : Pushes fs cwd call.path (call.builders G) patterns ok)
    (hq : toStr q.text ≠ none) :
    (∃ pattern ∈ patterns, G.matchesPathWith pattern q ⟨true, leadingDot⟩ = true) ↔
      ∃ f ∈ forms fs cwd call.path, ∃ cs, q = f.lossy.join cs ∧
        (cs ≠ [] → ∃ recursive, call.recursive = some recursive ∧
          (recursive = false → cs.length = 1)) ∧
        (leadingDot = true → ∀ c ∈ cs, ¬ Hidden c) := by
  constructor
  · rintro ⟨pattern, hpat, hmatch⟩
    obtain ⟨f, hf, b, hb, hbf⟩ := h.sound pattern hpat
    rcases mem_cons.mp hb with rfl | hb
    · obtain ⟨pattern', hpat', hmat⟩ := exists_escapedPattern laws f
      obtain rfl : pattern = pattern' := Option.some.inj (hbf.symm.trans hpat')
      exact ⟨f, hf, [], by rw [(hmat _ _).mp hmatch, join_nil], by simp, by simp⟩
    · obtain ⟨recursive, hrec, rfl⟩ := Option.map_eq_some_iff.mp (Option.mem_toList.mp hb)
      obtain ⟨pattern', hpat', hmat⟩ := exists_escapedPatternWith laws f recursive
      obtain rfl : pattern = pattern' := Option.some.inj (hbf.symm.trans hpat')
      have hne := forms_ne_empty hpath f hf
      obtain ⟨r, hr, -⟩ := (hmat _ _).mp hmatch
      obtain ⟨cs, rfl, -⟩ := eq_join_of_text (lossy_ne_empty hne) hr
      by_cases hcs : cs = []
      · exact ⟨f, hf, cs, rfl, by simp [hcs], by simp [hcs]⟩
      · obtain ⟨hlen, hdots⟩ := (matchesPathWith_join_iff laws hne hcs hq hbf).mp hmatch
        exact ⟨f, hf, cs, rfl, fun _ => ⟨recursive, hrec, hlen⟩, hdots⟩
  · rintro ⟨f, hf, cs, rfl, hrec, hdots⟩
    have hok := h.ok_eq_true laws
    by_cases hcs : cs = []
    · rw [hcs, join_nil]
      obtain ⟨pattern, hpat, hmat⟩ := exists_escapedPattern laws f
      obtain ⟨pattern', hmem, hpat'⟩ := h.complete hok f hf _ mem_cons_self
      obtain rfl : pattern = pattern' := Option.some.inj (hpat.symm.trans hpat')
      exact ⟨pattern, hmem, (hmat _ _).mpr rfl⟩
    · obtain ⟨recursive, hcall, hlen⟩ := hrec hcs
      obtain ⟨pattern, hmem, hpat⟩ := h.complete hok f hf
        (fun p => escapedPatternWith G p (wildcard recursive)) (by simp [Call.builders, hcall])
      have hne := forms_ne_empty hpath f hf
      exact ⟨pattern, hmem,
        (matchesPathWith_join_iff laws hne hcs hq hpat).mpr ⟨hlen, hdots⟩⟩

theorem Pushes.matching_iff (laws : G.Laws) (hproper : Proper fs cwd call.path)
    {patterns : List G.Pattern} (h : Pushes fs cwd call.path (call.builders G) patterns ok)
    (hq : toStr q.text ≠ none) :
    (∃ pattern ∈ patterns, G.matchesPathWith pattern q ⟨true, leadingDot⟩ = true) ↔
      Covers fs cwd leadingDot call q := by
  rw [h.matching_lossy_iff laws hproper.ne_empty hq, Covers]
  refine exists_congr fun f => and_congr_right fun hf => ?_
  rw [lossy_eq_self (hproper.valid f hf)]

/-- One of the lists of patterns. -/
def Scope.patterns (scope : Scope G) (forbids : Bool) : List G.Pattern :=
  if forbids then scope.forbiddenPatterns else scope.allowedPatterns

theorem Scope.patterns_extend (scope : Scope G) (forbids forbids' : Bool)
    (patterns : List G.Pattern) :
    (scope.extend forbids patterns).patterns forbids' =
      if forbids = forbids' then scope.patterns forbids' ++ patterns
      else scope.patterns forbids' := by
  cases forbids <;> cases forbids' <;> rfl

/-- After calls with proper paths, a path is matched by a list if it was before, or a call covers
it. -/
theorem Scope.matching_run_iff (laws : G.Laws) (scope : Scope G) {calls : List Call}
    (hproper : ∀ call ∈ calls, Proper fs cwd call.path) (hq : toStr q.text ≠ none)
    {forbids : Bool} :
    (∃ p ∈ (scope.run fs cwd calls).patterns forbids,
        G.matchesPathWith p q ⟨true, leadingDot⟩ = true) ↔
      (∃ p ∈ scope.patterns forbids, G.matchesPathWith p q ⟨true, leadingDot⟩ = true) ∨
        ∃ call ∈ calls, call.forbids = forbids ∧ Covers fs cwd leadingDot call q := by
  induction calls generalizing scope with
  | nil => simp [run]
  | cons call calls ih =>
    obtain ⟨patterns, ok, hperform, hpush⟩ := scope.exists_perform fs cwd call
    have hrun : scope.run fs cwd (call :: calls) =
        (scope.extend call.forbids patterns).run fs cwd calls := by
      rw [run, foldl_cons, hperform]
      rfl
    have hmatching :
        (∃ p ∈ patterns, G.matchesPathWith p q ⟨true, leadingDot⟩ = true) ↔
          Covers fs cwd leadingDot call q :=
      hpush.matching_iff laws (hproper call mem_cons_self) hq
    rw [hrun, ih _ fun call hcall => hproper call (mem_cons_of_mem _ hcall),
      patterns_extend, exists_mem_cons_iff]
    split_ifs with hforb
    · simp only [mem_append, or_and_right, exists_or, hmatching, hforb, true_and, or_assoc]
    · simp only [hforb, false_and, false_or]

/-- **The scope.** After calls with proper paths on an empty scope, a path is allowed if the path
that it is looked up as is covered by an allowing call, and by no forbidding one. -/
theorem Scope.isAllowed_run_iff (laws : G.Laws) {calls : List Call}
    (hproper : ∀ call ∈ calls, Proper fs cwd call.path) {slash : Bool} :
    ((⟨[], [], leadingDot⟩ : Scope G).run fs cwd calls).isAllowed fs cwd path slash = true ↔
      ∃ q, tryResolveSymlinkAndCanonicalize fs cwd path slash = some q ∧ toStr q.text ≠ none ∧
        (∀ call ∈ calls, call.forbids = true → ¬ Covers fs cwd leadingDot call q) ∧
        ∃ call ∈ calls, call.forbids = false ∧ Covers fs cwd leadingDot call q := by
  let empty : Scope G := ⟨[], [], leadingDot⟩
  have hopt : (empty.run fs cwd calls).matchOptions = ⟨true, leadingDot⟩ :=
    (empty.run_mono fs cwd calls).2
  have hlist : ∀ {q : Path} (forbids : Bool), toStr q.text ≠ none →
      ((∃ p ∈ (empty.run fs cwd calls).patterns forbids,
        G.matchesPathWith p q ⟨true, leadingDot⟩ = true) ↔
        ∃ call ∈ calls, call.forbids = forbids ∧ Covers fs cwd leadingDot call q) := by
    intro q forbids hq
    rw [empty.matching_run_iff laws hproper hq]
    cases forbids <;> simp [empty, patterns]
  rw [isAllowed_iff, hopt]
  refine exists_congr fun q => and_congr_right fun _ => ?_
  by_cases hq : toStr q.text = none
  · simp [Glob.matchesPathWith, hq]
  · have hallow := hlist false hq
    have hforb := not_congr (hlist true hq)
    rw [and_iff_right hq]
    refine and_congr ?_ hallow
    push Not at hforb
    exact hforb

end Covers

/-! ### Evaluation

Patterns as the scope builds them. -/

namespace Sample

inductive Pattern where
  | literal (s : List Char)
  | below (s : List Char) (recursive : Bool)

/-- `Pattern::escape`. -/
def escape (s : List Char) : List Char :=
  s.flatMap fun c => if c = '?' ∨ c = '*' ∨ c = '[' ∨ c = ']' then ['[', c, ']'] else [c]

def unescape : List Char → List Char
  | '[' :: c :: ']' :: s => c :: unescape s
  | c :: s => c :: unescape s
  | [] => []

def new (s : List Char) : Option Pattern :=
  match s.reverse with
  | '*' :: '*' :: '/' :: r => some (.below (unescape r.reverse) true)
  | '*' :: '/' :: r => some (.below (unescape r.reverse) false)
  | _ => some (.literal (unescape s))

instance (recursive leadingDot : Bool) (r : List Char) :
    Decidable (Matched recursive leadingDot r) :=
  inferInstanceAs (Decidable (_ ∧ _))

def matchesWith : Pattern → List Char → MatchOptions → Bool
  | .literal s, t, _ => t = s
  | .below s recursive, t, options =>
    (s ++ ['/']).isPrefixOf t &&
      decide (Matched recursive options.requireLiteralLeadingDot (t.drop (s.length + 1)))

def glob : Glob := ⟨Pattern, new, escape, matchesWith⟩

theorem unescape_escape (s : List Char) : unescape (escape s) = s := by
  induction s with
  | nil => rfl
  | cons c s ih =>
    rw [escape, flatMap_cons, ← escape]
    split_ifs with hc
    · rw [cons_append, cons_append, cons_append, nil_append, unescape, ih]
    · have hbracket : c ≠ '[' := by
        rintro rfl
        simp at hc
      rw [cons_append, nil_append, unescape, ih]
      rintro - - rfl
      exact absurd rfl hbracket

theorem new_escape (s : List Char) : new (escape s) = some (.literal s) := by
  have hlast : ∀ r, (escape s).reverse ≠ '*' :: r := by
    intro r h
    rcases eq_nil_or_concat s with rfl | ⟨s', c, rfl⟩
    · cases h
    · rw [concat_eq_append, escape, flatMap_append, reverse_append] at h
      by_cases hc : c = '?' ∨ c = '*' ∨ c = '[' ∨ c = ']'
      · simp [hc] at h
      · simp_all
  rw [new]
  split
  next r hr => exact absurd hr (hlast _)
  next r hr => exact absurd hr (hlast _)
  · rw [unescape_escape]

theorem new_wildcard (s : List Char) (recursive : Bool) :
    new (escape s ++ '/' :: wildcard recursive) = some (.below s recursive) := by
  cases recursive <;> simp [new, wildcard, unescape_escape]

theorem glob_laws : glob.Laws where
  escape s := ⟨.literal s, new_escape s, fun t o => by simp [glob, matchesWith]⟩
  escape_separator s := by simp [glob, escape]
  wildcard s recursive := by
    refine ⟨.below s recursive, new_wildcard s recursive, fun t leadingDot => ?_⟩
    have hdrop : ∀ r : List Char, (s ++ '/' :: r).drop (s.length + 1) = r := by simp
    simp only [glob, matchesWith, Bool.and_eq_true, isPrefixOf_iff_prefix, decide_eq_true_eq]
    constructor
    · rintro ⟨⟨r, rfl⟩, hmat⟩
      rw [append_assoc] at hmat ⊢
      exact ⟨r, rfl, hdrop r ▸ hmat⟩
    · rintro ⟨r, rfl, hmat⟩
      exact ⟨⟨r, append_assoc ..⟩, (hdrop r).symm ▸ hmat⟩

/-- A scope as `Scope::new` makes it on Unix for an empty configuration. -/
def scope : Scope glob := ⟨[], [], true⟩

def dir : Name := ⟨[.char 'd'], by decide, by decide, by decide, by decide⟩

def file : Name := ⟨[.char 'x'], by decide, by decide, by decide, by decide⟩

end Sample

end Tauri.Fs
