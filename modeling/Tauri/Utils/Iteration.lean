import Tauri.Utils.Resources

/-!
# What an iteration over resources gives

`results` says what the iterator gives for a list of patterns, one pattern after the other: what the
pattern contributes, and then what comes behind it. `Gives` says that a function of the iterator
gives just that: with enough nested calls it returns, without a panic, the first of the items, and
leaves the others. After the last item the iterator has come to its end for good
(`iteration_terminates`).

**A glob that matches directories only is not finished when its matches are.** The iterator goes on
with the next pattern from within the glob, and only if that brings nothing at all, the glob is
reported as not found, or rather the last glob of this kind. So the items of two lists of patterns
are not those of the first and then those of the second, and whether a glob is reported depends on
what comes behind it.
-/

namespace Tauri.Resources

open Rust Rust.PathBuf Filter List

variable {E : Type}

/-- A pattern, with its destination if it comes from a map. -/
abbrev Pattern := String × Option String

/-- How a path was come to: it is the pattern, it matches the pattern, or it lies below it. -/
inductive Mode where
  | file
  | glob
  | walk
  deriving DecidableEq, Repr

def PatternIter.toList : PatternIter → List Pattern
  | slice patterns => patterns.map fun pattern => (pattern, none)
  | map entries => entries.map fun entry => (entry.1, some entry.2)

/-- The pattern is a glob. -/
def Pattern.isGlob (p : Pattern) : Bool := '*' ∈ p.1.toList

def Pattern.dest (p : Pattern) : Option (List OsChar) :=
  p.2.map fun dest => resourceRelpath (os dest)

/-- The target of a path under a pattern. -/
def Pattern.target (p : Pattern) (mode : Mode) (path : List OsChar) : List OsChar :=
  match p.dest with
  | none => resourceRelpath path
  | some dest =>
    match mode with
    | .walk => push dest ((stripPrefix path (os p.1)).getD path)
    | .glob => if (components dest).length = 0 then (fileName path).getD []
      else push dest ((fileName path).getD [])
    | .file => if (components dest).length = 0 then (fileName path).getD [] else dest

/-- What a path gives that is no directory. -/
def itemOf (tree : FileTree E) (p : Pattern) (mode : Mode) (path : List OsChar) : Item E :=
  if tree.pathExists path then .ok ⟨path, p.target mode path⟩
  else .error (.resourcePathNotFound path)

/-- What an entry of a glob or of a directory gives: directories are passed over. -/
def entryItems (tree : FileTree E) (p : Pattern) (mode : Mode) :
    Except E (List OsChar) → List (Item E)
  | .error e => [.error (if mode = .glob then .glob e else .walkdirError e)]
  | .ok entry => if tree.isDir (normalize entry) then [] else [itemOf tree p mode (normalize entry)]

/-- What a pattern contributes, whatever comes before and behind it. -/
def contribution (tree : FileTree E) (allowWalk : Bool) (p : Pattern) : List (Item E) :=
  if p.isGlob then
    match tree.glob p.1 with
    | .error e => [.error (.globPattern e)]
    | .ok [] => [.error (.globPathNotFound p.1)]
    | .ok entries => entries.flatMap (entryItems tree p .glob)
  else if tree.isDir (normalize (os p.1)) then
    if allowWalk then (tree.walk (normalize (os p.1))).flatMap (entryItems tree p .walk)
    else [.error (.notAllowedToWalkDir (normalize (os p.1)))]
  else [itemOf tree p .file (normalize (os p.1))]

/-- The pattern is a glob that matches something, but no file. -/
def dirsOnly (tree : FileTree E) (p : Pattern) : Bool :=
  p.isGlob && match tree.glob p.1 with
    | .error _ => false
    | .ok entries => !entries.isEmpty && (entries.flatMap (entryItems tree p .glob)).isEmpty

/-- What an iteration over patterns gives. -/
def results (tree : FileTree E) (allowWalk : Bool) : List Pattern → List (Item E)
  | [] => []
  | p :: ps =>
    contribution tree allowWalk p ++
      if dirsOnly tree p && (results tree allowWalk ps).isEmpty then
        [.error (.globPathNotFound p.1)]
      else results tree allowWalk ps

theorem results_cons {tree : FileTree E} {allowWalk : Bool} {p : Pattern} {ps : List Pattern}
    (h : dirsOnly tree p = false) : results tree allowWalk (p :: ps) =
      contribution tree allowWalk p ++ results tree allowWalk ps := by
  rw [results, h, Bool.false_and, if_neg Bool.false_ne_true]

/-! ### The state between two calls -/

/-- The iterator has taken a pattern. -/
structure AtPattern (p : Pattern) (it : Iter E) : Prop where
  dest : it.currentDest = p.dest
  pattern : it.currentPattern = p.2.map fun _ => p.1

/-- The iterator between two calls, in a walk, in a glob, or in neither of them. -/
structure At (p : Pattern) (it : Iter E) : Prop extends AtPattern p it where
  path : it.currentPath = none
  alone : it.walkIter = none ∨ it.globIter = none
  allow : it.walkIter ≠ none → it.allowWalk = true

/-- The items that are still to come. -/
def pending (tree : FileTree E) (p : Pattern) (it : Iter E) : List (Item E) :=
  (it.walkIter.getD []).flatMap (entryItems tree p .walk) ++
    ((it.globIter.getD []).flatMap (entryItems tree p .glob) ++
      results tree it.allowWalk it.patternIter.toList)

/-- The iterator has come to its end. -/
structure Exhausted (it : Iter E) : Prop where
  state : ∃ p, At p it
  patterns : it.patternIter.toList = []
  walk : it.walkIter = none
  glob : it.globIter = none

/-- A call gives the first of some items and leaves the others. -/
structure Answers (tree : FileTree E) (items : List (Item E)) (out : Option (Item E) × Iter E) :
    Prop where
  item : out.1 = items.head?
  rest : ∃ p, At p out.2 ∧ pending tree p out.2 = items.tail
  ends : items = [] → Exhausted out.2

/-- With enough nested calls, a function answers with some items. -/
def Gives (tree : FileTree E) (items : List (Item E)) (f : Nat → Answer E) : Prop :=
  ∃ out, (∀ᶠ fuel in atTop, f fuel = .ok out) ∧ Answers tree items out

section Calls

variable {tree : FileTree E} {allowWalk : Bool} {ps : List Pattern} {p : Pattern} {it : Iter E}
  {items items' : List (Item E)} {item : Item E} {fuel : Nat} {path : List OsChar}
  {entry : Except E (List OsChar)} {entries : List (Except E (List OsChar))} {f g : Nat → Answer E}

theorem Gives.of_call (k j : Nat) (hcall : ∀ n, f (n + k) = g (n + j)) (hg : Gives tree items g) :
    Gives tree items f := by
  obtain ⟨out, hout, hans⟩ := hg
  refine ⟨out, ?_, hans⟩
  rw [← map_add_atTop_eq_nat k, eventually_map]
  filter_upwards [(tendsto_add_atTop_nat j).eventually hout] with n hn
  rw [hcall, hn]

open Gives

theorem Gives.of_item (k : Nat) (hcall : ∀ n, f (n + k) = .ok (some item, it)) (h : At p it) :
    Gives tree (item :: pending tree p it) f := by
  refine of_call k 0 hcall ⟨_, Eventually.of_forall fun _ => rfl, rfl, ⟨p, h, rfl⟩, ?_⟩
  rintro ⟨⟩

theorem Gives.of_exhausted (k : Nat) (hcall : ∀ n, f (n + k) = .ok (none, it))
    (h : Exhausted it) : Gives tree [] f := by
  obtain ⟨p, hp⟩ := h.state
  refine of_call k 0 hcall ⟨_, Eventually.of_forall fun _ => rfl, rfl, ⟨p, hp, ?_⟩, fun _ => h⟩
  simp [pending, h.walk, h.glob, h.patterns, results]

theorem AtPattern.at (h : AtPattern p it) (hpath : it.currentPath = none)
    (hwalk : it.walkIter = none) : At p it :=
  ⟨h, hpath, .inl hwalk, fun hne => absurd hwalk hne⟩

variable {k : Nat → Iter E → Answer E}

theorem Gives.orElse (hf : Gives tree items f) (hsome : items ≠ [] → items = items')
    (hnone : items = [] → ∀ it, Exhausted it → Gives tree items' fun n => k n it) :
    Gives tree items' fun n => Resources.orElse (f n) (k n) := by
  obtain ⟨⟨r, it'⟩, hout, hans⟩ := hf
  cases items with
  | nil =>
    obtain rfl : r = none := hans.item
    obtain ⟨out', hout', hanswers'⟩ := hnone rfl it' (hans.ends rfl)
    refine ⟨out', ?_, hanswers'⟩
    filter_upwards [hout, hout'] with n hn hn'
    rw [hn]
    exact hn'
  | cons item =>
    obtain rfl : r = some item := hans.item
    refine ⟨_, ?_, hsome (cons_ne_nil _ _) ▸ hans⟩
    filter_upwards [hout] with n hn
    rw [hn]
    rfl

/-! ### Single calls -/

/-- The mode that the iterator is in. -/
def modeOf (it : Iter E) : Mode :=
  if it.walkIter.isSome then .walk else if it.globIter.isSome then .glob else .file

theorem exists_fileName (hdir : tree.isDir path = false) (hexists : tree.pathExists path = true) :
    ∃ name, fileName path = some name := by
  rw [← Option.ne_none_iff_exists']
  intro hnone
  rw [tree.isDir_of_fileName hexists hnone] at hdir
  cases hdir

theorem targetOf_eq (hp : AtPattern p it) {name : List OsChar} (hname : fileName path = some name) :
    targetOf it path = .ok (p.target (modeOf it) path) := by
  obtain ⟨hdest, hpat⟩ := hp
  obtain ⟨pattern, dest⟩ := p
  cases dest with
  | none => simp [targetOf, hdest, Pattern.target, Pattern.dest]
  | some =>
    simp only [Pattern.dest, Option.map_some] at hdest hpat
    simp only [targetOf, hdest, hpat, Pattern.target, Pattern.dest, Option.map_some, modeOf,
      hname, Option.getD_some]
    split_ifs <;> rfl

theorem resourceFromPath_eq (hp : AtPattern p it) (hdir : tree.isDir path = false) :
    resourceFromPath tree it path = .ok (itemOf tree p (modeOf it) path) := by
  unfold resourceFromPath itemOf
  cases hexists : tree.pathExists path with
  | false => rfl
  | true =>
    obtain ⟨name, hname⟩ := exists_fileName hdir hexists
    rw [targetOf_eq hp hname]
    rfl

theorem nextCurrentPath_file (h : At p it) (hdir : tree.isDir path = false) :
    nextCurrentPath tree (fuel + 1) { it with currentPath := some path } =
      .ok (some (itemOf tree p (modeOf it) path), it) := by
  have hresource : resourceFromPath tree it path = .ok (itemOf tree p (modeOf it) path) :=
    resourceFromPath_eq h.toAtPattern hdir
  have hit : { it with currentPath := none } = it := by rw [← h.path]
  rw [nextCurrentPath]
  simp [unwrap, Outcome.bind, hdir, hit, hresource]

theorem PatternIter.next_of_nil {iter : PatternIter} (h : iter.toList = []) : iter.next = none := by
  cases iter with
  | slice | map => rw [map_eq_nil_iff.mp h]; rfl

theorem PatternIter.next_of_cons {iter : PatternIter} (h : iter.toList = p :: ps) :
    ∃ rest, iter.next = some (p, rest) ∧ rest.toList = ps := by
  cases iter with
  | slice =>
    obtain ⟨pattern, rest, rfl, rfl, rfl⟩ := map_eq_cons_iff.mp h
    exact ⟨.slice rest, rfl, rfl⟩
  | map =>
    obtain ⟨entry, rest, rfl, rfl, rfl⟩ := map_eq_cons_iff.mp h
    exact ⟨.map rest, rfl, rfl⟩

section

variable (hpath : it.currentPath = none)
include hpath

theorem nextCurrentPath_dir (hdir : tree.isDir path = true) :
    nextCurrentPath tree (fuel + 1) { it with currentPath := some path } =
      if it.globIter.isSome then next tree fuel it
      else if !it.allowWalk then .ok (some (.error (.notAllowedToWalkDir path)), it)
      else orElse (nextWalkIter tree fuel
        { it with walkIter := some (it.walkIter.getD (tree.walk path)) })
          fun it => next tree fuel { it with walkIter := none } := by
  cases it with
  | mk _ _ _ _ _ walkIter =>
    subst hpath
    cases walkIter <;> simp [nextCurrentPath, unwrap, Outcome.bind, hdir]

theorem next_walking : next tree (fuel + 1) it =
    orElse (if it.walkIter.isSome then nextWalkIter tree fuel it else .ok (none, it)) fun it =>
      orElse (if it.globIter.isSome then nextGlobIter tree fuel { it with walkIter := none }
        else .ok (none, { it with walkIter := none })) fun it =>
          nextPattern tree fuel { it with globIter := none } := by
  rw [next, hpath]
  rfl

theorem next_globbing (hwalk : it.walkIter = none) (hglob : it.globIter = some entries) :
    next tree (fuel + 1) it =
      orElse (nextGlobIter tree fuel it) fun it =>
        nextPattern tree fuel { it with globIter := none } := by
  cases it
  subst hpath hwalk hglob
  rfl

theorem next_fresh (hwalk : it.walkIter = none) (hglob : it.globIter = none) :
    next tree (fuel + 1) it = nextPattern tree fuel it := by
  cases it
  subst hpath hwalk hglob
  rfl

end

theorem nextGlobIter_nil (hglob : it.globIter = some []) :
    nextGlobIter tree (fuel + 1) it = .ok (none, it) := by
  rw [nextGlobIter, hglob]
  rfl

/-- An entry of a glob or of a walk gives an item, or it is a directory that is gone into within
the same call. -/
theorem entry_gives (h : At p it) (mode : Mode) (hmode : modeOf it = mode)
    (hcall : ∀ n, f (n + 1) = match entry with
      | .error e => .ok (some (.error (if mode = .glob then .glob e else .walkdirError e)), it)
      | .ok entry => nextCurrentPath tree n { it with currentPath := some (normalize entry) })
    (k : Nat) (hdir : ∀ path, tree.isDir path = true → ∀ n,
      nextCurrentPath tree (n + k) { it with currentPath := some path } = g n)
    (hrest : Gives tree (pending tree p it) g) :
    Gives tree (entryItems tree p mode entry ++ pending tree p it) f := by
  cases entry with
  | error e => exact of_item 1 hcall h
  | ok entry =>
    cases hisDir : tree.isDir (normalize entry) with
    | false =>
      have hitems : entryItems tree p mode (.ok entry) = [itemOf tree p mode (normalize entry)] := by
        simp [entryItems, hisDir]
      rw [hitems]
      refine of_item 2 (fun n => (hcall (n + 1)).trans ?_) h
      rw [← hmode]
      exact nextCurrentPath_file h hisDir
    | true =>
      have hitems : entryItems tree p mode (.ok entry) = [] := by simp [entryItems, hisDir]
      rw [hitems]
      exact hrest.of_call (k + 1) 0 fun n => (hcall (n + k)).trans (hdir _ hisDir n)

/-! ### Patterns, walks and globs -/

/-- `next_pattern` gives what the patterns give. -/
def PatternsGive (tree : FileTree E) (ps : List Pattern) : Prop :=
  ∀ it : Iter E, it.patternIter.toList <:+ ps → it.walkIter = none → it.globIter = none →
    Gives tree (results tree it.allowWalk it.patternIter.toList) fun n => nextPattern tree n it

/-- Going on behind a walk gives what the patterns give. -/
def Behind (tree : FileTree E) (ps : List Pattern) (k : Nat → Iter E → Answer E) : Prop :=
  ∀ it : Iter E, it.patternIter.toList <:+ ps → it.currentPath = none → it.globIter = none →
    it.walkIter.getD [] = [] →
      Gives tree (results tree it.allowWalk it.patternIter.toList) fun n => k n it

theorem Behind.of_exhausted (h : Behind tree ps k) (hend : Exhausted it) :
    Gives tree [] fun n => k n it := by
  obtain ⟨p, hp⟩ := hend.state
  have hgives := h it (by simp [hend.patterns]) hp.path hend.glob (by simp [hend.walk])
  rwa [hend.patterns] at hgives

theorem nextWalkIter_gives (hit : At p it) (hwalk : it.walkIter = some (entry :: entries))
    (hrest : At p { it with walkIter := some entries } →
      Gives tree (pending tree p { it with walkIter := some entries }) fun n =>
        orElse (nextWalkIter tree n { it with walkIter := some entries })
          fun it => next tree n { it with walkIter := none }) :
    Gives tree (pending tree p it) fun n => nextWalkIter tree n it := by
  have hglob : it.globIter = none := hit.alone.resolve_left (by simp [hwalk])
  have hallow : it.allowWalk = true := hit.allow (by simp [hwalk])
  have hit' : At p { it with walkIter := some entries } :=
    ⟨⟨hit.dest, hit.pattern⟩, hit.path, .inr hglob, fun _ => hallow⟩
  have hpend : pending tree p it = entryItems tree p .walk entry ++
      pending tree p { it with walkIter := some entries } := by
    simp [pending, hwalk]
  rw [hpend]
  refine entry_gives hit' .walk rfl (fun n => ?_) 1 (fun path hdir n => ?_) (hrest hit')
  · rw [nextWalkIter, hwalk]
    cases entry <;> rfl
  · refine (nextCurrentPath_dir hit'.path hdir).trans ?_
    simp [hglob, hallow]

theorem nextGlobIter_gives (hit : At p it) (hglob : it.globIter = some (entry :: entries))
    (hrest : At p { it with globIter := some entries } →
      Gives tree (pending tree p { it with globIter := some entries }) fun n =>
        orElse (nextGlobIter tree n { it with globIter := some entries })
          fun it => nextPattern tree n { it with globIter := none }) :
    Gives tree (pending tree p it) fun n => nextGlobIter tree n it := by
  have hwalk : it.walkIter = none := hit.alone.resolve_right (by simp [hglob])
  have hit' : At p { it with globIter := some entries } :=
    AtPattern.at ⟨hit.dest, hit.pattern⟩ hit.path hwalk
  have hpend : pending tree p it = entryItems tree p .glob entry ++
      pending tree p { it with globIter := some entries } := by
    simp [pending, hwalk, hglob]
  rw [hpend]
  refine entry_gives hit' .glob (by simp [modeOf, hwalk]) (fun n => ?_) 2 (fun path hdir n => ?_)
    (hrest hit')
  · rw [nextGlobIter, hglob]
    cases entry <;> rfl
  · refine (nextCurrentPath_dir hit'.path hdir).trans ?_
    exact next_globbing hit'.path hwalk rfl

/-- The iterator at its next pattern. -/
def atPattern (p : Pattern) (rest : PatternIter) (it : Iter E) : Iter E :=
  { it with
    patternIter := rest
    currentPath := none
    currentPattern := p.2.map fun _ => p.1
    currentDest := p.dest }

theorem nextPattern_of_next {rest : PatternIter} (h : it.patternIter.next = some (p, rest)) :
    nextPattern tree (fuel + 1) it =
      if p.isGlob then
        match tree.glob p.1 with
        | .error e => .ok (some (.error (.globPattern e)), atPattern p rest it)
        | .ok entries =>
          orElse (nextGlobIter tree fuel { atPattern p rest it with globIter := some entries })
            fun it => .ok (some (.error (.globPathNotFound p.1)), { it with globIter := none })
      else nextCurrentPath tree fuel
        { atPattern p rest it with currentPath := some (normalize (os p.1)) } := by
  obtain ⟨pattern, dest⟩ := p
  rw [nextPattern]
  simp only [h, Pattern.isGlob, decide_eq_true_eq]
  rfl

theorem Gives.report (h : At p it) (hwalk : it.walkIter = none) :
    Gives tree (item :: results tree it.allowWalk it.patternIter.toList) fun _ =>
      .ok (some item, { it with globIter := none }) := by
  have hit' : At p { it with globIter := none } := AtPattern.at ⟨h.dest, h.pattern⟩ h.path hwalk
  have hpend : pending tree p { it with globIter := none } =
      results tree it.allowWalk it.patternIter.toList := by
    simp [pending, hwalk]
  rw [← hpend]
  exact of_item 0 (fun _ => rfl) hit'

section

variable (h : PatternsGive tree ps)
include h

theorem PatternsGive.next :
    Behind tree ps fun n it => next tree n { it with walkIter := none } := by
  intro it hps hpath hglob _
  refine (h { it with walkIter := none } hps rfl hglob).of_call 1 0 fun n => ?_
  exact @next_fresh E tree { it with walkIter := none } n hpath rfl hglob

theorem walk_gives (hk : Behind tree ps k) (hit : At p it) (hps : it.patternIter.toList <:+ ps)
    (hwalk : it.walkIter = some entries) :
    Gives tree (pending tree p it) fun n => orElse (nextWalkIter tree n it) (k n) := by
  have hglob : it.globIter = none := hit.alone.resolve_left (by simp [hwalk])
  induction entries generalizing it k with
  | nil =>
    have hpend : pending tree p it = results tree it.allowWalk it.patternIter.toList := by
      simp [pending, hwalk, hglob]
    rw [hpend]
    refine (hk it hps hit.path hglob (by simp [hwalk])).of_call 1 1 fun n => ?_
    rw [nextWalkIter, hwalk]
    rfl
  | cons _ _ ih =>
    refine Gives.orElse (nextWalkIter_gives hit hwalk fun hit' => ?_) (fun _ => rfl)
      fun hnil it' hend => hnil ▸ hk.of_exhausted hend
    exact ih h.next hit' hps rfl hglob

theorem glob_gives (hit : At p it) (hps : it.patternIter.toList <:+ ps)
    (hglob : it.globIter = some entries) :
    Gives tree (pending tree p it) fun n =>
      orElse (nextGlobIter tree n it) fun it => nextPattern tree n { it with globIter := none } := by
  have hwalk : it.walkIter = none := hit.alone.resolve_right (by simp [hglob])
  induction entries generalizing it with
  | nil =>
    have hpend : pending tree p it = results tree it.allowWalk it.patternIter.toList := by
      simp [pending, hwalk, hglob]
    rw [hpend]
    refine (h { it with globIter := none } hps hwalk rfl).of_call 1 1 fun n => ?_
    rw [nextGlobIter_nil hglob]
    rfl
  | cons _ _ ih =>
    refine Gives.orElse (nextGlobIter_gives hit hglob fun hit' => ?_) (fun _ => rfl)
      fun hnil it' hend => ?_
    · exact ih hit' hps rfl hwalk
    · have hgives := h { it' with globIter := none } (by simp [hend.patterns]) hend.walk rfl
      simp only [hend.patterns] at hgives
      exact hnil ▸ hgives

theorem file_gives (hit : At p it) (hps : it.patternIter.toList = ps) (hwalk : it.walkIter = none)
    (hglob : it.globIter = none) (hisGlob : p.isGlob = false) :
    Gives tree (contribution tree it.allowWalk p ++ results tree it.allowWalk ps) fun n =>
      nextCurrentPath tree n { it with currentPath := some (normalize (os p.1)) } := by
  have hpend : pending tree p it = results tree it.allowWalk ps := by
    simp [pending, hwalk, hglob, hps]
  rw [contribution, hisGlob, if_neg Bool.false_ne_true, ← hpend]
  cases hdir : tree.isDir (normalize (os p.1)) with
  | false =>
    have hmode : modeOf it = .file := by simp [modeOf, hwalk, hglob]
    exact of_item 1 (fun n => hmode ▸ nextCurrentPath_file hit hdir) hit
  | true =>
    rw [if_pos rfl]
    by_cases hallow : it.allowWalk = true
    · have hit' : At p { it with walkIter := some (tree.walk (normalize (os p.1))) } :=
        ⟨⟨hit.dest, hit.pattern⟩, hit.path, .inr hglob, fun _ => hallow⟩
      have hgives := walk_gives h h.next hit' (by simp [hps]) rfl
      rw [if_pos hallow]
      refine of_call 1 0 (fun n => ?_) (by simpa [pending, hwalk, hglob] using hgives)
      rw [nextCurrentPath_dir hit.path hdir]
      simp [hglob, hallow, hwalk]
    · rw [if_neg hallow]
      refine of_item 1 (fun n => ?_) hit
      rw [nextCurrentPath_dir hit.path hdir]
      simp [hglob, hallow]

theorem isGlob_gives (hit : At p it) (hps : it.patternIter.toList = ps)
    (hglob : it.globIter = some entries) (hisGlob : p.isGlob = true)
    (hents : tree.glob p.1 = .ok entries) :
    Gives tree (results tree it.allowWalk (p :: ps)) fun n => orElse (nextGlobIter tree n it)
      fun it => .ok (some (.error (.globPathNotFound p.1)), { it with globIter := none }) := by
  have hwalk : it.walkIter = none := hit.alone.resolve_right (by simp [hglob])
  cases entries with
  | nil =>
    have hitems : contribution tree it.allowWalk p = [.error (.globPathNotFound p.1)] := by
      simp [contribution, hisGlob, hents]
    rw [results_cons (by simp [dirsOnly, hents]), hitems, ← hps]
    refine (report hit hwalk).of_call 1 0 fun n => ?_
    rw [nextGlobIter_nil hglob]
    rfl
  | cons entry entries =>
    have hitems : contribution tree it.allowWalk p =
        (entry :: entries).flatMap (entryItems tree p .glob) := by
      simp [contribution, hisGlob, hents]
    have hdirs : dirsOnly tree p = (contribution tree it.allowWalk p).isEmpty := by
      rw [hitems]
      simp [dirsOnly, hisGlob, hents]
    have hpend : pending tree p it =
        contribution tree it.allowWalk p ++ results tree it.allowWalk ps := by
      simp [pending, hwalk, hglob, hps, hitems]
    have hgives := nextGlobIter_gives hit hglob fun hit' => glob_gives h hit' (by simp [hps]) rfl
    rw [results, hdirs]
    refine hgives.orElse (fun hne => ?_) fun hnil it' hend => ?_
    · simp_all
    · rw [hpend, append_eq_nil_iff] at hnil
      obtain ⟨p', hp'⟩ := hend.state
      have hreport := @report E tree p' it' (.error (.globPathNotFound p.1)) hp' hend.walk
      rw [hend.patterns] at hreport
      rwa [hnil.1, hnil.2]

end

theorem patternsGive (tree : FileTree E) (ps : List Pattern) : PatternsGive tree ps := by
  induction ps with
  | nil =>
    intro it hps hwalk hglob
    rw [suffix_nil] at hps
    rw [hps]
    refine of_exhausted 1 (fun n => by rw [nextPattern, PatternIter.next_of_nil hps]) ?_
    exact ⟨⟨("", none), AtPattern.at ⟨rfl, rfl⟩ rfl hwalk⟩, hps, hwalk, hglob⟩
  | cons p ps ih =>
    intro it hps hwalk hglob
    rcases suffix_cons_iff.mp hps with hps | hps
    swap
    · exact ih it hps hwalk hglob
    obtain ⟨rest, hnext, hrest⟩ := PatternIter.next_of_cons hps
    have hstate : At p (atPattern p rest it) := AtPattern.at ⟨rfl, rfl⟩ rfl hwalk
    rw [hps]
    cases hisGlob : p.isGlob with
    | false =>
      rw [results_cons (by simp [dirsOnly, hisGlob])]
      refine (file_gives ih hstate hrest hwalk hglob hisGlob).of_call 1 0 fun n => ?_
      rw [nextPattern_of_next hnext, hisGlob]
      rfl
    | true =>
      cases hents : tree.glob p.1 with
      | error e =>
        have hitems : contribution tree it.allowWalk p ++ results tree it.allowWalk ps =
            .error (.globPattern e) :: pending tree p (atPattern p rest it) := by
          simp [contribution, hisGlob, hents, pending, atPattern, hwalk, hglob, hrest]
        rw [results_cons (by simp [dirsOnly, hents]), hitems]
        refine of_item 1 (fun n => ?_) hstate
        rw [nextPattern_of_next hnext, hisGlob, hents]
        rfl
      | ok entries =>
        have hglobbing : At p { atPattern p rest it with globIter := some entries } :=
          AtPattern.at ⟨rfl, rfl⟩ rfl hwalk
        refine (isGlob_gives ih hglobbing hrest rfl hisGlob hents).of_call 1 0 fun n => ?_
        rw [nextPattern_of_next hnext, hisGlob, hents]
        rfl

/-! ### Whole iterations -/

theorem next_gives (h : At p it) : Gives tree (pending tree p it) fun n => next tree n it := by
  have hpats := patternsGive tree it.patternIter.toList
  cases hwalk : it.walkIter with
  | some =>
    have hbehind : Behind tree it.patternIter.toList fun n it =>
        orElse (if it.globIter.isSome then nextGlobIter tree n { it with walkIter := none }
          else .ok (none, { it with walkIter := none })) fun it =>
            nextPattern tree n { it with globIter := none } := by
      intro it hps hpath hglob _
      have hgives := hpats { it with walkIter := none, globIter := none } hps rfl rfl
      simpa [hglob, Resources.orElse] using hgives
    refine (walk_gives hpats hbehind h suffix_rfl hwalk).of_call 1 0 fun n => ?_
    rw [next_walking h.path, hwalk]
    rfl
  | none =>
    cases hglob : it.globIter with
    | some =>
      exact (glob_gives hpats h suffix_rfl hglob).of_call 1 0 fun n =>
        next_globbing h.path hwalk hglob
    | none =>
      have hpend : pending tree p it = results tree it.allowWalk it.patternIter.toList := by
        simp [pending, hwalk, hglob]
      rw [hpend]
      exact (hpats it suffix_rfl hwalk hglob).of_call 1 0 fun n =>
        next_fresh h.path hwalk hglob

theorem calls_succ {n : Nat} {r : Option (Item E)} {it' : Iter E} {rs : List (Option (Item E))}
    (hnext : next tree fuel it = .ok (r, it')) (hrest : calls tree fuel n it' = .ok rs) :
    calls tree fuel (n + 1) it = .ok (r :: rs) := by
  rw [calls, hnext]
  simp only [Outcome.ok_bind, hrest]
  rfl

theorem calls_of_exhausted (h : Exhausted it) (n : Nat) :
    calls tree (fuel + 2) n it = .ok (List.replicate n none) := by
  induction n generalizing it with
  | zero => rfl
  | succ n ih =>
    obtain ⟨p, hp⟩ := h.state
    have hnext : next tree (fuel + 2) it = .ok (none,
        { it with currentPattern := none, currentDest := none, currentPath := none }) := by
      rw [next_fresh hp.path h.walk h.glob, nextPattern, PatternIter.next_of_nil h.patterns]
    refine calls_succ hnext (ih ?_)
    exact ⟨⟨("", none), AtPattern.at ⟨rfl, rfl⟩ rfl h.walk⟩, h.patterns, h.walk, h.glob⟩

theorem calls_eq (h : At p it) : ∀ᶠ fuel in atTop, ∀ n,
    calls tree fuel n it = .ok ((List.range n).map fun i => (pending tree p it)[i]?) := by
  induction hitems : pending tree p it generalizing p it with
  | nil =>
    obtain ⟨⟨r, it'⟩, hout, hans⟩ := hitems ▸ @next_gives E tree p it h
    obtain rfl : r = none := hans.item
    filter_upwards [hout, eventually_ge_atTop 2] with fuel hnext hfuel n
    obtain ⟨fuel, rfl⟩ := Nat.exists_eq_add_of_le' hfuel
    cases n with
    | zero => rfl
    | succ n =>
      have hcalls := calls_succ hnext (calls_of_exhausted (hans.ends rfl) n)
      simpa [List.replicate_succ] using hcalls
  | cons item items ih =>
    obtain ⟨⟨r, it'⟩, hout, hans⟩ := hitems ▸ @next_gives E tree p it h
    obtain rfl : r = some item := hans.item
    obtain ⟨p', hp', hrest⟩ := hans.rest
    filter_upwards [hout, ih hp' hrest] with fuel hnext hcalls n
    cases n with
    | zero => rfl
    | succ n =>
      rw [List.range_succ_eq_map, List.map_cons, List.map_map]
      exact calls_succ hnext (hcalls n)

end Calls

/-- A full iteration. With enough nested calls every call of `next` returns; the calls give the
items one after the other, and from then on the end. -/
def Iterates (tree : FileTree E) (it : Iter E) (items : List (Item E)) : Prop :=
  ∃ bound, ∀ more n, calls tree (bound + more) n it = .ok ((List.range n).map fun i => items[i]?)

theorem iterates_results (tree : FileTree E) (patterns : PatternIter) (allowWalk : Bool) :
    Iterates tree { patternIter := patterns, allowWalk }
      (results tree allowWalk patterns.toList) := by
  have hstart : At ("", none) ({ patternIter := patterns, allowWalk } : Iter E) :=
    AtPattern.at ⟨rfl, rfl⟩ rfl rfl
  obtain ⟨bound, hbound⟩ := eventually_atTop.mp (@calls_eq E tree _ _ hstart)
  exact ⟨bound, fun more n => hbound (bound + more) (Nat.le_add_right _ _) n⟩

/-- For patterns in a list and for patterns in a map, every call returns without a panic, and after
finitely many items the iteration has come to its end for good. -/
theorem iteration_terminates (tree : FileTree E) (patterns : List String)
    (entries : List (String × String)) (allowWalk : Bool) :
    (∃ items, Iterates tree (new patterns allowWalk) items) ∧
      ∃ items, Iterates tree (fromMap entries allowWalk) items :=
  ⟨⟨_, iterates_results tree (.slice patterns) allowWalk⟩,
    ⟨_, iterates_results tree (.map entries) allowWalk⟩⟩

end Tauri.Resources
