import Tauri.Path.Resolve

/-!
# Normalising paths

The command `normalize` of the path plugin is meant to behave as the function of Node.js. It
reads the components of a text in the loop of `normalize_path_no_absolute`, which differs from
that of `normalize_path` in how a name is put behind the text so far: with a separator, unless
the text ends with `/` or with `\`. On Unix `\` is a letter like any other, so a name that ends
with it is **glued** to the next one.

* `lexicalForm p` is what the path should become: the names that are left after `..` has taken
  back the name before it, behind the `..` at its start that found none.
* `normalizePathNoAbsolute_eq`: the loop writes down the stack that `glue` builds.
* `gluedStack_eq_iff`: that stack is the one of the names exactly if no name was glued since the
  stack was last empty. A stack with glued names is lower than it should be, and stays lower
  until both are empty.
* `normalize_eq_normalForm_iff`: the texts for which `normalize` returns the normal form.
-/

namespace Tauri.PathPlugin

open Rust.PathBuf List

/-- The body of the loop of `normalize_path_no_absolute`. -/
def normalizeNoAbsoluteStep (ret : List Char) : Component Char → List Char
  | .rootDir => push ret [sep]
  | .curDir => ret
  | .parentDir => pop ret
  | .normal c =>
    (if ret ≠ [] ∧ ret.getLast? ≠ some sep ∧ ret.getLast? ≠ some '\\' then ret ++ [sep] else ret)
      ++ c

/-- `normalize_path_no_absolute`. There are no prefixes on Unix. -/
def normalizePathNoAbsolute (path : List Char) : List Char :=
  (components path).foldl normalizeNoAbsoluteStep []

/-- The command `normalize`; `dunce::simplified` is the identity on Unix. -/
def normalize (path : List Char) : List Char :=
  let p := normalizePathNoAbsolute path
  if p = [] ∧ path = [dot, dot] then [dot, dot]
  else if p = [] ∧ path = [dot] then [dot]
  else if (path.getLast? = some sep ∨ path.getLast? = some '\\') ∧
      (p.getLast? ≠ some sep ∨ p.getLast? ≠ some '\\') then p ++ [sep]
  else p

/-! ### What a path should become -/

/-- How many `..` find no name to take back, starting from a stack. -/
def ups (names : List (List Char)) : List (Component Char) → ℕ
  | [] => 0
  | c :: cs => (if c = .parentDir ∧ names = [] then 1 else 0) + ups (walk names c) cs

/-- How many `..` stay at the start of a path. At the root `..` leads nowhere. -/
def leadingUps (p : List Char) : ℕ :=
  if isAbsolute p then 0 else ups [] ((segments p).filterMap piece)

/-- What is left of a path: its names, behind the `..` that stay at its start. -/
def lexicalNames (p : List Char) : List (List Char) :=
  .replicate (leadingUps p) [dot, dot] ++ stack p

/-- The path without a separator at its end, `.` if it is relative and nothing is left of it. -/
def lexicalForm (p : List Char) : List Char :=
  if isAbsolute p = false ∧ lexicalNames p = [] then [dot]
  else text (isAbsolute p) (lexicalNames p)

/-- The normal form of a path, which keeps one separator at its end. -/
def normalForm (p : List Char) : List Char :=
  if p.getLast? = some sep ∧ (lexicalForm p).getLast? ≠ some sep then lexicalForm p ++ [sep]
  else lexicalForm p

/-! ### Names that are glued together -/

/-- The last name ends with a backslash. -/
def endsInBackslash (names : List (List Char)) : Bool :=
  names.getLast?.bind List.getLast? == some '\\'

/-- One component of the loop, on a stack of names. -/
def glue (names : List (List Char)) : Component Char → List (List Char)
  | .parentDir => names.dropLast
  | .normal c =>
    if endsInBackslash names then names.dropLast ++ [names.getLast?.getD [] ++ c]
    else names ++ [c]
  | .rootDir => names
  | .curDir => names

/-- The stack of names, and whether no name was put behind a backslash since it was last empty. -/
def track (state : List (List Char) × Bool) : Component Char → List (List Char) × Bool
  | .parentDir => (state.1.dropLast, state.2 || state.1.dropLast.isEmpty)
  | .normal c => (state.1 ++ [c], state.2 && !endsInBackslash state.1)
  | .rootDir => state
  | .curDir => state

/-- No name follows a backslash after the last point at which nothing was left of the path. -/
def NamesApart (p : List Char) : Prop :=
  (((segments p).filterMap piece).foldl track ([], true)).2 = true

instance (p : List Char) : Decidable (NamesApart p) := inferInstanceAs (Decidable (_ = true))

variable {names : List (List Char)} {p : List Char}

/-- The texts for which `normalize` returns the normal form. -/
def Normalizes (p : List Char) : Prop :=
  p = [dot] ∨ p = [dot, dot] ∨
    (p.getLast? ≠ some '\\' ∧ NamesApart p ∧ leadingUps p = 0 ∧
      (stack p = [] → isAbsolute p = true ∧ p.getLast? ≠ some sep))

instance (p : List Char) : Decidable (Normalizes p) := inferInstanceAs (Decidable (_ ∨ _ ∨ _))

theorem exists_of_endsInBackslash (h : endsInBackslash names = true) :
    ∃ init top, names = init ++ [top] ∧ top.getLast? = some '\\' := by
  rcases eq_nil_or_concat names with rfl | ⟨init, top, rfl⟩
  · cases h
  · exact ⟨init, top, concat_eq_append, by simpa [endsInBackslash] using h⟩

theorem glue_concat {init : List (List Char)} {top : List Char} (h : top.getLast? = some '\\')
    (c : List Char) : glue (init ++ [top]) (.normal c) = init ++ [top ++ c] := by
  simp [glue, endsInBackslash, h]

theorem glue_of_not_endsInBackslash (h : endsInBackslash names = false) (c : Component Char) :
    glue names c = walk names c := by
  cases c with
  | normal c => simp [glue, walk, h]
  | parentDir | rootDir | curDir => rfl

theorem isName_of_backslash {s : List Char} (hsep : sep ∉ s) (hmem : '\\' ∈ s) : IsName s := by
  have hne : ∀ t : List Char, '\\' ∉ t → s ≠ t := fun t ht h => ht (h ▸ hmem)
  refine ⟨hsep, ?_⟩
  rw [piece, if_neg, if_neg]
  · exact hne _ (by decide)
  · exact not_or.mpr ⟨hne _ (by decide), hne _ (by decide)⟩

theorem glue_isName : KeepsNames glue := by
  intro names c h hc
  cases hback : endsInBackslash names with
  | false =>
    rw [glue_of_not_endsInBackslash hback]
    exact walk_isName h hc
  | true =>
    cases c with
    | rootDir | curDir => exact h
    | parentDir => exact fun n hn => h n (mem_of_mem_dropLast hn)
    | normal c =>
      obtain ⟨init, top, rfl, hlast⟩ := exists_of_endsInBackslash hback
      rw [glue_concat hlast]
      intro n hn
      rcases mem_append.mp hn with hn | hn
      · exact h n (mem_append_left _ hn)
      · rw [mem_singleton.mp hn]
        have htop := (h top (by simp)).1
        exact isName_of_backslash (by simp [htop, (hc c rfl).1])
          (mem_append_left c (mem_of_getLast? hlast))

/-! ### The loop on stacks -/

theorem getLast?_text_concat {n : List Char} (hn : n ≠ []) (absolute : Bool)
    (init : List (List Char)) : (text absolute (init ++ [n])).getLast? = n.getLast? := by
  obtain ⟨c, hc⟩ := Option.ne_none_iff_exists'.mp
    (fun h => hn (getLast?_eq_none_iff.mp h))
  by_cases hinit : init = []
  · simp [hinit, text, getLast?_append, hc]
  · simp [text, intercalate_concat hinit, getLast?_append, getLast?_cons, hc]

theorem text_concat (hnames : names ≠ []) (absolute : Bool) (n : List Char) :
    text absolute (names ++ [n]) = text absolute names ++ sep :: n := by
  rw [text, intercalate_concat hnames, text, append_assoc]

theorem text_append_last (absolute : Bool) (init : List (List Char)) (top c : List Char) :
    text absolute (init ++ [top ++ c]) = text absolute (init ++ [top]) ++ c := by
  by_cases hinit : init = []
  · simp [hinit, text]
  · simp [text, intercalate_concat hinit]

theorem normalizeNoAbsoluteStep_text (h : ∀ n ∈ names, IsName n) {c : Component Char}
    (hroot : c ≠ .rootDir) (absolute : Bool) :
    normalizeNoAbsoluteStep (text absolute names) c = text absolute (glue names c) := by
  cases c with
  | rootDir => exact absurd rfl hroot
  | curDir => rfl
  | parentDir => exact pop_text h absolute
  | normal c =>
    rcases eq_nil_or_concat names with rfl | ⟨init, top, rfl⟩
    · cases absolute <;> simp [normalizeNoAbsoluteStep, text, glue, endsInBackslash]
    · rw [concat_eq_append] at h ⊢
      have htop : IsName top := h top (by simp)
      have hlast := getLast?_text_concat htop.ne_nil absolute init
      have hsep : (text absolute (init ++ [top])).getLast? ≠ some sep := by
        rw [hlast]
        exact fun hmem => htop.1 (mem_of_getLast? hmem)
      have hne : text absolute (init ++ [top]) ≠ [] := by
        intro hnil
        rw [hnil] at hlast
        exact htop.ne_nil (getLast?_eq_none_iff.mp hlast.symm)
      by_cases hback : top.getLast? = some '\\'
      · rw [glue_concat hback, text_append_last, normalizeNoAbsoluteStep, if_neg]
        exact fun hcond => hcond.2.2 (hlast.trans hback)
      · have hnames : init ++ [top] ≠ [] := by simp
        have hglue : endsInBackslash (init ++ [top]) = false := by
          simpa [endsInBackslash] using hback
        rw [glue_of_not_endsInBackslash hglue, normalizeNoAbsoluteStep,
          if_pos ⟨hne, hsep, hlast ▸ hback⟩, walk, text_concat hnames, append_assoc,
          singleton_append]

theorem normalizeNoAbsoluteStep_writes : Writes normalizeNoAbsoluteStep glue where
  rootDir := rfl
  curDir := rfl
  keepsNames := glue_isName
  step := fun h hroot _ => normalizeNoAbsoluteStep_text h hroot

/-- The stack that the loop builds from a text. -/
def gluedStack (p : List Char) : List (List Char) := ((segments p).filterMap piece).foldl glue []

theorem gluedStack_isName : ∀ n ∈ gluedStack p, IsName n :=
  KeepsNames.foldl glue_isName (fun _ => isName_of_mem) (by simp)

theorem normalizePathNoAbsolute_eq (p : List Char) :
    normalizePathNoAbsolute p = text (isAbsolute p) (gluedStack p) :=
  normalizeNoAbsoluteStep_writes.components p

/-! ### Glued names and the names themselves -/

theorem foldl_track_fst (state : List (List Char) × Bool) (cs : List (Component Char)) :
    (cs.foldl track state).1 = cs.foldl walk state.1 := by
  induction cs generalizing state with
  | nil => rfl
  | cons c cs ih =>
    rw [foldl_cons, ih, foldl_cons]
    cases c <;> rfl

/-- The glued stack is the stack of names, or lower than it. -/
def Tracks (glued : List (List Char)) (state : List (List Char) × Bool) : Prop :=
  if state.2 then glued = state.1 else glued.length < state.1.length

theorem length_glue_normal_le (names : List (List Char)) (c : List Char) :
    (glue names (.normal c)).length ≤ names.length + 1 := by
  cases hback : endsInBackslash names with
  | false => simp [glue, hback]
  | true =>
    obtain ⟨init, top, rfl, hlast⟩ := exists_of_endsInBackslash hback
    rw [glue_concat hlast]
    simp

theorem length_glue_of_endsInBackslash (h : endsInBackslash names = true) (c : List Char) :
    (glue names (.normal c)).length = names.length := by
  obtain ⟨init, top, rfl, hlast⟩ := exists_of_endsInBackslash h
  rw [glue_concat hlast]
  simp

theorem Tracks.step {glued : List (List Char)} {state : List (List Char) × Bool}
    (h : Tracks glued state) (c : Component Char) : Tracks (glue glued c) (track state c) := by
  obtain ⟨stack, apart⟩ := state
  cases c with
  | rootDir | curDir => exact h
  | normal c =>
    cases apart with
    | true =>
      obtain rfl : glued = stack := h
      cases hback : endsInBackslash glued with
      | false => simp [Tracks, track, glue, hback]
      | true => simp [Tracks, track, hback, length_glue_of_endsInBackslash hback]
    | false =>
      have hlow : glued.length < stack.length := h
      have hle := length_glue_normal_le glued c
      have hlow' : (glue glued (.normal c)).length < stack.length + 1 := by omega
      simpa [Tracks, track] using hlow'
  | parentDir =>
    cases apart with
    | true =>
      obtain rfl : glued = stack := h
      exact rfl
    | false =>
      have hlow : glued.length < stack.length := h
      cases hemp : stack.dropLast with
      | nil =>
        -- The last name goes, and below it the glued stack was empty already.
        have hone : stack.length - 1 = 0 := by rw [← length_dropLast, hemp, length_nil]
        have hglued : glued = [] := length_eq_zero_iff.mp (by omega)
        simp [Tracks, track, glue, hemp, hglued]
      | cons n rest =>
        have hlen : stack.length - 1 = rest.length + 1 := by
          rw [← length_dropLast, hemp, length_cons]
        have hlow' : glued.length - 1 < rest.length + 1 := by omega
        simpa [Tracks, track, glue, hemp] using hlow'

theorem Tracks.run {glued : List (List Char)} {state : List (List Char) × Bool}
    (h : Tracks glued state) (cs : List (Component Char)) :
    Tracks (cs.foldl glue glued) (cs.foldl track state) := by
  induction cs generalizing glued state with
  | nil => exact h
  | cons c cs ih => exact ih (h.step c)

theorem gluedStack_eq_iff (p : List Char) : gluedStack p = stack p ↔ NamesApart p := by
  have hrun := Tracks.run (show Tracks [] ([], true) from rfl) ((segments p).filterMap piece)
  have hfst : (((segments p).filterMap piece).foldl track ([], true)).1 = stack p :=
    foldl_track_fst _ _
  rw [Tracks, hfst] at hrun
  rw [NamesApart]
  constructor
  · intro heq
    by_contra hglued
    rw [if_neg hglued] at hrun
    exact (Nat.ne_of_lt hrun) (congrArg length heq)
  · intro happart
    rwa [if_pos happart] at hrun

/-! ### The texts that are normalised rightly -/

/-- A text that ends with a backslash ends with a name, which takes in what is written behind. -/
theorem exists_last_name (hlast : p.getLast? = some '\\') :
    ∃ cs n, (segments p).filterMap piece = cs ++ [.normal n] ∧ n.getLast? = some '\\' ∧
      ∀ s, sep ∉ s → (segments (p ++ s)).filterMap piece = cs ++ [.normal (n ++ s)] := by
  obtain ⟨init, n, hsegs⟩ : ∃ init n, segments p = init ++ [n] := by
    rcases eq_nil_or_concat (segments p) with hnil | ⟨init, n, hcat⟩
    · exact absurd hnil (splitOn_ne_nil _ _)
    · exact ⟨init, n, by rw [hcat, concat_eq_append]⟩
  have hsep : ∀ m ∈ init ++ [n], sep ∉ m := fun m hm =>
    sep_not_mem_of_mem_segments (hsegs ▸ hm)
  have hp : text false (init ++ [n]) = p := by
    rw [← hsegs, text, if_neg Bool.false_ne_true, nil_append, segments, intercalate_splitOn]
  have hn : n.getLast? = some '\\' := by
    by_cases hnil : n = []
    · rw [hnil] at hp
      by_cases hinit : init = []
      · simp [← hp, hinit, text] at hlast
      · rw [← hp, text_concat hinit, getLast?_append] at hlast
        cases hlast
    · rw [← getLast?_text_concat hnil false init, hp, hlast]
  have hname : ∀ s, sep ∉ s → IsName (n ++ s) := fun s hs =>
    isName_of_backslash (by simp [hsep n (by simp), hs])
      (mem_append_left s (mem_of_getLast? hn))
  have hcomp : ∀ s, sep ∉ s → (segments (p ++ s)).filterMap piece =
      init.filterMap piece ++ [.normal (n ++ s)] := by
    intro s hs
    have hsep' : ∀ m ∈ init ++ [n ++ s], sep ∉ m := by grind
    rw [← hp, ← text_append_last, components_text_of_not_mem hsep', filterMap_append,
      filterMap_cons_some (hname s hs).2, filterMap_nil]
  refine ⟨init.filterMap piece, n, ?_, hn, hcomp⟩
  simpa using hcomp [] (by simp)

theorem lexicalNames_filterMap (p : List Char) : (lexicalNames p).filterMap piece =
    .replicate (leadingUps p) .parentDir ++ (stack p).map .normal := by
  rw [lexicalNames, filterMap_append, filterMap_piece stack_isName,
    filterMap_replicate_of_some (show piece [dot, dot] = some .parentDir by decide)]

theorem of_mem_lexicalNames : ∀ n ∈ lexicalNames p, n ≠ [] ∧ sep ∉ n := by
  intro n hn
  rcases mem_append.mp hn with hn | hn
  · rw [eq_of_mem_replicate hn]
    decide
  · exact ⟨(stack_isName n hn).ne_nil, (stack_isName n hn).1⟩

theorem components_text_lexicalNames (absolute : Bool) (p : List Char) :
    (segments (text absolute (lexicalNames p))).filterMap piece =
      .replicate (leadingUps p) .parentDir ++ (stack p).map .normal := by
  rw [components_text_of_not_mem fun n hn => (of_mem_lexicalNames n hn).2, lexicalNames_filterMap]

theorem text_eq_iff (h : ∀ n ∈ names, IsName n) (absolute : Bool) :
    text absolute names = text absolute (lexicalNames p) ↔ leadingUps p = 0 ∧ names = stack p := by
  constructor
  · intro htext
    have hcomp : names.map Component.normal =
        .replicate (leadingUps p) .parentDir ++ (stack p).map .normal := by
      rw [← components_text h absolute, htext, components_text_lexicalNames]
    have hups : leadingUps p = 0 := by
      by_contra hne
      have hmem : Component.parentDir ∈ names.map Component.normal := by
        rw [hcomp]
        exact mem_append_left _ (mem_replicate.mpr ⟨hne, rfl⟩)
      simp at hmem
    rw [hups, replicate_zero, nil_append] at hcomp
    exact ⟨hups, map_injective_iff.mpr (fun _ _ => Component.normal.inj) hcomp⟩
  · rintro ⟨hups, rfl⟩
    rw [lexicalNames, hups, replicate_zero, nil_append]

theorem text_eq_lexicalForm_iff (h : ∀ n ∈ names, IsName n) :
    text (isAbsolute p) names = lexicalForm p ↔
      leadingUps p = 0 ∧ names = stack p ∧ (stack p = [] → isAbsolute p = true) := by
  by_cases hdot : isAbsolute p = false ∧ lexicalNames p = []
  · rw [lexicalForm, if_pos hdot, hdot.1]
    constructor
    · intro htext
      have hcomp := components_text h false
      rw [htext, show (segments [dot]).filterMap piece = ([] : List (Component Char)) by decide]
        at hcomp
      rw [map_eq_nil_iff.mp hcomp.symm] at htext
      cases htext
    · rintro ⟨-, -, habsolute⟩
      cases habsolute (append_eq_nil_iff.mp hdot.2).2
  · rw [lexicalForm, if_neg hdot, text_eq_iff h]
    constructor
    · rintro ⟨hups, hnames⟩
      refine ⟨hups, hnames, fun hemp => ?_⟩
      rw [not_and, lexicalNames, hups, hemp] at hdot
      exact Bool.not_eq_false _ ▸ fun hrel => hdot hrel rfl
    · exact fun ⟨hups, hnames, _⟩ => ⟨hups, hnames⟩

theorem lexicalNames_eq_nil_iff : lexicalNames p = [] ↔ leadingUps p = 0 ∧ stack p = [] := by
  rw [lexicalNames, append_eq_nil_iff, replicate_eq_nil_iff]

theorem lexicalForm_eq_dot_iff (hrel : isAbsolute p = false) :
    lexicalForm p = [dot] ↔ leadingUps p = 0 ∧ stack p = [] := by
  rw [← lexicalNames_eq_nil_iff]
  by_cases hnil : lexicalNames p = []
  · exact iff_of_true (if_pos ⟨hrel, hnil⟩) hnil
  · refine iff_of_false (fun hform => ?_) hnil
    rw [lexicalForm, if_neg (fun hdot => hnil hdot.2), hrel] at hform
    have hcomp := components_text_lexicalNames false p
    rw [hform, show (segments [dot]).filterMap piece = ([] : List (Component Char)) by decide]
      at hcomp
    obtain ⟨hups, hstack⟩ := append_eq_nil_iff.mp hcomp.symm
    exact hnil (lexicalNames_eq_nil_iff.mpr
      ⟨(replicate_eq_nil_iff _).mp hups, map_eq_nil_iff.mp hstack⟩)

/-! ### The normal form stands for the same path -/

theorem isAbsolute_lexicalForm (p : List Char) : isAbsolute (lexicalForm p) = isAbsolute p := by
  rw [lexicalForm]
  split
  · rename_i hdot
    rw [hdot.1]
    decide
  · exact isAbsolute_text_of_not_mem of_mem_lexicalNames _

theorem isAbsolute_append {q : List Char} (hq : q ≠ []) (tail : List Char) :
    isAbsolute (q ++ tail) = isAbsolute q := by
  obtain ⟨c, q', rfl⟩ := exists_cons_of_ne_nil hq
  rfl

/-! ### What `normalize` returns -/

theorem getLast?_lexicalForm_of_backslash (hlast : p.getLast? = some '\\') :
    (lexicalForm p).getLast? = some '\\' := by
  obtain ⟨cs, n, hcomp, hn, -⟩ := exists_last_name hlast
  have hnames : lexicalNames p =
      (.replicate (leadingUps p) [dot, dot] ++ cs.foldl walk []) ++ [n] := by
    rw [lexicalNames, stack, walkText, hcomp, foldl_append, append_assoc]
    rfl
  have hne : n ≠ [] := by
    rintro rfl
    cases hn
  rw [lexicalForm, if_neg (by simp [hnames]), hnames, getLast?_text_concat hne, hn]

theorem getLast?_lexicalForm_eq_sep_iff :
    (lexicalForm p).getLast? = some sep ↔ isAbsolute p = true ∧ lexicalNames p = [] := by
  rcases eq_nil_or_concat (lexicalNames p) with hnil | ⟨init, n, hcat⟩
  · cases habsolute : isAbsolute p with
    | true => simp [lexicalForm, habsolute, hnil, text]
    | false =>
      rw [lexicalForm, if_pos ⟨habsolute, hnil⟩]
      simp [sep, dot]
  · rw [concat_eq_append] at hcat
    obtain ⟨hne, hn⟩ := of_mem_lexicalNames n (by simp [hcat] : n ∈ lexicalNames p)
    rw [lexicalForm, if_neg (by simp [hcat]), hcat, getLast?_text_concat hne]
    simpa using fun h => hn (mem_of_getLast? h)

theorem normalize_eq (hdot : p ≠ [dot]) (hdotdot : p ≠ [dot, dot]) :
    normalize p = text (isAbsolute p) (gluedStack p) ++
      if p.getLast? = some sep ∨ p.getLast? = some '\\' then [sep] else [] := by
  -- No text ends with both separators, so the second half of the test is always true.
  have hsnd : ∀ s : List Char, s.getLast? ≠ some sep ∨ s.getLast? ≠ some '\\' := by
    intro s
    by_cases hs : s.getLast? = some sep
    · exact .inr (by rw [hs]; decide)
    · exact .inl hs
  simp only [normalize, normalizePathNoAbsolute_eq, hdot, hdotdot, and_false, if_false, hsnd,
    and_true]
  split <;> simp

theorem normalForm_eq (p : List Char) : normalForm p = lexicalForm p ++
    if p.getLast? = some sep ∧ ¬(isAbsolute p = true ∧ lexicalNames p = []) then [sep] else [] := by
  simp only [normalForm, ne_eq, getLast?_lexicalForm_eq_sep_iff]
  split <;> simp

theorem normalize_eq_iff (hdot : p ≠ [dot]) (hdotdot : p ≠ [dot, dot]) :
    normalize p = normalForm p ↔ p.getLast? ≠ some '\\' ∧
      text (isAbsolute p) (gluedStack p) = lexicalForm p ∧
      ¬(p.getLast? = some sep ∧ isAbsolute p = true ∧ lexicalNames p = []) := by
  rw [normalize_eq hdot hdotdot, normalForm_eq]
  by_cases hback : p.getLast? = some '\\'
  · -- A separator is written behind the backslash, where none was.
    have hsep : p.getLast? ≠ some sep := by
      rw [hback]
      decide
    rw [if_pos (.inr hback), if_neg (fun h => hsep h.1), append_nil]
    refine iff_of_false (fun heq => ?_) (fun h => h.1 hback)
    have hlast := getLast?_lexicalForm_of_backslash hback
    rw [← heq, getLast?_append] at hlast
    cases hlast
  · by_cases hsep : p.getLast? = some sep
    · rw [if_pos (.inl hsep)]
      by_cases hroot : isAbsolute p = true ∧ lexicalNames p = []
      · -- The root is its own separator and gets another one.
        rw [if_neg (fun h => h.2 hroot), append_nil]
        refine iff_of_false (fun heq => ?_) (fun h => h.2.2 ⟨hsep, hroot⟩)
        rw [lexicalForm, hroot.1, hroot.2] at heq
        simp [text] at heq
      · rw [if_pos ⟨hsep, hroot⟩, append_cancel_right_eq]
        exact ⟨fun h => ⟨hback, h, fun hall => hroot hall.2⟩, fun h => h.2.1⟩
    · simp_all

theorem normalize_eq_normalForm_iff (p : List Char) :
    normalize p = normalForm p ↔ Normalizes p := by
  by_cases hdot : p = [dot]
  · refine iff_of_true ?_ (.inl hdot)
    rw [hdot]
    decide
  by_cases hdotdot : p = [dot, dot]
  · refine iff_of_true ?_ (.inr (.inl hdotdot))
    rw [hdotdot]
    decide
  rw [normalize_eq_iff hdot hdotdot, text_eq_lexicalForm_iff gluedStack_isName, gluedStack_eq_iff,
    Normalizes, or_iff_right hdot, or_iff_right hdotdot]
  rw [lexicalNames_eq_nil_iff]
  constructor <;> grind

end Tauri.PathPlugin
