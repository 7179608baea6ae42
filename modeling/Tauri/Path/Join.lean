import Tauri.Path.Normalize

/-!
# Joining paths

The command `join` of the path plugin writes its arguments one behind the other, with a separator
behind each that does not end with `/` or `\`, and normalises the text. It should return what
is left of the path that the non-empty arguments make with `/` between them (`joinForm`).

Three things come between. An empty first argument is written as the root, an argument that ends
with `\` **runs into** the next one, and the loop of `normalize_path_no_absolute` glues names
and drops the `..` at the start. `KeepsApart` excludes the three. What goes wrong can be taken
back by a later `..`, and two mistakes can cancel, so the condition is exact for a list together
with its **initial parts** (`right_iff_keepsApart`): a list that breaks it has one that is joined
wrongly. Where no element runs into the next, `Joins` is exact for the list alone
(`join_eq_iff_joins`).
-/

namespace Tauri.PathPlugin

open Rust.PathBuf List

/-- One argument as `join` writes it. -/
def separated (p : List Char) : List Char :=
  if p.getLast? ≠ some sep ∧ p.getLast? ≠ some '\\' then p ++ [sep] else p

/-- The text that `join` collects. -/
def joined (paths : List (List Char)) : List Char := (paths.map separated).flatten

/-- The command `join`. -/
def join (paths : List (List Char)) : List Char :=
  let p := normalizePathNoAbsolute (joined paths)
  if p = [] then [dot] else p

/-- The non-empty elements of a list of paths, separated by `/`. -/
def slashed (paths : List (List Char)) : List Char := [sep].intercalate (paths.filter (· ≠ []))

/-- What should be left of a list of paths. -/
def joinForm (paths : List (List Char)) : List Char := lexicalForm (slashed paths)

/-- A path up to one of its separators, or all of it. -/
structure Cut (q p : List Char) : Prop where
  ne_nil : q ≠ []
  rest : p = q ∨ ∃ rest, p = q ++ sep :: rest

/-- Some of the first elements of a list, the last of them perhaps cut at a separator. -/
def InitialPart (qs ps : List (List Char)) : Prop :=
  qs <+: ps ∨ ∃ xs q p, Cut q p ∧ qs = xs ++ [q] ∧ xs ++ [p] <+: ps

/-- The components of the elements of a list, each read for itself. -/
def componentsOf (paths : List (List Char)) : List (Component Char) :=
  paths.flatMap fun p => (segments p).filterMap piece

/-- The first of two neighbours does not run into the second. -/
def Apart (x p : List Char) : Prop := x.getLast? = some '\\' → p = [] ∨ isAbsolute p = true

/-- The lists that are joined rightly, among those whose elements do not run into each other. -/
def Joins (paths : List (List Char)) : Prop :=
  (paths.head? = some [] → isAbsolute (slashed paths) = true) ∧ leadingUps (slashed paths) = 0 ∧
    NamesApart (slashed paths)

instance (paths : List (List Char)) : Decidable (Joins paths) :=
  inferInstanceAs (Decidable (_ ∧ _ ∧ _))

/-- The component is read as it should be: no name behind a backslash, no `..` at the start of a
relative path. -/
def keepsStep (absolute : Bool) (names : List (List Char)) : Component Char → Prop
  | .normal _ => endsInBackslash names = false
  | .parentDir => absolute = true ∨ names ≠ []
  | .rootDir => True
  | .curDir => True

/-- All components are read as they should be, from a stack on. -/
def keeps (absolute : Bool) (names : List (List Char)) : List (Component Char) → Prop
  | [] => True
  | c :: cs => keepsStep absolute names c ∧ keeps absolute (walk names c) cs

/-- The lists whose initial parts are all joined rightly. -/
structure KeepsApart (paths : List (List Char)) : Prop where
  head : paths.head? ≠ some []
  chain : paths.IsChain Apart
  names : keeps (isAbsolute paths.flatten) [] (componentsOf paths)

variable {names : List (List Char)} {p q x : List Char} {paths xs ps qs : List (List Char)}
  {absolute : Bool} {cs ds : List (Component Char)}

/-! ### Reading component by component -/

theorem ups_append : ups names (cs ++ ds) = ups names cs + ups (cs.foldl walk names) ds := by
  induction cs generalizing names with
  | nil => simp [ups]
  | cons c cs ih => rw [cons_append, ups, ih, ups, foldl_cons, Nat.add_assoc]

theorem keeps_append : keeps absolute names (cs ++ ds) ↔
    keeps absolute names cs ∧ keeps absolute (cs.foldl walk names) ds := by
  induction cs generalizing names with
  | nil => simp [keeps]
  | cons c cs ih => rw [cons_append, keeps, ih, keeps, foldl_cons, and_assoc]

theorem glue_of_keepsStep {c : Component Char} (h : keepsStep absolute names c) :
    glue names c = walk names c := by
  cases c with
  | normal c => exact glue_of_not_endsInBackslash h _
  | parentDir | rootDir | curDir => rfl

theorem foldl_glue_of_keeps (h : keeps absolute names cs) :
    cs.foldl glue names = cs.foldl walk names := by
  induction cs generalizing names with
  | nil => rfl
  | cons c cs ih => rw [foldl_cons, glue_of_keepsStep h.1, ih h.2, foldl_cons]

theorem ups_of_keeps (h : keeps absolute names cs) : absolute = true ∨ ups names cs = 0 := by
  induction cs generalizing names with
  | nil => exact .inr rfl
  | cons c cs ih =>
    rcases ih h.2 with habsolute | hups
    · exact .inl habsolute
    · by_cases hc : c = .parentDir ∧ names = []
      · obtain ⟨rfl, rfl⟩ := hc
        exact .inl (h.1.resolve_right (fun hne => hne rfl))
      · exact .inr (by rw [ups, if_neg hc, hups])

/-- If the components before were read rightly and the result is right, then so was the last. -/
theorem keepsStep_of_right {c : Component Char} (h : keeps absolute [] cs)
    (hups : absolute = true ∨ ups [] (cs ++ [c]) = 0)
    (hglue : (cs ++ [c]).foldl glue [] = (cs ++ [c]).foldl walk []) :
    keepsStep absolute (cs.foldl walk []) c := by
  rw [foldl_append, foldl_append, foldl_glue_of_keeps h] at hglue
  cases c with
  | rootDir | curDir => trivial
  | parentDir =>
    rw [ups_append] at hups
    refine hups.imp id (fun hzero hnil => ?_)
    simp [ups, hnil] at hzero
  | normal n =>
    rw [keepsStep, ← Bool.not_eq_true]
    intro hback
    have hlen := length_glue_of_endsInBackslash hback n
    have hglue' : glue (cs.foldl walk []) (.normal n) = cs.foldl walk [] ++ [n] := hglue
    rw [hglue', length_append, length_singleton] at hlen
    omega

/-! ### The text that is collected -/

theorem exists_separated (p : List Char) : ∃ q, separated p = p ++ q := by
  rw [separated]
  split
  · exact ⟨[sep], rfl⟩
  · exact ⟨[], (append_nil p).symm⟩

theorem joined_concat (xs : List (List Char)) (p : List Char) :
    joined (xs ++ [p]) = joined xs ++ separated p := by
  simp [joined]

theorem componentsOf_append (xs ys : List (List Char)) :
    componentsOf (xs ++ ys) = componentsOf xs ++ componentsOf ys := by
  simp [componentsOf]

theorem componentsOf_singleton (p : List Char) :
    componentsOf [p] = (segments p).filterMap piece := by
  simp [componentsOf]

theorem isAbsolute_joined (h : paths.head? ≠ some []) :
    isAbsolute (joined paths) = isAbsolute paths.flatten ∧
      isAbsolute (slashed paths) = isAbsolute paths.flatten := by
  cases paths with
  | nil => exact ⟨rfl, rfl⟩
  | cons p paths =>
    have hp : p ≠ [] := by simpa using h
    obtain ⟨q, hq⟩ := exists_separated p
    have hfilt : (p :: paths).filter (· ≠ []) = p :: paths.filter (· ≠ []) := by simp [hp]
    constructor
    · rw [joined, map_cons, flatten_cons, hq, append_assoc, isAbsolute_append hp,
        flatten_cons, isAbsolute_append hp]
    · rw [slashed, hfilt, flatten_cons, isAbsolute_append hp]
      by_cases hrest : paths.filter (· ≠ []) = []
      · rw [hrest, intercalate_singleton]
      · rw [intercalate_cons_of_ne_nil hrest, append_assoc, isAbsolute_append hp]

variable (paths)

theorem components_intercalate_eq :
    (segments ([sep].intercalate paths)).filterMap piece = componentsOf paths := by
  induction paths with
  | nil => simp [componentsOf]
  | cons p paths ih =>
    by_cases hnil : paths = []
    · rw [hnil, intercalate_singleton, componentsOf_singleton]
    · rw [intercalate_cons_of_ne_nil hnil, append_assoc, singleton_append,
        components_append_sep, ih]
      rfl

theorem componentsOf_filter :
    componentsOf (paths.filter (· ≠ [])) = componentsOf paths := by
  induction paths with
  | nil => rfl
  | cons p paths ih =>
    by_cases hp : p = [] <;> simpa [hp, componentsOf] using ih

theorem components_slashed :
    (segments (slashed paths)).filterMap piece = componentsOf paths := by
  rw [slashed, components_intercalate_eq, componentsOf_filter]

variable {paths}

theorem components_append_separated (q p : List Char) :
    (segments (q ++ separated p)).filterMap piece = (segments (q ++ p)).filterMap piece := by
  rw [separated]
  split
  · rw [← append_assoc, components_append_sep, components_nil, append_nil]
  · rfl

theorem components_joined_concat (h : ∀ x ∈ xs.getLast?, Apart x p) :
    (segments (joined (xs ++ [p]))).filterMap piece =
      (segments (joined xs)).filterMap piece ++ (segments p).filterMap piece := by
  have hsep : ∀ q : List Char, (segments (q ++ [sep] ++ p)).filterMap piece =
      (segments (q ++ [sep])).filterMap piece ++ (segments p).filterMap piece := by
    intro q
    rw [append_assoc, singleton_append, components_append_sep, components_append_sep,
      components_nil, append_nil]
  rw [joined_concat, components_append_separated]
  rcases eq_nil_or_concat xs with rfl | ⟨ys, x, rfl⟩
  · simp [joined]
  · rw [concat_eq_append] at h ⊢
    rw [joined_concat]
    by_cases hback : x.getLast? = some '\\'
    · rcases h x (by simp) hback with rfl | habsolute
      · simp
      · -- The element brings its own separator.
        obtain ⟨p', rfl⟩ : ∃ p', p = sep :: p' := by
          rw [isAbsolute, beq_iff_eq] at habsolute
          exact head?_eq_some_iff.mp habsolute
        rw [components_append_sep, components_cons_sep]
    · by_cases hlast : x.getLast? = some sep
      · obtain ⟨x', rfl⟩ := getLast?_eq_some_iff.mp hlast
        rw [separated, if_neg (fun hcond => hcond.1 hlast), ← append_assoc, hsep]
      · rw [separated, if_pos ⟨hlast, hback⟩, ← append_assoc, hsep]

theorem components_joined (h : xs.IsChain Apart) :
    (segments (joined xs)).filterMap piece = componentsOf xs := by
  induction xs using reverseRecOn with
  | nil => simp [joined, componentsOf]
  | append_singleton xs p ih =>
    obtain ⟨hxs, -, hlast⟩ := isChain_append.mp h
    rw [components_joined_concat (fun x hx => hlast x hx p rfl), ih hxs, componentsOf_append,
      componentsOf_singleton]

theorem join_eq_iff (h : isAbsolute (joined paths) = isAbsolute (slashed paths)) :
    join paths = joinForm paths ↔
      leadingUps (slashed paths) = 0 ∧ gluedStack (joined paths) = stack (slashed paths) := by
  have hnames := gluedStack_isName (p := joined paths)
  have hiff := text_eq_lexicalForm_iff (p := slashed paths) hnames
  rw [join, joinForm, normalizePathNoAbsolute_eq, h]
  by_cases hemp : text (isAbsolute (slashed paths)) (gluedStack (joined paths)) = []
  · have hrel : isAbsolute (slashed paths) = false := by
      by_contra habsolute
      rw [Bool.not_eq_false] at habsolute
      rw [habsolute] at hemp
      cases hemp
    have hglued : gluedStack (joined paths) = [] := by
      have hmap := components_text hnames (isAbsolute (slashed paths))
      rw [hemp, components_nil] at hmap
      exact map_eq_nil_iff.mp hmap.symm
    rw [if_pos hemp, eq_comm, lexicalForm_eq_dot_iff hrel, hglued, eq_comm (a := [])]
  · rw [if_neg hemp, hiff]
    refine ⟨fun hall => ⟨hall.1, hall.2.1⟩, fun hall => ⟨hall.1, hall.2, fun hnil => ?_⟩⟩
    by_contra habsolute
    rw [Bool.not_eq_true] at habsolute
    rw [hall.2, hnil, habsolute] at hemp
    exact hemp rfl

theorem join_eq_iff_of_head (h : paths.head? ≠ some []) : join paths = joinForm paths ↔
    (isAbsolute paths.flatten = true ∨ ups [] (componentsOf paths) = 0) ∧
      gluedStack (joined paths) = (componentsOf paths).foldl walk [] := by
  obtain ⟨hjn, hslashed⟩ := isAbsolute_joined h
  have hups : leadingUps (slashed paths) = 0 ↔
      isAbsolute paths.flatten = true ∨ ups [] (componentsOf paths) = 0 := by
    rw [leadingUps, hslashed, components_slashed]
    cases isAbsolute paths.flatten <;> simp
  rw [join_eq_iff (hjn.trans hslashed.symm), hups, stack, walkText, components_slashed]

theorem join_eq_iff_joins (h : paths.IsChain Apart) :
    join paths = joinForm paths ↔ Joins paths := by
  have hglued : gluedStack (joined paths) = gluedStack (slashed paths) := by
    rw [gluedStack, components_joined h, gluedStack, components_slashed]
  have hsame : isAbsolute (joined paths) = isAbsolute (slashed paths) →
      (join paths = joinForm paths ↔
        leadingUps (slashed paths) = 0 ∧ NamesApart (slashed paths)) := by
    intro habsolute
    rw [join_eq_iff habsolute, hglued, gluedStack_eq_iff]
  by_cases hhead : paths.head? = some []
  · -- The first separator is written for an empty element.
    have hjn : isAbsolute (joined paths) = true := by
      obtain ⟨rest, rfl⟩ := head?_eq_some_iff.mp hhead
      rfl
    by_cases habsolute : isAbsolute (slashed paths) = true
    · rw [hsame (hjn.trans habsolute.symm), Joins]
      exact ⟨fun hright => ⟨fun _ => habsolute, hright⟩, fun hjoins => hjoins.2⟩
    · refine iff_of_false (fun hright => ?_) (fun hjoins => habsolute (hjoins.1 hhead))
      have hform : isAbsolute (joinForm paths) = true := by
        rw [← hright, join, normalizePathNoAbsolute_eq, hjn, if_neg (by simp [text]),
          isAbsolute_text gluedStack_isName]
      rw [joinForm, isAbsolute_lexicalForm] at hform
      exact habsolute hform
  · obtain ⟨hjn, hslashed⟩ := isAbsolute_joined hhead
    rw [hsame (hjn.trans hslashed.symm), Joins]
    exact ⟨fun hright => ⟨fun hnil => absurd hnil hhead, hright⟩, fun hjoins => hjoins.2⟩

/-! ### Lists that are kept apart -/

theorem KeepsApart.join_eq (h : KeepsApart paths) : join paths = joinForm paths := by
  rw [join_eq_iff_of_head h.head, gluedStack, components_joined h.chain]
  exact ⟨ups_of_keeps h.names, foldl_glue_of_keeps h.names⟩

theorem isAbsolute_flatten_append (h : xs.head? ≠ some []) (hxs : xs ≠ [])
    (ys : List (List Char)) : isAbsolute (xs ++ ys).flatten = isAbsolute xs.flatten := by
  obtain ⟨x, xs, rfl⟩ := exists_cons_of_ne_nil hxs
  have hx : x ≠ [] := by simpa using h
  rw [cons_append, flatten_cons, isAbsolute_append hx, flatten_cons, isAbsolute_append hx]

theorem KeepsApart.of_append {ys : List (List Char)} (h : KeepsApart (xs ++ ys)) :
    KeepsApart xs := by
  by_cases hxs : xs = []
  · rw [hxs]
    exact ⟨by simp, .nil, trivial⟩
  · have hhead : xs.head? ≠ some [] := by
      intro hnil
      exact h.head (by rw [head?_append, hnil, Option.some_or])
    refine ⟨hhead, h.chain.left_of_append, ?_⟩
    have hnames := h.names
    rw [isAbsolute_flatten_append hhead hxs, componentsOf_append, keeps_append] at hnames
    exact hnames.1

theorem Cut.exists_append (h : Cut q p) : ∃ tail cs, p = q ++ tail ∧
    (segments p).filterMap piece = (segments q).filterMap piece ++ cs := by
  rcases h.rest with rfl | ⟨rest, rfl⟩
  · exact ⟨[], [], (append_nil p).symm, (append_nil _).symm⟩
  · exact ⟨sep :: rest, _, rfl, components_append_sep q rest⟩

theorem Cut.isAbsolute_flatten (h : Cut q p) (xs : List (List Char)) :
    isAbsolute (xs ++ [q]).flatten = isAbsolute (xs ++ [p]).flatten := by
  obtain ⟨tail, -, rfl, -⟩ := h.exists_append
  have hne : xs.flatten ++ q ≠ [] := fun hnil => h.ne_nil (append_eq_nil_iff.mp hnil).2
  rw [flatten_append, flatten_append, flatten_singleton, flatten_singleton,
    ← append_assoc, isAbsolute_append hne]

theorem Cut.apart (hcut : Cut q p) (h : Apart x p) : Apart x q := by
  intro hback
  obtain ⟨tail, -, rfl, -⟩ := hcut.exists_append
  rcases h hback with hnil | habsolute
  · exact .inl (append_eq_nil_iff.mp hnil).1
  · exact .inr (by rwa [isAbsolute_append hcut.ne_nil] at habsolute)

theorem head?_concat_ne (h : (xs ++ [p]).head? ≠ some []) (hq : q ≠ []) :
    (xs ++ [q]).head? ≠ some [] := by
  cases xs with
  | nil => simpa using hq
  | cons => exact h

theorem KeepsApart.cut (h : KeepsApart (xs ++ [p])) (hcut : Cut q p) : KeepsApart (xs ++ [q]) := by
  have hhead := head?_concat_ne h.head hcut.ne_nil
  obtain ⟨hxs, -, hlast⟩ := isChain_append.mp h.chain
  refine ⟨hhead, isChain_append.mpr ⟨hxs, .singleton q, ?_⟩, ?_⟩
  · rintro x hx _ ⟨⟩
    exact hcut.apart (hlast x hx p rfl)
  · obtain ⟨-, cs, -, hcomp⟩ := hcut.exists_append
    have hnames := h.names
    rw [← hcut.isAbsolute_flatten, componentsOf_append, componentsOf_singleton, hcomp,
      ← append_assoc, ← componentsOf_singleton, ← componentsOf_append, keeps_append] at hnames
    exact hnames.1

theorem KeepsApart.of_initialPart (h : KeepsApart ps) (hqs : InitialPart qs ps) :
    KeepsApart qs := by
  rcases hqs with ⟨ys, rfl⟩ | ⟨xs, q, p, hcut, rfl, ys, rfl⟩
  · exact h.of_append
  · exact h.of_append.cut hcut

/-! ### Lists that are joined rightly from the start on -/

theorem exists_first_piece (hp : p ≠ []) (hrel : isAbsolute p = false) :
    ∃ s, sep ∉ s ∧ Cut s p := by
  have happ := takeWhile_append_dropWhile (p := (· != sep)) (l := p)
  refine ⟨p.takeWhile (· != sep), ?_, ?_, ?_⟩
  · intro hmem
    simpa using mem_takeWhile_imp hmem
  · obtain ⟨c, p', rfl⟩ := exists_cons_of_ne_nil hp
    have hc : c ≠ sep := by simpa [isAbsolute] using hrel
    simp [hc]
  · cases hrest : p.dropWhile (· != sep) with
    | nil => exact .inl (by rw [hrest, append_nil] at happ; exact happ.symm)
    | cons c rest =>
      have hc : c = sep := by
        have hnot := head?_dropWhile_not (· != sep) p
        simpa [hrest] using hnot
      exact .inr ⟨rest, by rw [hrest, hc] at happ; exact happ.symm⟩

theorem concat_append_ne {n s : List Char} (hs : s ≠ []) (c : Component Char) :
    names ++ [n ++ s] ≠ names ++ [n] ∧ names ++ [n ++ s] ≠ walk (names ++ [n]) c := by
  have hself : names ++ [n ++ s] ≠ names ++ [n] := by simpa using hs
  refine ⟨hself, ?_⟩
  cases c with
  | rootDir | curDir => exact hself
  | parentDir | normal m =>
    intro heq
    have hlen := congrArg length heq
    simp [walk] at hlen

theorem getLast?_joined (hlast : xs.getLast? = some x) (hback : x.getLast? = some '\\') :
    (joined xs).getLast? = some '\\' := by
  obtain ⟨ys, rfl⟩ := getLast?_eq_some_iff.mp hlast
  rw [joined_concat, separated, if_neg (fun h => h.2 hback), getLast?_append, hback, Option.some_or]

/-- An element that runs into the next one is joined wrongly with the first piece of that. -/
theorem apart_of_right (h : KeepsApart xs) (hlast : xs.getLast? = some x)
    (hright : ∀ qs, InitialPart qs (xs ++ [p]) → join qs = joinForm qs) : Apart x p := by
  intro hback
  by_contra hcontra
  obtain ⟨hp, habsolute⟩ := not_or.mp hcontra
  obtain ⟨s, hsep, hcut⟩ := exists_first_piece hp (Bool.eq_false_iff.mpr habsolute)
  have hpart : InitialPart (xs ++ [s]) (xs ++ [p]) := .inr ⟨xs, s, p, hcut, rfl, prefix_refl _⟩
  have hhead : (xs ++ [s]).head? ≠ some [] := by
    rw [head?_append_of_ne_nil _ (fun hnil => by simp [hnil] at hlast)]
    exact h.head
  have hglued := ((join_eq_iff_of_head hhead).mp (hright _ hpart)).2
  -- The name at the end takes the piece in, whatever the piece is.
  obtain ⟨cs, n, hcomp, hn, happ⟩ := exists_last_name (getLast?_joined hlast hback)
  rw [components_joined h.chain] at hcomp
  obtain ⟨hcs, hstep, -⟩ := keeps_append.mp (hcomp ▸ h.names)
  rw [gluedStack, joined_concat, components_append_separated, happ s hsep, componentsOf_append,
    hcomp, foldl_append, foldl_glue_of_keeps hcs, foldl_append, foldl_append,
    componentsOf_singleton, segments, splitOn_eq_singleton hsep] at hglued
  have hleft : glue (cs.foldl walk []) (.normal (n ++ s)) = cs.foldl walk [] ++ [n ++ s] :=
    glue_of_not_endsInBackslash hstep _
  rw [foldl_cons, hleft] at hglued
  cases hpiece : piece s with
  | none =>
    rw [filterMap_cons_none hpiece] at hglued
    exact (concat_append_ne hcut.ne_nil .curDir).1 hglued
  | some c =>
    rw [filterMap_cons_some hpiece] at hglued
    exact (concat_append_ne hcut.ne_nil c).2 hglued

theorem exists_cut {init rest : List (List Char)} {s : List Char} (hs : s ≠ [])
    (hsegs : segments p = init ++ s :: rest) :
    ∃ q, Cut q p ∧ (segments q).filterMap piece = (init ++ [s]).filterMap piece := by
  have hp : [sep].intercalate (init ++ s :: rest) = p := by
    rw [← hsegs, segments, intercalate_splitOn]
  have hlast := getLast?_text_concat hs false init
  refine ⟨[sep].intercalate (init ++ [s]), ⟨?_, ?_⟩, ?_⟩
  · intro hnil
    rw [text, if_neg Bool.false_ne_true, nil_append, hnil] at hlast
    exact hs (getLast?_eq_none_iff.mp hlast.symm)
  · cases rest with
    | nil => exact .inl hp.symm
    | cons t rest =>
      refine .inr ⟨[sep].intercalate (t :: rest), ?_⟩
      rw [← hp, ← intercalate_append (by simp) (cons_ne_nil t rest), append_assoc, singleton_append]
  · refine components_intercalate_of_not_mem fun m hm => sep_not_mem_of_mem_segments (p := p) ?_
    rw [hsegs]
    rcases mem_append.mp hm with hm | hm
    · exact mem_append_left _ hm
    · exact mem_append_right _ (mem_singleton.mp hm ▸ mem_cons_self)

/-- The components of the next element are read as they should be, up to each of its pieces. -/
theorem keeps_of_right (h : KeepsApart xs) (hhead : (xs ++ [p]).head? ≠ some [])
    (hlast : ∀ x ∈ xs.getLast?, Apart x p)
    (hright : ∀ qs, InitialPart qs (xs ++ [p]) → join qs = joinForm qs)
    (init rest : List (List Char)) (hsegs : segments p = init ++ rest) :
    keeps (isAbsolute (xs ++ [p]).flatten) [] (componentsOf xs ++ init.filterMap piece) := by
  induction init using reverseRecOn generalizing rest with
  | nil =>
    rw [filterMap_nil, append_nil]
    by_cases hxs : xs = []
    · rw [hxs]
      trivial
    · rw [isAbsolute_flatten_append h.head hxs]
      exact h.names
  | append_singleton init s ih =>
    rw [append_assoc, singleton_append] at hsegs
    have hinit := ih _ hsegs
    rw [filterMap_append]
    cases hpiece : piece s with
    | none => rwa [filterMap_cons_none hpiece, filterMap_nil, append_nil]
    | some c =>
      have hs : s ≠ [] := by
        rintro rfl
        rw [piece_nil] at hpiece
        cases hpiece
      obtain ⟨q, hcut, hcomp⟩ := exists_cut hs hsegs
      rw [filterMap_append, filterMap_cons_some hpiece, filterMap_nil] at hcomp
      rw [filterMap_cons_some hpiece, filterMap_nil, ← append_assoc, keeps_append]
      have hpart : InitialPart (xs ++ [q]) (xs ++ [p]) := .inr ⟨xs, q, p, hcut, rfl, prefix_refl _⟩
      have hlast' : ∀ x ∈ xs.getLast?, Apart x q := fun x hx => hcut.apart (hlast x hx)
      obtain ⟨hups, hglued⟩ :=
        (join_eq_iff_of_head (head?_concat_ne hhead hcut.ne_nil)).mp (hright _ hpart)
      rw [gluedStack, components_joined_concat hlast', components_joined h.chain] at hglued
      rw [componentsOf_append, componentsOf_singleton, hcomp, ← append_assoc]
        at hups hglued
      rw [hcut.isAbsolute_flatten] at hups
      exact ⟨hinit, keepsStep_of_right hinit hups hglued, trivial⟩

theorem right_iff_keepsApart (ps : List (List Char)) :
    (∀ qs, InitialPart qs ps → join qs = joinForm qs) ↔ KeepsApart ps := by
  constructor
  · intro hright
    induction ps using reverseRecOn with
    | nil => exact ⟨by simp, .nil, trivial⟩
    | append_singleton xs p ih =>
      have hpart : ∀ qs, InitialPart qs xs → InitialPart qs (xs ++ [p]) := by
        rintro qs (hqs | ⟨ys, q, r, hcut, hqs, hys⟩)
        · exact .inl (hqs.trans (prefix_append xs [p]))
        · exact .inr ⟨ys, q, r, hcut, hqs, hys.trans (prefix_append xs [p])⟩
      have hxs : KeepsApart xs := ih fun qs hqs => hright qs (hpart qs hqs)
      have hhead : (xs ++ [p]).head? ≠ some [] := by
        intro hnil
        cases xs with
        | nil =>
          obtain rfl : p = [] := by simpa using hnil
          have hwrong := hright [[]] (.inl (prefix_refl _))
          revert hwrong
          decide
        | cons => exact hxs.head hnil
      have hlast : ∀ x ∈ xs.getLast?, Apart x p := fun x hx => apart_of_right hxs hx hright
      refine ⟨hhead, isChain_append.mpr ⟨hxs.chain, .singleton p, ?_⟩, ?_⟩
      · rintro x hx _ ⟨⟩
        exact hlast x hx
      · rw [componentsOf_append, componentsOf_singleton]
        exact keeps_of_right hxs hhead hlast hright (segments p) [] (append_nil _).symm
  · exact fun h qs hqs => (h.of_initialPart hqs).join_eq

/-- **Where paths become what they should.** `normalize` returns the normal form of exactly the
texts that it can keep the names of. `join` is right on exactly the lists that it can keep the
names of, if no element runs into the next, and on exactly the lists, with all their initial
parts, whose elements it keeps apart. -/
theorem normalize_join_right_iff (p : List Char) (ps : List (List Char)) :
    (normalize p = normalForm p ↔ Normalizes p) ∧
      (ps.IsChain Apart → (join ps = joinForm ps ↔ Joins ps)) ∧
      ((∀ qs, InitialPart qs ps → join qs = joinForm qs) ↔ KeepsApart ps) :=
  ⟨normalize_eq_normalForm_iff p, join_eq_iff_joins, right_iff_keepsApart ps⟩

/-- With a `..` in the middle, a separator at the end and an element that brings its own. -/
theorem sample_normalize_join_right : Normalizes "a/../b//".toList ∧
    normalize "a/../b//".toList = normalForm "a/../b//".toList ∧
    ["a".toList, "../x".toList, "/b".toList].IsChain Apart ∧
    join ["a".toList, "../x".toList, "/b".toList] =
      joinForm ["a".toList, "../x".toList, "/b".toList] := by
  have hright := normalize_join_right_iff "a/../b//".toList
    ["a".toList, "../x".toList, "/b".toList]
  have hnorm : Normalizes "a/../b//".toList := by decide
  have hchain : ["a".toList, "../x".toList, "/b".toList].IsChain Apart := by simp [Apart]
  exact ⟨hnorm, hright.1.mpr hnorm, hchain, (hright.2.1 hchain).mpr (by decide)⟩

/-- Nothing, the root and a `..` at the start are normalised wrongly, and so are names at a
backslash. Joining makes an empty first element the root, and two names one. -/
theorem normalize_join_wrong :
    (normalize "".toList = "".toList ∧ normalForm "".toList = ".".toList) ∧
    (normalize "/".toList = "//".toList ∧ normalForm "/".toList = "/".toList) ∧
    (normalize "../x".toList = "x".toList ∧ normalForm "../x".toList = "../x".toList) ∧
    (normalize "a/..".toList = "".toList ∧ normalForm "a/..".toList = ".".toList) ∧
    (normalize "a\\/b".toList = "a\\b".toList ∧ normalForm "a\\/b".toList = "a\\/b".toList) ∧
    (join ["".toList, "a".toList] = "/a".toList ∧
      joinForm ["".toList, "a".toList] = "a".toList) ∧
    (join ["a\\".toList, "b".toList] = "a\\b".toList ∧
      joinForm ["a\\".toList, "b".toList] = "a\\/b".toList) := by
  decide

end Tauri.PathPlugin
