import Mathlib

/-!
# Paths

`std::path::Path` on Unix. A path is kept as the list of its components, as `Path::components`
gives them: repeated separators, a separator at the end and inner `.` are gone, so that collecting
the components of a path again is the identity. Names are arbitrary byte strings without a
separator; they are kept as decoded text, in which the bytes that are no UTF-8 stand as they are.

The **stem** of a path is its text without the separator that the root directory ends with. A path
lies below another exactly if its text is the stem of the other, a separator, and more
(`Path.eq_join_of_text`); the empty path, whose stem is that of the root, is the exception.
-/

namespace Rust

open List

/-- A piece of an `OsStr`: a character, or bytes that do not decode. -/
inductive OsChar where
  | char (c : Char)
  | invalid (bytes : List UInt8)
  deriving DecidableEq, Repr

/-- `to_string_lossy`. -/
def toStringLossy (s : List OsChar) : List Char :=
  s.map fun
    | .char c => c
    | .invalid _ => '�'

/-- `to_str`. -/
def toStr (s : List OsChar) : Option (List Char) :=
  s.mapM fun
    | .char c => some c
    | .invalid _ => none

theorem toStr_eq_some {s : List OsChar} {t : List Char} : toStr s = some t ↔ s = t.map .char := by
  induction s generalizing t with
  | nil => cases t <;> simp [toStr]
  | cons x s ih =>
    have hcons : toStr (x :: s) = (match x with
        | .char c => some c
        | .invalid _ => none).bind fun c => (toStr s).map (c :: ·) := by
      cases x <;> simp [toStr, mapM_cons, Option.map_eq_bind]
    rw [hcons]
    cases x with
    | invalid => cases t <;> simp
    | char c =>
      cases t with
      | nil => simp
      | cons d t => simp [ih, and_comm]

@[simp] theorem toStringLossy_map_char (t : List Char) : toStringLossy (t.map .char) = t := by
  induction t with
  | nil => rfl
  | cons c t ih => simpa [toStringLossy] using ih

theorem splitOn_map_char (t : List Char) :
    (t.map OsChar.char).splitOn (.char '/') = (t.splitOn '/').map (List.map .char) := by
  induction t with
  | nil => rfl
  | cons c t ih =>
    rw [map_cons, splitOn_cons_eq_if_modifyHead, splitOn_cons_eq_if_modifyHead, ih]
    by_cases hc : c = '/'
    · simp [hc]
    · obtain ⟨s, ss, hss⟩ := exists_cons_of_ne_nil (splitOn_ne_nil '/' t)
      simp [hc, hss]

theorem map_char_injective : Function.Injective (List.map OsChar.char) :=
  map_injective_iff.mpr fun _ _ h => OsChar.char.inj h

/-- A piece as `to_string_lossy` shows it. -/
def OsChar.lossy : OsChar → OsChar
  | .char c => .char c
  | .invalid _ => .char '�'

theorem map_lossy (s : List OsChar) : s.map OsChar.lossy = (toStringLossy s).map .char := by
  rw [toStringLossy, map_map]
  refine map_congr_left fun x _ => ?_
  cases x <;> rfl

theorem OsChar.lossy_eq_char {x : OsChar} {c : Char} (hc : c ≠ '�') :
    x.lossy = .char c ↔ x = .char c := by
  cases x with
  | char d => rfl
  | invalid => simp [lossy, hc.symm]

theorem map_lossy_eq {s : List OsChar} {t : List Char} (ht : ∀ c ∈ t, c ≠ '�') :
    s.map OsChar.lossy = t.map .char ↔ s = t.map .char := by
  induction t generalizing s with
  | nil => simp
  | cons c t ih =>
    cases s with
    | nil => simp
    | cons x s =>
      obtain ⟨hc, ht⟩ := forall_mem_cons.mp ht
      simp only [map_cons, cons.injEq, OsChar.lossy_eq_char hc, ih ht]

/-- The name of a directory entry. -/
structure Name where
  text : List OsChar
  ne_nil : text ≠ []
  no_separator : .char '/' ∉ text
  ne_dot : text ≠ [.char '.']
  ne_dotdot : text ≠ [.char '.', .char '.']
  deriving DecidableEq

@[ext] theorem Name.ext {m n : Name} (h : m.text = n.text) : m = n := by
  cases m
  cases n
  simpa using h

/-- The name that a name is shown as. -/
def Name.lossy (n : Name) : Name where
  text := n.text.map OsChar.lossy
  ne_nil := by simpa using n.ne_nil
  no_separator := by
    intro hmem
    obtain ⟨x, hx, heq⟩ := List.mem_map.mp hmem
    rw [OsChar.lossy_eq_char (by decide)] at heq
    exact n.no_separator (heq ▸ hx)
  ne_dot := fun h => n.ne_dot ((map_lossy_eq (t := ['.']) (by simp)).mp h)
  ne_dotdot := fun h => n.ne_dotdot ((map_lossy_eq (t := ['.', '.']) (by simp)).mp h)

/-- A component of a path after the first. -/
inductive Component where
  | parentDir
  | normal (name : Name)
  deriving DecidableEq

namespace Component

def text : Component → List OsChar
  | parentDir => [.char '.', .char '.']
  | normal name => name.text

/-- The component that a component is shown as. -/
def lossy : Component → Component
  | parentDir => parentDir
  | normal name => normal name.lossy

variable (c : Component)

theorem text_lossy : c.lossy.text = c.text.map OsChar.lossy := by cases c <;> rfl

theorem text_injective : Function.Injective text := by
  intro c d h
  cases c with
  | parentDir =>
    cases d with
    | parentDir => rfl
    | normal n => exact absurd h.symm n.ne_dotdot
  | normal m =>
    cases d with
    | parentDir => exact absurd h m.ne_dotdot
    | normal n => rw [Name.ext h]

theorem text_ne_nil : c.text ≠ [] := by
  cases c with
  | parentDir => simp [text]
  | normal n => exact n.ne_nil

theorem text_ne_dot : c.text ≠ [.char '.'] := by
  cases c with
  | parentDir => simp [text]
  | normal n => exact n.ne_dot

theorem separator_notMem_text : .char '/' ∉ c.text := by
  cases c with
  | parentDir => simp [text]
  | normal n => exact n.no_separator

end Component

/-- How a path begins: with the root directory, with `.`, or with a name or `..`. -/
inductive Anchor where
  | rootDir
  | curDir
  | none
  deriving DecidableEq, Repr

/-- `Path`, as its components. -/
structure Path where
  anchor : Anchor
  components : List Component
  deriving DecidableEq

namespace Path

/-- The root directory. -/
def root : Path := ⟨.rootDir, []⟩

/-- The empty path. -/
def empty : Path := ⟨.none, []⟩

/-- `Path::join` with a relative path, given by its components. -/
def join (p : Path) (cs : List Component) : Path := ⟨p.anchor, p.components ++ cs⟩

/-- The pieces of the text between the separators. -/
def segments (p : Path) : List (List OsChar) :=
  (match p.anchor with
    | .rootDir => [[]]
    | .curDir => [[.char '.']]
    | .none => []) ++ p.components.map Component.text

/-- The text without the separator at the end of the root directory. -/
def stem (p : Path) : List OsChar := [.char '/'].intercalate p.segments

/-- The text of the path, `as_os_str`. -/
def text (p : Path) : List OsChar := if p = root then [.char '/'] else p.stem

/-- The text of components below a directory. -/
def below (cs : List Component) : List OsChar := [.char '/'].intercalate (cs.map Component.text)

/-- The path that a path is shown as. -/
def lossy (p : Path) : Path := ⟨p.anchor, p.components.map Component.lossy⟩

variable {p q : Path} {cs : List Component}

@[simp] theorem join_nil (p : Path) : p.join [] = p := by simp [join]

theorem join_injective (p : Path) : Function.Injective p.join := by
  intro cs ds h
  exact append_cancel_left (congrArg components h)

theorem separator_notMem_segments : ∀ s ∈ p.segments, .char '/' ∉ s := by
  intro s hs
  rcases mem_append.mp hs with hs | hs
  · cases hanchor : p.anchor <;> simp_all
  · obtain ⟨c, -, rfl⟩ := mem_map.mp hs
    exact c.separator_notMem_text

theorem splitOn_stem (h : p.segments ≠ []) : p.stem.splitOn (.char '/') = p.segments :=
  splitOn_intercalate _ separator_notMem_segments h

theorem segments_eq_nil : p.segments = [] ↔ p = empty := by
  obtain ⟨anchor, cs⟩ := p
  cases anchor <;> simp [segments, empty]

theorem segments_join : (p.join cs).segments = p.segments ++ cs.map Component.text := by
  simp [segments, join]

theorem eq_join_of_segments {ss : List (List OsChar)} (hq : q ≠ empty)
    (h : p.segments = q.segments ++ ss) :
    ∃ cs, p = q.join cs ∧ cs.map Component.text = ss := by
  obtain ⟨a, cs⟩ := p
  obtain ⟨b, ds⟩ := q
  have hanchor : a = b ∧ cs.map Component.text = ds.map Component.text ++ ss := by
    -- A component is neither empty nor `.`, which is how the other anchors begin.
    have hmem : ∀ {s : List OsChar} {l : List Component}, s ∈ l.map Component.text →
        s ≠ [] ∧ s ≠ [.char '.'] := by
      intro s l hs
      obtain ⟨c, -, rfl⟩ := mem_map.mp hs
      exact ⟨c.text_ne_nil, c.text_ne_dot⟩
    have hfirst : b = .none → ds ≠ [] := by
      rintro rfl rfl
      exact hq rfl
    cases a <;> cases b <;> simp only [segments, nil_append, cons_append] at h
    case rootDir.rootDir | curDir.curDir => exact ⟨rfl, (cons.inj h).2⟩
    case none.none => exact ⟨rfl, h⟩
    case rootDir.curDir | curDir.rootDir => simp at h
    case rootDir.none | curDir.none =>
      obtain ⟨d, ds', rfl⟩ := exists_cons_of_ne_nil (hfirst rfl)
      have hd := (cons.inj h).1
      first
        | exact absurd hd.symm d.text_ne_nil
        | exact absurd hd.symm d.text_ne_dot
    case none.rootDir =>
      have hin : [] ∈ cs.map Component.text := by simp [h]
      exact absurd rfl (hmem hin).1
    case none.curDir =>
      have hin : [.char '.'] ∈ cs.map Component.text := by simp [h]
      exact absurd rfl (hmem hin).2
  obtain ⟨rfl, hcs⟩ := hanchor
  obtain ⟨cs₁, cs₂, rfl, hcs₁, hcs₂⟩ := map_eq_append_iff.mp hcs
  rw [(map_injective_iff.mpr Component.text_injective) hcs₁]
  exact ⟨cs₂, rfl, hcs₂⟩

theorem splitOn_below (hcs : cs ≠ []) : (below cs).splitOn (.char '/') = cs.map Component.text := by
  refine splitOn_intercalate _ ?_ (by simpa using hcs)
  intro s hs
  obtain ⟨c, -, rfl⟩ := mem_map.mp hs
  exact c.separator_notMem_text

theorem splitOn_injective {α : Type} [BEq α] [LawfulBEq α] (a : α) :
    Function.Injective (List.splitOn a) :=
  Function.LeftInverse.injective (g := [a].intercalate) fun _ => intercalate_splitOn a

theorem splitOn_text_of_ne (hroot : p ≠ root) (hemp : p ≠ empty) :
    p.text.splitOn (.char '/') = p.segments := by
  rw [text, if_neg hroot, splitOn_stem fun h => hemp (segments_eq_nil.mp h)]

theorem text_join (hp : p ≠ empty) (hcs : cs ≠ []) :
    (p.join cs).text = p.stem ++ .char '/' :: below cs := by
  refine splitOn_injective (.char '/') ?_
  have hne : ∀ b, p.join cs ≠ ⟨b, []⟩ := by
    intro b h
    have hnil : p.components ++ cs = [] := congrArg components h
    exact hcs (append_eq_nil_iff.mp hnil).2
  rw [splitOn_text_of_ne (hne _) (hne _), splitOn_append_cons_self, splitOn_below hcs,
    splitOn_stem fun h => hp (segments_eq_nil.mp h), segments_join]

/-- **Paths below.** A path whose text continues the stem of another after a separator lies below
it. -/
theorem eq_join_of_text {r : List OsChar} (hq : q ≠ empty)
    (h : p.text = q.stem ++ .char '/' :: r) : ∃ cs, p = q.join cs ∧ r = below cs := by
  have hsegs : q.segments ≠ [] := fun hnil => hq (segments_eq_nil.mp hnil)
  have hsplit : p.text.splitOn (.char '/') = q.segments ++ r.splitOn (.char '/') := by
    rw [h, splitOn_append_cons_self, splitOn_stem hsegs]
  have hrest : r.splitOn (.char '/') ≠ [] := splitOn_ne_nil _ _
  by_cases hroot : p = root
  · -- The text is a separator: one empty segment on either side of it.
    subst hroot
    have htwo : [[], []] = q.segments ++ r.splitOn (.char '/') := hsplit
    obtain ⟨s, hs, s', hs'⟩ : ∃ s, q.segments = [s] ∧ ∃ s', r.splitOn (.char '/') = [s'] := by
      have hlen := congrArg length htwo
      have h₁ := length_pos_iff.mpr hsegs
      have h₂ := length_pos_iff.mpr hrest
      simp only [length_cons, length_nil, length_append] at hlen
      obtain ⟨s, hs⟩ := length_eq_one_iff.mp (show q.segments.length = 1 by omega)
      obtain ⟨s', hs'⟩ := length_eq_one_iff.mp (show (r.splitOn (.char '/')).length = 1 by omega)
      exact ⟨s, hs, s', hs'⟩
    rw [hs, hs'] at htwo
    obtain ⟨rfl, rfl⟩ : s = [] ∧ s' = [] := by simpa [eq_comm] using htwo
    have hroot : root.segments = q.segments ++ [] := by
      rw [hs]
      rfl
    obtain ⟨cs, hjoin, hcs⟩ := eq_join_of_segments hq hroot
    obtain rfl := map_eq_nil_iff.mp hcs
    refine ⟨[], hjoin, splitOn_injective (.char '/') ?_⟩
    rw [hs']
    rfl
  · by_cases hemp : p = empty
    · subst hemp
      have hone : [[]] = q.segments ++ r.splitOn (.char '/') := hsplit
      have hlen := congrArg length hone
      have h₁ := length_pos_iff.mpr hsegs
      have h₂ := length_pos_iff.mpr hrest
      simp only [length_cons, length_nil, length_append] at hlen
      omega
    · rw [splitOn_text_of_ne hroot hemp] at hsplit
      obtain ⟨cs, hjoin, hcs⟩ := eq_join_of_segments hq hsplit
      exact ⟨cs, hjoin, by rw [below, hcs, intercalate_splitOn]⟩

theorem text_injective : Function.Injective text := by
  have hroot : ∀ {p}, text p = root.text → p = root := by
    intro p h
    obtain ⟨cs, rfl, hcs⟩ := eq_join_of_text (p := p) (q := root) (r := []) (by decide) h
    cases cs with
    | nil => rfl
    | cons c cs =>
      have hsplit := splitOn_below (cons_ne_nil c cs)
      rw [← hcs] at hsplit
      exact absurd (cons.inj hsplit).1.symm c.text_ne_nil
  have hemp : ∀ {p}, text p = empty.text → p = empty := by
    intro p h
    by_contra hne
    have hp : p ≠ root := by
      rintro rfl
      cases h
    have hsegs : p.segments = root.segments ++ [] := by
      rw [← splitOn_text_of_ne hp hne, h]
      rfl
    obtain ⟨cs, rfl, hcs⟩ := eq_join_of_segments (by decide) hsegs
    rw [map_eq_nil_iff.mp hcs] at hp
    exact hp rfl
  intro p q h
  by_cases hp : p = root
  · rw [hp] at h ⊢
    exact (hroot h.symm).symm
  by_cases hp' : p = empty
  · rw [hp'] at h ⊢
    exact (hemp h.symm).symm
  by_cases hq : q = root
  · rw [hq] at h ⊢
    exact hroot h
  by_cases hq' : q = empty
  · rw [hq'] at h ⊢
    exact hemp h
  have hsegs : p.segments = q.segments ++ [] := by
    rw [← splitOn_text_of_ne hp hp', h, splitOn_text_of_ne hq hq', append_nil]
  obtain ⟨cs, rfl, hcs⟩ := eq_join_of_segments hq' hsegs
  rw [map_eq_nil_iff.mp hcs, join_nil]

theorem map_intercalate {α β : Type} (f : α → β) (a : α) (xs : List (List α)) :
    ([a].intercalate xs).map f = [f a].intercalate (xs.map (List.map f)) := by
  induction xs with
  | nil => rfl
  | cons x xs ih =>
    cases xs with
    | nil => simp
    | cons => simp_all

theorem lossy_eq_root : p.lossy = root ↔ p = root := by
  obtain ⟨anchor, cs⟩ := p
  simp [lossy, root]

theorem lossy_ne_empty (h : p ≠ empty) : p.lossy ≠ empty := by
  obtain ⟨anchor, cs⟩ := p
  simpa [lossy, empty] using h

theorem text_lossy (p : Path) : p.lossy.text = p.text.map OsChar.lossy := by
  rw [text, text]
  by_cases hroot : p = root
  · rw [if_pos hroot, if_pos (lossy_eq_root.mpr hroot)]
    rfl
  · rw [if_neg hroot, if_neg fun h => hroot (lossy_eq_root.mp h), stem, stem, map_intercalate]
    have hcomp : (p.components.map Component.lossy).map Component.text =
        (p.components.map Component.text).map (map OsChar.lossy) := by
      rw [map_map, map_map]
      exact map_congr_left fun c _ => c.text_lossy
    have hsegs : p.lossy.segments = p.segments.map (map OsChar.lossy) := by
      rw [segments, segments, lossy, hcomp, map_append]
      cases p.anchor <;> rfl
    rw [hsegs]
    rfl

theorem toStr_lossy (p : Path) : toStr p.lossy.text = some (toStringLossy p.text) := by
  rw [toStr_eq_some, text_lossy, map_lossy]

theorem lossy_eq_self (h : toStr p.text ≠ none) : p.lossy = p := by
  obtain ⟨t, ht⟩ := Option.ne_none_iff_exists'.mp h
  refine text_injective ?_
  rw [text_lossy, map_lossy, toStr_eq_some.mp ht, toStringLossy_map_char]

theorem eq_root_of_text {t : List OsChar} (h : p.text = t ++ [.char '/']) : p = root := by
  by_contra hroot
  have hemp : p ≠ empty := by
    rintro rfl
    simp [text, stem, segments, empty, root] at h
  have hsegs : p.segments = t.splitOn (.char '/') ++ [[]] := by
    rw [← splitOn_text_of_ne hroot hemp, h, splitOn_append_cons_self, splitOn_nil]
  -- There are two segments at least, so the last one is that of a component.
  rcases eq_nil_or_concat p.components with hnil | ⟨cs, c, hcs⟩
  · have hlen := congrArg length hsegs
    rw [segments, hnil] at hlen
    cases hanchor : p.anchor <;> simp [hanchor] at hlen
  · have hlast := congrArg getLast? hsegs
    rw [segments, hcs] at hlast
    exact c.text_ne_nil (by simpa using hlast)

end Path

end Rust
