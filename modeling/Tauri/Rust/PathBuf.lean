import Tauri.Rust.Path
import Tauri.Rust.Search

/-!
# Paths as texts

`std::path::PathBuf` on Unix, as the text that it is: pushing and popping edit the text, and
`components` reads it. The alphabet is any type with a separator and a dot, so that the same
functions serve texts that are valid Unicode and texts that are not.

A **stack** of names with or without a root has one text (`text`), and on such texts pushing a
name and popping are what they are on stacks (`push_text`, `pop_text_concat`). Reading the
components of any text onto a stack (`stack`) commutes with pushing any text
(`stack_push_of_relative`), which is how a sequence of pushes is compared with another.
-/

namespace Rust.PathBuf

open List

/-- An alphabet that paths are written in. -/
class PathChar (α : Type) where
  sep : α
  dot : α
  sep_ne_dot : sep ≠ dot

instance : PathChar Char := ⟨'/', '.', by decide⟩

instance : PathChar OsChar := ⟨.char '/', .char '.', by decide⟩

export PathChar (sep dot)

/-- `std::path::Component`, without the prefixes of Windows. -/
inductive Component (α : Type) where
  | rootDir
  | curDir
  | parentDir
  | normal (name : List α)
  deriving DecidableEq, Repr

section Operations

variable {α : Type} [DecidableEq α] [PathChar α]

/-- The pieces of the text between the separators. -/
def segments (p : List α) : List (List α) := p.splitOn sep

/-- `parse_single_component`: empty pieces and `.` are no components. -/
def piece (s : List α) : Option (Component α) :=
  if s = [] ∨ s = [dot] then none
  else if s = [dot, dot] then some .parentDir
  else some (.normal s)

/-- `Path::is_absolute`, on Unix `has_root`. -/
def isAbsolute (p : List α) : Bool := p.head? == some sep

/-- `include_cur_dir`: the path begins with the component `.`. -/
def includeCurDir (p : List α) : Bool := (segments p).head? == some [dot]

/-- `Path::components`. -/
def components (p : List α) : List (Component α) :=
  (if isAbsolute p then [.rootDir] else if includeCurDir p then [.curDir] else []) ++
    (segments p).filterMap piece

/-- `PathBuf::push`: an absolute path replaces, a separator is put where there is none. -/
def push (p q : List α) : List α :=
  if isAbsolute q then q
  else if p ≠ [] ∧ p.getLast? ≠ some sep then p ++ sep :: q
  else p ++ q

/-- The text that is read as the root or as the leading `.`. -/
def beforeBody (p : List α) : List α :=
  if isAbsolute p then [sep] else if includeCurDir p then [dot] else []

/-- `PathBuf::pop`: the text up to the last component, without the separators and the `.` that
then stand at its end. The root stays. -/
def pop (p : List α) : List α :=
  let body := segments (p.drop (beforeBody p).length)
  match body.reverse.dropWhile fun s => (piece s).isNone with
  | _ :: rest =>
    beforeBody p ++ [sep].intercalate (rest.dropWhile fun s => (piece s).isNone).reverse
  | [] => if beforeBody p = [dot] then [] else p

/-- The text can stand for itself between two separators. -/
def IsName (s : List α) : Prop := sep ∉ s ∧ piece s = some (.normal s)

/-- The text of a stack of names, with or without a root. -/
def text (absolute : Bool) (names : List (List α)) : List α :=
  (if absolute then [sep] else []) ++ [sep].intercalate names

/-- One component on a stack of names: `..` pops, a name is pushed. -/
def walk (names : List (List α)) : Component α → List (List α)
  | .parentDir => names.dropLast
  | .normal name => names ++ [name]
  | .rootDir => names
  | .curDir => names

/-- The components of a text, read onto a stack. -/
def walkText (names : List (List α)) (p : List α) : List (List α) :=
  ((segments p).filterMap piece).foldl walk names

/-- The stack of names that a text stands for. -/
def stack (p : List α) : List (List α) := walkText [] p

end Operations

section Stacks

variable {α : Type} [DecidableEq α] [PathChar α] {names : List (List α)} {n p q : List α}

@[simp] theorem piece_nil : piece ([] : List α) = none := by simp [piece]

@[simp] theorem piece_dot : piece [(dot : α)] = none := by simp [piece]

theorem IsName.ne_nil (h : IsName n) : n ≠ [] := by
  rintro rfl
  simp [IsName] at h

theorem IsName.ne_dot (h : IsName n) : n ≠ [dot] := by
  rintro rfl
  simp [IsName] at h

theorem IsName.ne_dotdot (h : IsName n) : n ≠ [dot, dot] := by
  rintro rfl
  simp [IsName, piece] at h

theorem eq_of_piece_eq_normal {s : List α} (h : piece s = some (.normal n)) : n = s := by
  unfold piece at h
  split at h
  · cases h
  · grind

theorem sep_not_mem_of_mem_segments {s : List α} (h : s ∈ segments p) : (sep : α) ∉ s :=
  not_mem_of_mem_splitOn h

theorem isName_of_mem (h : .normal n ∈ (segments p).filterMap piece) : IsName n := by
  obtain ⟨s, hs, hpiece⟩ := mem_filterMap.mp h
  obtain rfl := eq_of_piece_eq_normal hpiece
  exact ⟨sep_not_mem_of_mem_segments hs, hpiece⟩

theorem not_isAbsolute_of_not_mem (h : (sep : α) ∉ p) : isAbsolute p = false := by
  cases p with
  | nil => rfl
  | cons c p =>
    have hc : c ≠ sep := fun hc => h (hc ▸ mem_cons_self)
    simp [isAbsolute, hc]

@[simp] theorem components_append_sep (p q : List α) :
    (segments (p ++ sep :: q)).filterMap piece =
      (segments p).filterMap piece ++ (segments q).filterMap piece := by
  rw [segments, splitOn_append_cons_self, filterMap_append, segments, segments]

@[simp] theorem components_nil : (segments ([] : List α)).filterMap piece = [] := by simp [segments]

theorem components_cons_sep (p : List α) :
    (segments (sep :: p)).filterMap piece = (segments p).filterMap piece := by
  simpa using components_append_sep [] p

theorem components_intercalate_of_not_mem (h : ∀ n ∈ names, sep ∉ n) :
    (segments ([sep].intercalate names)).filterMap piece = names.filterMap piece := by
  by_cases hnil : names = []
  · simp [hnil]
  · rw [segments, splitOn_intercalate _ h hnil]

theorem filterMap_piece (h : ∀ n ∈ names, IsName n) :
    names.filterMap piece = names.map .normal := by
  induction names with
  | nil => rfl
  | cons n names ih =>
    obtain ⟨hn, hnames⟩ := forall_mem_cons.mp h
    rw [filterMap_cons_some hn.2, ih hnames, map_cons]

omit [DecidableEq α] in
theorem intercalate_append {ms : List (List α)} (hnames : names ≠ []) (hms : ms ≠ []) :
    [sep].intercalate (names ++ ms) = [sep].intercalate names ++ sep :: [sep].intercalate ms := by
  induction names with
  | nil => exact absurd rfl hnames
  | cons m names ih =>
    rw [cons_append, intercalate_cons_of_ne_nil (by simp [hms])]
    by_cases hnil : names = []
    · simp [hnil]
    · rw [ih hnil, intercalate_cons_of_ne_nil hnil]
      simp

omit [DecidableEq α] in
theorem intercalate_concat (hnames : names ≠ []) (n : List α) :
    [sep].intercalate (names ++ [n]) = [sep].intercalate names ++ sep :: n := by
  rw [intercalate_append hnames (cons_ne_nil n []), intercalate_singleton]

theorem isAbsolute_intercalate (h : ∀ n ∈ names, n ≠ [] ∧ sep ∉ n) :
    isAbsolute ([sep].intercalate names) = false := by
  cases names with
  | nil => rfl
  | cons n names =>
    obtain ⟨⟨hne, hsep⟩, -⟩ := forall_mem_cons.mp h
    obtain ⟨c, n', rfl⟩ := exists_cons_of_ne_nil hne
    have hc : c ≠ sep := fun hc => hsep (hc ▸ mem_cons_self)
    by_cases hnil : names = []
    · simp [hnil, isAbsolute, hc]
    · simp [intercalate_cons_of_ne_nil hnil, isAbsolute, hc]

theorem isAbsolute_text_of_not_mem (h : ∀ n ∈ names, n ≠ [] ∧ sep ∉ n) (absolute : Bool) :
    isAbsolute (text absolute names) = absolute := by
  cases absolute with
  | true => simp [text, isAbsolute]
  | false => simpa [text] using isAbsolute_intercalate h

theorem isAbsolute_text (h : ∀ n ∈ names, IsName n) (absolute : Bool) :
    isAbsolute (text absolute names) = absolute :=
  isAbsolute_text_of_not_mem (fun n hn => ⟨(h n hn).ne_nil, (h n hn).1⟩) absolute

theorem components_text_of_not_mem (h : ∀ n ∈ names, sep ∉ n) (absolute : Bool) :
    (segments (text absolute names)).filterMap piece = names.filterMap piece := by
  rw [← components_intercalate_of_not_mem h]
  cases absolute with
  | true => rw [text, if_pos rfl, singleton_append, components_cons_sep]
  | false => rw [text, if_neg Bool.false_ne_true, nil_append]

theorem components_text (h : ∀ n ∈ names, IsName n) (absolute : Bool) :
    (segments (text absolute names)).filterMap piece = names.map .normal := by
  rw [components_text_of_not_mem fun n hn => (h n hn).1, filterMap_piece h]

theorem push_of_ne_nil (hnames : ∀ s ∈ names, s ≠ [] ∧ sep ∉ s) (hne : names ≠ [])
    (hq : isAbsolute q = false) (absolute : Bool) :
    push (text absolute names) q = text absolute names ++ sep :: q := by
  rw [push, hq, if_neg Bool.false_ne_true, if_pos]
  obtain rfl | ⟨init, last, rfl⟩ := eq_nil_or_concat' names
  · exact absurd rfl hne
  · obtain ⟨hne, hsep⟩ := hnames last (by simp)
    obtain ⟨front, hfront⟩ : ∃ front, text absolute (init ++ [last]) = front ++ last := by
      by_cases hinit : init = []
      · exact ⟨if absolute then [sep] else [], by simp [hinit, text]⟩
      · exact ⟨_, by rw [text, intercalate_concat hinit, ← append_assoc,
          ← append_cons]⟩
    refine ⟨by simp [hfront, hne], ?_⟩
    rw [hfront, getLast?_append_of_ne_nil _ hne]
    exact fun h => hsep (mem_of_getLast? h)

theorem push_of_not_mem (hnames : ∀ s ∈ names, s ≠ [] ∧ sep ∉ s) (hn : sep ∉ n) (absolute : Bool) :
    push (text absolute names) n = text absolute (names ++ [n]) := by
  by_cases hne : names = []
  · cases absolute <;> simp [hne, text, push, not_isAbsolute_of_not_mem hn]
  · rw [push_of_ne_nil hnames hne (not_isAbsolute_of_not_mem hn), text, append_assoc,
      ← intercalate_concat hne, text]

theorem push_text (hnames : ∀ m ∈ names, IsName m) (hn : IsName n) (absolute : Bool) :
    push (text absolute names) n = text absolute (names ++ [n]) :=
  push_of_not_mem (fun m hm => ⟨(hnames m hm).ne_nil, (hnames m hm).1⟩) hn.1 absolute

section

variable (h : ∀ n ∈ names, IsName n)
include h

theorem includeCurDir_intercalate : includeCurDir ([sep].intercalate names) = false := by
  cases names with
  | nil => simp [includeCurDir, segments]
  | cons n names =>
    have hsplit : segments ([sep].intercalate (n :: names)) = n :: names :=
      splitOn_intercalate _ (fun m hm => (h m hm).1) (cons_ne_nil _ _)
    have hn := h n mem_cons_self
    simp [includeCurDir, hsplit, hn.ne_dot]

theorem beforeBody_text (absolute : Bool) :
    beforeBody (text absolute names) = if absolute then [sep] else [] := by
  rw [beforeBody, isAbsolute_text h]
  cases absolute with
  | true => rfl
  | false => simp [text, includeCurDir_intercalate h]

theorem drop_beforeBody_text (absolute : Bool) :
    (text absolute names).drop (beforeBody (text absolute names)).length =
      [sep].intercalate names := by
  rw [beforeBody_text h, text, drop_left]

theorem dropWhile_names : names.dropWhile (fun s => (piece s).isNone) = names := by
  cases names with
  | nil => rfl
  | cons n =>
    have hn := h n mem_cons_self
    simp [hn.2]

end

theorem pop_text_concat (hnames : ∀ m ∈ names, IsName m) (hn : IsName n) (absolute : Bool) :
    pop (text absolute (names ++ [n])) = text absolute names := by
  have hall : ∀ m ∈ names ++ [n], IsName m := by simpa [or_imp, forall_and] using ⟨hnames, hn⟩
  have hsplit : segments ([sep].intercalate (names ++ [n])) = names ++ [n] :=
    splitOn_intercalate _ (fun m hm => (hall m hm).1) (by simp)
  have hrest : names.reverse.dropWhile (fun s => (piece s).isNone) = names.reverse :=
    dropWhile_names (by simpa using hnames)
  simp only [pop, drop_beforeBody_text hall, hsplit, reverse_append, reverse_singleton,
    singleton_append, dropWhile_cons, hn.2, Option.isNone_some, Bool.false_eq_true,
    if_false, hrest, reverse_reverse]
  rw [beforeBody_text hall, text]

theorem pop_text_nil (absolute : Bool) :
    pop (text absolute ([] : List (List α))) = text absolute [] := by
  have hnames : ∀ n ∈ ([] : List (List α)), IsName n := by simp
  have hfront : beforeBody (text absolute ([] : List (List α))) ≠ [dot] := by
    rw [beforeBody_text hnames]
    cases absolute with
    | true => simpa using PathChar.sep_ne_dot
    | false => simp
  simp only [pop, drop_beforeBody_text hnames, if_neg hfront]
  simp [segments]

theorem pop_text (h : ∀ n ∈ names, IsName n) (absolute : Bool) :
    pop (text absolute names) = text absolute names.dropLast := by
  rcases eq_nil_or_concat names with rfl | ⟨init, n, rfl⟩
  · exact pop_text_nil absolute
  · rw [concat_eq_append, dropLast_concat]
    exact pop_text_concat (fun m hm => h m (by simp [hm])) (h n (by simp)) absolute

/-! ### Stacks read from texts -/

/-- A step on stacks keeps names. -/
def KeepsNames (g : List (List α) → Component α → List (List α)) : Prop :=
  ∀ {names : List (List α)} {c : Component α}, (∀ n ∈ names, IsName n) →
    (∀ n, c = .normal n → IsName n) → ∀ n ∈ g names c, IsName n

theorem walk_isName : KeepsNames (walk : List (List α) → Component α → List (List α)) := by
  intro names c h hc n hn
  cases c with
  | rootDir | curDir => exact h n hn
  | parentDir => exact h n (mem_of_mem_dropLast hn)
  | normal m =>
    rcases mem_append.mp hn with hn | hn
    · exact h n hn
    · rw [mem_singleton.mp hn]
      exact hc m rfl

theorem KeepsNames.foldl {g : List (List α) → Component α → List (List α)} (hg : KeepsNames g)
    {cs : List (Component α)} (hcs : ∀ n, .normal n ∈ cs → IsName n)
    (h : ∀ n ∈ names, IsName n) : ∀ n ∈ cs.foldl g names, IsName n := by
  induction cs generalizing names with
  | nil => exact h
  | cons c cs ih =>
    refine ih (fun n hn => hcs n (mem_cons_of_mem c hn)) (hg h ?_)
    rintro n rfl
    exact hcs n mem_cons_self

theorem stack_isName : ∀ n ∈ stack p, IsName n :=
  KeepsNames.foldl walk_isName (fun _ => isName_of_mem) (by simp)

theorem rootDir_not_mem (p : List α) : .rootDir ∉ (segments p).filterMap piece := by
  intro h
  obtain ⟨s, -, hs⟩ := mem_filterMap.mp h
  unfold piece at hs
  split at hs
  · cases hs
  · split at hs <;> cases hs

/-- A step on texts writes down what a step on stacks builds. -/
structure Writes (f : List α → Component α → List α)
    (g : List (List α) → Component α → List (List α)) : Prop where
  rootDir : f [] .rootDir = [sep]
  curDir : f [] .curDir = []
  keepsNames : KeepsNames g
  step : ∀ {names : List (List α)} {c : Component α}, (∀ n ∈ names, IsName n) → c ≠ .rootDir →
    (∀ n, c = .normal n → IsName n) →
      ∀ absolute, f (text absolute names) c = text absolute (g names c)

section Writes

variable {f : List α → Component α → List α} {g : List (List α) → Component α → List (List α)}

theorem Writes.foldl (h : Writes f g) {cs : List (Component α)} (hroot : .rootDir ∉ cs)
    (hcs : ∀ n, .normal n ∈ cs → IsName n) (hnames : ∀ n ∈ names, IsName n) (absolute : Bool) :
    cs.foldl f (text absolute names) = text absolute (cs.foldl g names) := by
  induction cs generalizing names with
  | nil => rfl
  | cons c cs ih =>
    have hc : ∀ n, c = .normal n → IsName n := by
      rintro n rfl
      exact hcs n mem_cons_self
    rw [mem_cons, not_or] at hroot
    rw [foldl_cons, h.step hnames (Ne.symm hroot.1) hc]
    exact ih hroot.2 (fun n hn => hcs n (mem_cons_of_mem c hn)) (h.keepsNames hnames hc)

theorem Writes.components (h : Writes f g) (p : List α) : (components p).foldl f [] =
    text (isAbsolute p) (((segments p).filterMap piece).foldl g []) := by
  have hstart : ((if isAbsolute p then [.rootDir] else
      if includeCurDir p then [.curDir] else []) : List (Component α)).foldl f [] =
      text (isAbsolute p) [] := by
    cases isAbsolute p with
    | true => simp [h.rootDir, text]
    | false => cases includeCurDir p <;> simp [h.curDir, text]
  rw [PathBuf.components, foldl_append, hstart,
    h.foldl (rootDir_not_mem p) (fun _ => isName_of_mem) (by simp)]

end Writes

omit [DecidableEq α] [PathChar α] in
theorem foldl_walk_normal (names ms : List (List α)) :
    (ms.map Component.normal).foldl walk names = names ++ ms := by
  induction ms generalizing names with
  | nil => simp
  | cons m ms ih =>
    rw [map_cons, foldl_cons, ih, walk, append_assoc, singleton_append]

theorem stack_text (h : ∀ n ∈ names, IsName n) (absolute : Bool) :
    stack (text absolute names) = names := by
  rw [stack, walkText, components_text h, foldl_walk_normal, nil_append]

theorem stack_push_of_relative (hq : isAbsolute q = false) :
    stack (push p q) = walkText (stack p) q := by
  have hsep : ∀ p' : List α, stack (p' ++ sep :: q) = walkText (stack p') q := by
    intro p'
    rw [stack, walkText, components_append_sep, foldl_append]
    rfl
  rw [push, hq, if_neg Bool.false_ne_true]
  split
  · exact hsep p
  · rename_i hend
    rcases eq_nil_or_concat p with rfl | ⟨init, c, rfl⟩
    · simp [stack, walkText]
    · -- The path ends with a separator, after which nothing is read.
      obtain rfl : c = sep := by simpa using hend
      have hinit : stack (init ++ [sep]) = stack init := by
        rw [stack, walkText, components_append_sep, components_nil, append_nil]
        rfl
      rw [concat_eq_append, hinit, append_assoc, singleton_append, hsep]

theorem isAbsolute_push_of_relative (hq : isAbsolute q = false) :
    isAbsolute (push p q) = isAbsolute p := by
  rw [push, hq, if_neg Bool.false_ne_true]
  cases p with
  | nil => simpa [isAbsolute] using hq
  | cons c p => split <;> simp [isAbsolute]

end Stacks

end Rust.PathBuf
