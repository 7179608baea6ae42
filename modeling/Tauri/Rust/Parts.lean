import Tauri.Rust.PathBuf

/-!
# Paths by their parts

The **parts** of a text are its pieces between separators that are neither empty nor `.`: the names,
and `..`. A text that is written from parts is read back as them (`parts_text`), and pushing parts
appends them (`foldl_push_parts`). Two texts with the same parts and the same root have the same components,
except for a `.` in front.

`stripPrefix` compares components, so it sees a `.` in front of one of the texts.
-/

namespace Rust.PathBuf

open List

/-- `Component::as_os_str`. -/
def Component.asOsStr {α : Type} [PathChar α] : Component α → List α
  | .rootDir => [sep]
  | .curDir => [dot]
  | .parentDir => [dot, dot]
  | .normal name => name

section Parts

variable {α : Type} [DecidableEq α] [PathChar α]

/-- A name or `..`. -/
def IsPart (s : List α) : Prop := sep ∉ s ∧ s ≠ [] ∧ s ≠ [dot]

/-- The pieces of a text that are components. -/
def parts (p : List α) : List (List α) := (segments p).filter fun s => (piece s).isSome

/-- `PathBuf::from_iter`. -/
def collect (cs : List (Component α)) : List α := cs.foldl (fun p c => push p c.asOsStr) []

/-- `Path::strip_prefix`, for a text that is written from its components. -/
def stripPrefix (p base : List α) : Option (List α) :=
  ((components p).dropPrefix? (components base)).map collect

/-- `Path::file_name`. -/
def fileName (p : List α) : Option (List α) :=
  match (components p).getLast? with
  | some (.normal name) => some name
  | _ => none

/-- `Path::parent`, as a text that is written from its components. -/
def parent (p : List α) : Option (List α) :=
  match (components p).getLast? with
  | none => none
  | some .rootDir => none
  | some _ => some (collect (components p).dropLast)

instance (s : List α) : Decidable (IsName s) := inferInstanceAs (Decidable (_ ∧ _))

variable {names ms : List (List α)} {n p q s : List α}

theorem piece_isSome : (piece s).isSome = true ↔ s ≠ [] ∧ s ≠ [dot] := by
  unfold piece
  split_ifs with h h'
  · simpa [or_iff_not_imp_left] using h
  · simpa using not_or.mp h
  · simpa using not_or.mp h

theorem asOsStr_of_piece {c : Component α} (h : piece s = some c) : c.asOsStr = s := by
  unfold piece at h
  split_ifs at h with hnone hdots
  · rw [← Option.some.inj h, hdots]
    rfl
  · rw [← Option.some.inj h]
    rfl

theorem curDir_not_mem (names : List (List α)) : .curDir ∉ names.filterMap piece := by
  intro h
  obtain ⟨s, -, hs⟩ := mem_filterMap.mp h
  unfold piece at hs
  split_ifs at hs <;> cases hs

theorem not_isAbsolute_of_includeCurDir (h : includeCurDir p = true) : isAbsolute p = false := by
  cases p with
  | nil => rfl
  | cons c p =>
    by_cases hc : c = sep
    · have hsplit : segments (sep :: p) = [] :: segments p := splitOn_append_cons_self [] _
      simp [hc, includeCurDir, hsplit] at h
    · simp [isAbsolute, hc]

theorem isPart_of_mem_parts (h : s ∈ parts p) : IsPart s := by
  rw [parts, mem_filter] at h
  exact ⟨sep_not_mem_of_mem_segments h.1, piece_isSome.mp h.2⟩

theorem IsPart.piece_isSome (h : IsPart s) : (piece s).isSome = true := PathBuf.piece_isSome.mpr h.2

theorem IsName.isPart (h : IsName n) : IsPart n := ⟨h.1, h.ne_nil, h.ne_dot⟩

theorem filterMap_piece_parts (p : List α) :
    (parts p).filterMap piece = (segments p).filterMap piece := by
  rw [parts, filterMap_filter]
  refine filterMap_congr fun s _ => ?_
  cases hs : piece s <;> simp

section

variable (h : ∀ s ∈ names, IsPart s)
include h

theorem map_asOsStr_filterMap_piece : (names.filterMap piece).map Component.asOsStr = names := by
  induction names with
  | nil => rfl
  | cons s names ih =>
    obtain ⟨hs, hnames⟩ := forall_mem_cons.mp h
    obtain ⟨c, hc⟩ := Option.isSome_iff_exists.mp hs.piece_isSome
    rw [filterMap_cons_some hc, map_cons, asOsStr_of_piece hc, ih hnames]

theorem filterMap_piece_eq_nil : names.filterMap piece = [] ↔ names = [] := by
  rw [← map_eq_nil_iff (f := Component.asOsStr), map_asOsStr_filterMap_piece h]

end

theorem IsName.ne_nil_of_mem (h : ∀ n ∈ names, IsName n) : ∀ n ∈ names, n ≠ [] ∧ sep ∉ n :=
  fun n hn => ⟨(h n hn).ne_nil, (h n hn).1⟩

section

variable (h : ∀ s ∈ names, IsPart s)
include h

omit [DecidableEq α] in
theorem ne_nil_of_isPart : ∀ s ∈ names, s ≠ [] ∧ sep ∉ s :=
  fun s hs => ⟨(h s hs).2.1, (h s hs).1⟩

theorem parts_text (absolute : Bool) : parts (text absolute names) = names := by
  have hps : (segments ([sep].intercalate names)).filter (fun s => (piece s).isSome) = names := by
    by_cases hnil : names = []
    · simp [hnil, segments]
    · rw [segments, splitOn_intercalate _ (fun s hs => (h s hs).1) hnil,
        filter_eq_self.mpr fun s hs => (h s hs).piece_isSome]
  cases absolute with
  | false => rwa [parts, text, if_neg Bool.false_ne_true, nil_append]
  | true =>
    have hsplit : segments (sep :: [sep].intercalate names) =
        [] :: segments ([sep].intercalate names) := splitOn_append_cons_self [] _
    rw [parts, text, if_pos rfl, singleton_append, hsplit, filter_cons_of_neg (by simp), hps]

theorem includeCurDir_text : includeCurDir (text false names) = false := by
  rw [text, if_neg Bool.false_ne_true, nil_append]
  cases names with
  | nil => simp [includeCurDir, segments]
  | cons s names =>
    have hsplit : segments ([sep].intercalate (s :: names)) = s :: names :=
      splitOn_intercalate _ (fun t ht => (h t ht).1) (cons_ne_nil _ _)
    simp [includeCurDir, hsplit, (h s mem_cons_self).2.2]

theorem components_text_parts (absolute : Bool) :
    components (text absolute names) =
      (if absolute then [.rootDir] else []) ++ names.filterMap piece := by
  rw [components, ← filterMap_piece_parts, parts_text h,
    isAbsolute_text_of_not_mem (ne_nil_of_isPart h)]
  cases absolute with
  | true => rfl
  | false => rw [includeCurDir_text h]; rfl

end

theorem foldl_push_parts (hms : ∀ s ∈ ms, s ≠ [] ∧ sep ∉ s)
    (hnames : ∀ s ∈ names, s ≠ [] ∧ sep ∉ s) (absolute : Bool) :
    ms.foldl push (text absolute names) = text absolute (names ++ ms) := by
  induction ms generalizing names with
  | nil => simp
  | cons m ms ih =>
    obtain ⟨hm, hms⟩ := forall_mem_cons.mp hms
    have hnames' : ∀ s ∈ names ++ [m], s ≠ [] ∧ sep ∉ s := by grind
    rw [foldl_cons, push_of_not_mem hnames hm.2, ih hms hnames', append_assoc, singleton_append]

/-! ### Parts one by one -/

theorem IsPart.eq_or_isName (h : IsPart s) : s = [dot, dot] ∨ IsName s := by
  by_cases hdots : s = [dot, dot]
  · exact .inl hdots
  · exact .inr ⟨h.1, by simp [piece, h.2.1, h.2.2, hdots]⟩

theorem foldl_components {f : List α → Component α → List α} {g : List α → List α}
    (hcur : ∀ d, f d .curDir = d) (hup : ∀ d, f d .parentDir = push d (g [dot, dot]))
    (hname : ∀ d n, IsName n → f d (.normal n) = push d (g n)) (p : List α) :
    (components p).foldl f [] =
      ((parts p).map g).foldl push (if isAbsolute p then f [] .rootDir else []) := by
  have hstart : ((if isAbsolute p then [.rootDir] else
      if includeCurDir p then [.curDir] else []) : List (Component α)).foldl f [] =
      if isAbsolute p then f [] .rootDir else [] := by
    cases isAbsolute p with
    | true => rfl
    | false => cases includeCurDir p <;> simp [hcur]
  have hparts : ∀ s ∈ parts p, IsPart s := fun _ => isPart_of_mem_parts
  rw [components, foldl_append, hstart, ← filterMap_piece_parts]
  generalize (if isAbsolute p then f [] .rootDir else []) = d
  generalize parts p = names at hparts
  induction names generalizing d with
  | nil => rfl
  | cons s names ih =>
    obtain ⟨hs, hnames⟩ := forall_mem_cons.mp hparts
    rw [map_cons, foldl_cons]
    obtain rfl | hs := hs.eq_or_isName
    · have hdots : piece [dot, (dot : α)] = some .parentDir := by simp [piece]
      rw [filterMap_cons_some hdots, foldl_cons, hup, ih _ hnames]
    · rw [filterMap_cons_some hs.2, foldl_cons, hname _ _ hs, ih _ hnames]

theorem fileName_of_parts {init : List (List α)} (h : parts p = init ++ [n]) (hn : IsName n) :
    fileName p = some n := by
  have hps : [n].filterMap piece = [.normal n] := filterMap_cons_some hn.2
  rw [fileName, components, ← filterMap_piece_parts, h, filterMap_append, hps,
    ← append_assoc, getLast?_concat]

theorem exists_getLast?_components (h : parts p ≠ []) :
    ∃ c, (components p).getLast? = some c ∧ c ≠ .rootDir := by
  have hne : (segments p).filterMap piece ≠ [] := by
    rwa [← filterMap_piece_parts, Ne, filterMap_piece_eq_nil fun _ => isPart_of_mem_parts]
  refine ⟨((segments p).filterMap piece).getLast hne, ?_, fun hroot => ?_⟩
  · rw [components, getLast?_append_of_ne_nil _ hne, getLast?_eq_getLast_of_ne_nil hne]
  · exact rootDir_not_mem p (hroot ▸ getLast_mem hne)

theorem exists_parent (h : parts p ≠ []) : ∃ q, parent p = some q := by
  obtain ⟨c, hlast, hroot⟩ := exists_getLast?_components h
  rw [parent, hlast]
  cases c with
  | rootDir => exact absurd rfl hroot
  | curDir | parentDir | normal n => exact ⟨_, rfl⟩

theorem parts_ne_nil_of_fileName (h : fileName p = some n) : parts p ≠ [] := by
  intro hnil
  rw [fileName, components, ← filterMap_piece_parts, hnil] at h
  split_ifs at h <;> cases h

theorem isName_of_fileName (h : fileName p = some n) : IsName n := by
  unfold fileName at h
  split at h
  · rename_i name hlast
    obtain rfl := Option.some.inj h
    rcases mem_append.mp (mem_of_getLast? hlast) with hmem | hmem
    · split_ifs at hmem <;> simp at hmem
    · exact isName_of_mem hmem
  · cases h

/-! ### Parts of what is pushed -/

@[simp] theorem push_nil (q : List α) : push [] q = q := by simp [push]

theorem parts_append_sep (p q : List α) : parts (p ++ sep :: q) = parts p ++ parts q := by
  rw [parts, segments, splitOn_append_cons_self, filter_append]
  rfl

@[simp] theorem parts_nil : parts ([] : List α) = [] := by simp [parts, segments]

theorem parts_of_isPart (h : IsPart n) : parts n = [n] := by
  have htext : text false [n] = n := by simp [text]
  rw [← htext, parts_text (by simpa using h), htext]

theorem parts_push_of_relative (hq : isAbsolute q = false) :
    parts (push p q) = parts p ++ parts q := by
  rw [push, hq, if_neg Bool.false_ne_true]
  split
  · exact parts_append_sep p q
  · rename_i hend
    rcases eq_nil_or_concat p with rfl | ⟨init, c, rfl⟩
    · simp
    · -- The path ends with a separator, after which nothing is read.
      obtain rfl : c = sep := by simpa using hend
      rw [concat_eq_append, append_assoc, singleton_append, parts_append_sep,
        parts_append_sep, parts_nil, append_nil]

theorem push_text_text (hnames : ∀ s ∈ names, s ≠ [] ∧ sep ∉ s) (hms : ∀ s ∈ ms, s ≠ [] ∧ sep ∉ s)
    (hne : ms ≠ []) (absolute : Bool) :
    push (text absolute names) (text false ms) = text absolute (names ++ ms) := by
  have hq : isAbsolute (text false ms) = false := isAbsolute_text_of_not_mem hms false
  by_cases hnil : names = []
  · cases absolute <;> simp [hnil, push, hq] <;> simp [text]
  · rw [push_of_ne_nil hnames hnil hq, text, text, text, intercalate_append hnil hne]
    simp

theorem eq_nil_of_parts (hrel : isAbsolute p = false) (hcur : includeCurDir p = false)
    (hparts : parts p = []) : p = [] := by
  have hp : [sep].intercalate (segments p) = p := intercalate_splitOn sep
  cases hsegs : segments p with
  | nil => simpa [hsegs] using hp.symm
  | cons s rest =>
    have hs : ¬(piece s).isSome = true := by
      rw [parts, hsegs, filter_eq_nil_iff] at hparts
      exact hparts s mem_cons_self
    obtain rfl : s = [] := by
      simpa [piece_isSome, show s ≠ [dot] by simpa [includeCurDir, hsegs] using hcur] using hs
    rw [hsegs] at hp
    by_cases hrest : rest = []
    · simpa [hrest] using hp.symm
    · rw [← hp, intercalate_cons_of_ne_nil hrest] at hrel
      simp [isAbsolute] at hrel

theorem isAbsolute_of_isPart (h : IsPart n) : isAbsolute n = false := not_isAbsolute_of_not_mem h.1

theorem parts_foldl_push (h : ∀ s ∈ ms, IsPart s) (p : List α) :
    parts (ms.foldl push p) = parts p ++ ms := by
  induction ms generalizing p with
  | nil => simp
  | cons m ms ih =>
    obtain ⟨hm, hms⟩ := forall_mem_cons.mp h
    rw [foldl_cons, ih hms, parts_push_of_relative (isAbsolute_of_isPart hm),
      parts_of_isPart hm, append_assoc, singleton_append]

theorem isAbsolute_foldl_push_of_isPart (h : ∀ s ∈ ms, IsPart s) (p : List α) :
    isAbsolute (ms.foldl push p) = isAbsolute p := by
  induction ms generalizing p with
  | nil => rfl
  | cons m ms ih =>
    obtain ⟨hm, hms⟩ := forall_mem_cons.mp h
    rw [foldl_cons, ih hms, isAbsolute_push_of_relative (isAbsolute_of_isPart hm)]

end Parts

end Rust.PathBuf
