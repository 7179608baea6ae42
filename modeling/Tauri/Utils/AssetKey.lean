import Tauri.Manager.Assets
import Tauri.Rust.WindowsPath

/-!
# Keys of assets

`AssetKey::from` turns a path into the key that an asset is stored and looked up under. Its
documentation promises slashes between the components, a root, and no slash at the end. There are
two branches, for Windows and for everything else.

* **On Windows the key is written from the components**, so that it does not matter how the path was
  written. Only a prefix (`C:`, `\\server\share`) is copied in front of the root as it stands.
* **Elsewhere only the root is added.** Repeated separators, a separator at the end and `.` stay in
  the key (`isCanonical_iff`).

In both cases the wrong keys are told from the canonical one by their length, except for the path
`C:` alone, which loses its colon to the removal of the last slash.
-/

namespace Tauri.AssetKey

open Rust List

/-- `AssetKey::from` on Unix. -/
def unixKey (path : List OsChar) : List Char :=
  toStringLossy (if PathBuf.isAbsolute path then path else PathBuf.push [PathBuf.sep] path)

/-- What a component adds to the key on Windows. -/
def componentText : WindowsPath.Component → List Char
  | .rootDir => ['/']
  | .curDir => ['.', '/']
  | .parentDir => ['.', '.', '/']
  | .prefixed text => toStringLossy text
  | .normal name => toStringLossy name ++ ['/']

/-- `AssetKey::from` on Windows. -/
def windowsKey (path : List OsChar) : List Char :=
  let path := if WindowsPath.hasRoot path then path else WindowsPath.joinRoot path
  let buf := (WindowsPath.components path).foldl (fun buf c => buf ++ componentText c) []
  if buf ≠ ['/'] then buf.dropLast else buf

/-! ### The canonical key -/

/-- A slash and the names with a slash between them. -/
def canonicalKey (parts : List (List OsChar)) : List Char :=
  '/' :: ['/'].intercalate (parts.map toStringLossy)

/-- The components of a path on Unix without the root and `.`, as texts. -/
def unixParts (path : List OsChar) : List (List OsChar) :=
  (PathBuf.segments path).filter fun s => (PathBuf.piece s).isSome

/-- The text of a component that is a name or `..`. -/
def partOf : WindowsPath.Component → Option (List OsChar)
  | .parentDir => some [.char '.', .char '.']
  | .normal name => some name
  | _ => none

/-- The components of a path on Windows without the prefix, the root and `.`, as texts. -/
def windowsParts (path : List OsChar) : List (List OsChar) :=
  (WindowsPath.components path).filterMap partOf

/-- What the key of a path should be. It depends on the components only, it begins with a slash,
ends with none, has no other separator, and is its own key. -/
structure IsCanonical (key : List OsChar → List Char)
    (parts : List OsChar → List (List OsChar)) (otherSeparators : List Char)
    (path : List OsChar) : Prop where
  eq : key path = canonicalKey (parts path)
  head : (key path).head? = some '/'
  last : (key path).getLast? = some '/' → key path = ['/']
  separators : ∀ c ∈ otherSeparators, c ∉ key path
  again : key ((key path).map .char) = key path

/-- The path without its root. -/
def withoutRoot (path : List OsChar) : List OsChar :=
  if PathBuf.isAbsolute path then path.tail else path

/-- A path on Unix that has nothing to be normalised: it is empty but for a root, or no piece
between two separators is empty or `.`. -/
def Plain (path : List OsChar) : Prop :=
  withoutRoot path = [] ∨ ∀ s ∈ PathBuf.segments (withoutRoot path), s ≠ [] ∧ s ≠ [.char '.']

instance (path : List OsChar) : Decidable (Plain path) := inferInstanceAs (Decidable (_ ∨ _))

variable {s : List OsChar}

section Canonical

variable {parts : List (List OsChar)}

theorem flatMap_eq_intercalate (names : List (List Char)) (h : names ≠ []) :
    names.flatMap (· ++ ['/']) = ['/'].intercalate names ++ ['/'] := by
  induction names with
  | nil => exact absurd rfl h
  | cons name names ih =>
    rcases eq_or_ne names [] with rfl | hne
    · simp
    · rw [flatMap_cons, ih hne, intercalate_cons_of_ne_nil hne]
      simp

theorem length_toStringLossy (s : List OsChar) : (toStringLossy s).length = s.length := length_map _

theorem mem_of_mem_toStringLossy {c : Char} (hc : c ≠ '�') (h : c ∈ toStringLossy s) :
    .char c ∈ s := by
  obtain ⟨x, hx, hchar⟩ := mem_map.mp h
  cases x with
  | char d => exact hchar ▸ hx
  | invalid => exact absurd hchar.symm hc

theorem sum_filter_lt {α : Type} (f : α → Nat) {p : α → Bool} {l : List α} {x : α} (hx : x ∈ l)
    (hp : p x = false) : ((l.filter p).map fun y => f y + 1).sum < (l.map fun y => f y + 1).sum := by
  have hle : ∀ l : List α, ((l.filter p).map fun y => f y + 1).sum ≤ (l.map fun y => f y + 1).sum :=
    fun l => (filter_sublist.map _).sum_le_sum (fun _ _ => Nat.zero_le _)
  obtain ⟨front, back, rfl⟩ := append_of_mem hx
  have hfront := hle front
  have hback := hle back
  simp only [filter_append, map_append, sum_append, filter_cons, hp,
    map_cons, sum_cons, Bool.false_eq_true, if_false]
  omega

theorem length_intercalate {α : Type} (sep : α) (names : List (List α)) (h : names ≠ []) :
    ([sep].intercalate names).length + 1 = (names.map fun s => s.length + 1).sum := by
  induction names with
  | nil => exact absurd rfl h
  | cons name names ih =>
    rcases eq_or_ne names [] with rfl | hne
    · simp
    · rw [intercalate_cons_of_ne_nil hne, map_cons, sum_cons, ← ih hne]
      simp only [length_append, length_singleton]
      omega

theorem length_canonicalKey (parts : List (List OsChar)) :
    (canonicalKey parts).length = max 1 (parts.map fun s => s.length + 1).sum := by
  rcases eq_or_ne parts [] with rfl | hne
  · rfl
  · have hsum : (parts.map toStringLossy).map (fun s => s.length + 1) =
        parts.map fun s => s.length + 1 := by
      rw [map_map]
      exact map_congr_left fun s _ => congrArg (· + 1) (length_toStringLossy s)
    have hlen := length_intercalate '/' (parts.map toStringLossy) (by simpa using hne)
    rw [hsum] at hlen
    rw [canonicalKey, length_cons, hlen]
    omega

theorem canonicalKey_last (h : ∀ s ∈ parts, s ≠ [] ∧ .char '/' ∉ s)
    (hlast : (canonicalKey parts).getLast? = some '/') : canonicalKey parts = ['/'] := by
  obtain rfl | ⟨init, s, rfl⟩ := eq_nil_or_concat' parts
  · rfl
  · obtain ⟨hne, hsep⟩ := h s (by simp)
    have hlossy : toStringLossy s ≠ [] := by simpa [toStringLossy] using hne
    obtain ⟨front, hfront⟩ : ∃ front, canonicalKey (init ++ [s]) = front ++ toStringLossy s := by
      rcases eq_or_ne init [] with rfl | hinit
      · exact ⟨['/'], by simp [canonicalKey]⟩
      · refine ⟨'/' :: (['/'].intercalate (init.map toStringLossy) ++ ['/']), ?_⟩
        have hinit' : init.map toStringLossy ≠ [] := by simpa using hinit
        have hcat : ['/'].intercalate (init.map toStringLossy ++ [toStringLossy s]) =
            ['/'].intercalate (init.map toStringLossy) ++ '/' :: toStringLossy s :=
          PathBuf.intercalate_concat hinit' (toStringLossy s)
        rw [canonicalKey, map_append, map_singleton, hcat]
        simp
    rw [hfront, getLast?_append_of_ne_nil _ hlossy] at hlast
    exact absurd (mem_of_mem_toStringLossy (by decide) (mem_of_getLast? hlast)) hsep

end Canonical

/-! ### Unix -/

section Unix

open PathBuf

variable {path : List OsChar}

theorem exists_of_isAbsolute (h : isAbsolute path = true) :
    ∃ rest, path = .char '/' :: rest := by
  cases path with
  | nil => cases h
  | cons c rest =>
    have hc : c = sep := by simpa [isAbsolute] using h
    exact ⟨rest, by rw [hc]; rfl⟩

variable (path)

theorem unixKey_eq : unixKey path = '/' :: toStringLossy (withoutRoot path) := by
  unfold unixKey withoutRoot
  by_cases habs : isAbsolute path = true
  · obtain ⟨rest, rfl⟩ := exists_of_isAbsolute habs
    rw [if_pos habs, if_pos habs]
    rfl
  · rw [if_neg habs, if_neg habs, push, if_neg habs]
    simp [toStringLossy, sep]

theorem piece_isSome : (piece s).isSome = true ↔ s ≠ [] ∧ s ≠ [.char '.'] := by
  unfold piece
  split_ifs with h h'
  · simpa [or_iff_not_imp_left, dot] using h
  all_goals
    simp only [not_or] at h
    simpa [dot] using h

theorem unixParts_eq : unixParts path =
    (segments (withoutRoot path)).filter fun s => (piece s).isSome := by
  unfold unixParts withoutRoot
  split_ifs with habs
  · obtain ⟨rest, rfl⟩ := exists_of_isAbsolute habs
    have hsplit : segments (.char '/' :: rest) = [] :: segments rest :=
      splitOn_append_cons_self [] rest
    rw [hsplit, filter_cons_of_neg (by simp)]
    rfl
  · rfl

theorem unixKey_eq_intercalate : unixKey path =
    '/' :: ['/'].intercalate ((segments (withoutRoot path)).map toStringLossy) := by
  have hjoin : [OsChar.char '/'].intercalate (segments (withoutRoot path)) =
      withoutRoot path := intercalate_splitOn _
  rw [unixKey_eq]
  conv_lhs => rw [← hjoin]
  exact congrArg ('/' :: ·) (Path.map_intercalate _ _ _)

theorem length_unixKey : (unixKey path).length =
    ((segments (withoutRoot path)).map fun s => s.length + 1).sum := by
  have hjoin : [OsChar.char '/'].intercalate (segments (withoutRoot path)) =
      withoutRoot path := intercalate_splitOn _
  have hlen := length_intercalate (OsChar.char '/') (segments (withoutRoot path))
    (splitOn_ne_nil _ _)
  rw [hjoin] at hlen
  rw [unixKey_eq, length_cons, length_toStringLossy, hlen]

variable {path}

theorem unixKey_of_plain (h : Plain path) : unixKey path = canonicalKey (unixParts path) := by
  rw [unixParts_eq]
  rcases h with hnil | hplain
  · rw [unixKey_eq, hnil]
    rfl
  · rw [filter_eq_self.mpr fun s hs => piece_isSome.mpr (hplain s hs), unixKey_eq_intercalate]
    rfl

theorem plain_of_unixKey_eq (h : unixKey path = canonicalKey (unixParts path)) : Plain path := by
  by_contra hplain
  obtain ⟨hne, hbad⟩ := not_or.mp hplain
  obtain ⟨s, hbad⟩ := not_forall.mp hbad
  obtain ⟨hs, hdrop⟩ := Classical.not_imp.mp hbad
  have hnone : (piece s).isSome = false :=
    Bool.eq_false_iff.mpr fun hsome => hdrop (piece_isSome.mp hsome)
  have hlen := congrArg length h
  rw [length_canonicalKey, unixParts_eq] at hlen
  have hpos : 1 < (unixKey path).length := by
    rw [unixKey_eq, length_cons, length_toStringLossy]
    exact Nat.lt_add_of_pos_left (length_pos_iff.mpr hne)
  have hlt := sum_filter_lt (p := fun s => (piece s).isSome) length hs hnone
  rw [← length_unixKey] at hlt
  omega

theorem isCanonical_unix_iff (path : List OsChar) :
    IsCanonical unixKey unixParts [] path ↔ Plain path := by
  refine ⟨fun h => plain_of_unixKey_eq h.eq, fun h => ?_⟩
  have heq := unixKey_of_plain h
  refine ⟨heq, by rw [heq]; rfl, fun hlast => ?_, by simp, ?_⟩
  · rw [heq] at hlast ⊢
    refine canonicalKey_last (fun s hs => ?_) hlast
    rw [unixParts, mem_filter] at hs
    exact ⟨(piece_isSome.mp hs.2).1, sep_not_mem_of_mem_segments hs.1⟩
  · rw [heq, unixKey, if_pos (by rfl), toStringLossy_map_char]

end Unix

/-! ### Windows -/

section Windows

open WindowsPath

variable {path : List OsChar} {parts : List (List OsChar)}

/-- The pieces that are a name or `..`. -/
def isPart (s : List OsChar) : Bool := s ≠ [] ∧ s ≠ [.char '.']

theorem partOf_piece (s : List OsChar) :
    (piece false s).bind partOf = if isPart s then some s else none := by
  unfold piece isPart
  split_ifs with hnil hdot hdotdot <;> simp_all [partOf]

theorem filterMap_partOf_pieces (path : List OsChar) :
    (pieces path).filterMap partOf = (path.splitOnP isSep).filter isPart := by
  rw [pieces, filterMap_filterMap, ← filterMap_eq_filter]
  refine congrArg (filterMap · _) (funext fun s => ?_)
  rw [partOf_piece, Option.guard]

theorem windowsParts_of_parsePrefix (h : parsePrefix path = none) :
    windowsParts path = (path.splitOnP isSep).filter isPart := by
  have hfront : ∀ c ∈ (if hasRoot path then [WindowsPath.Component.rootDir]
      else if (path.splitOnP isSep).head? = some [.char '.'] then [.curDir] else []),
      partOf c = none := by
    intro c hc
    split_ifs at hc <;> simp_all [partOf]
  have hcomp : components path = (if hasRoot path then [WindowsPath.Component.rootDir]
      else if (path.splitOnP isSep).head? = some [.char '.'] then [.curDir] else []) ++
        pieces path := by
    simp [components, h, bodyOf, sepOf, pieces]
  rw [windowsParts, hcomp, filterMap_append, filterMap_eq_nil_iff.mpr hfront,
    nil_append, filterMap_partOf_pieces]

theorem componentText_of_partOf {c : WindowsPath.Component} (h : partOf c = some s) :
    componentText c = toStringLossy s ++ ['/'] := by
  cases c with
  | parentDir | normal => obtain rfl := Option.some.inj h; rfl
  | prefixed | rootDir | curDir => cases h

variable (cs : List WindowsPath.Component)

theorem foldl_componentText :
    cs.foldl (fun buf c => buf ++ componentText c) [] = cs.flatMap componentText := by
  rw [flatMap_eq_foldl]

theorem flatMap_componentText {cs : List WindowsPath.Component}
    (h : ∀ c ∈ cs, ∃ s, partOf c = some s) :
    cs.flatMap componentText = (cs.filterMap partOf).flatMap (toStringLossy · ++ ['/']) := by
  induction cs with
  | nil => rfl
  | cons c cs ih =>
    obtain ⟨⟨s, hs⟩, hcs⟩ := forall_mem_cons.mp h
    rw [flatMap_cons, filterMap_cons_some hs, flatMap_cons, componentText_of_partOf hs, ih hcs]

theorem sum_le_length_flatMap :
    ((cs.filterMap partOf).map fun s => s.length + 1).sum ≤
      (cs.flatMap componentText).length := by
  induction cs with
  | nil => exact le_rfl
  | cons c =>
    rw [flatMap_cons, length_append]
    cases hpart : partOf c with
    | none => rw [filterMap_cons_none hpart]; omega
    | some s =>
      rw [filterMap_cons_some hpart, componentText_of_partOf hpart, map_cons,
        sum_cons, length_append, length_toStringLossy, length_singleton]
      omega

theorem exists_partOf_of_mem_pieces {c : WindowsPath.Component} (h : c ∈ pieces path) :
    ∃ s, partOf c = some s := by
  obtain ⟨s, -, hs⟩ := mem_filterMap.mp h
  simp only [piece, Bool.false_eq_true, if_false] at hs
  split_ifs at hs <;> exact ⟨_, by rw [← Option.some.inj hs]; rfl⟩

theorem windowsKey_of_parsePrefix (h : parsePrefix path = none) :
    windowsKey path = canonicalKey (windowsParts path) := by
  have hpath : (if hasRoot path then path else joinRoot path) = joinRoot path := by
    split_ifs with hroot
    · rw [joinRoot, if_pos (by simp [hroot])]
    · rfl
  have hbuf : (components (joinRoot path)).foldl (fun buf c => buf ++ componentText c) [] =
      '/' :: (windowsParts path).flatMap (toStringLossy · ++ ['/']) := by
    rw [foldl_componentText, components_joinRoot h, flatMap_cons,
      flatMap_componentText fun c hc => exists_partOf_of_mem_pieces hc, filterMap_partOf_pieces,
      windowsParts_of_parsePrefix h]
    rfl
  simp only [windowsKey, hpath, hbuf]
  rcases eq_or_ne (windowsParts path) [] with hnil | hne
  · rw [hnil]
    rfl
  · have hmap : (windowsParts path).flatMap (toStringLossy · ++ ['/']) =
        ['/'].intercalate ((windowsParts path).map toStringLossy) ++ ['/'] := by
      rw [← flatMap_eq_intercalate _ (by simpa using hne), flatMap_map]
    rw [hmap, ← cons_append, if_pos (by simp), dropLast_concat, canonicalKey]

theorem parsePrefix_of_windowsKey_eq (h : windowsKey path = canonicalKey (windowsParts path)) :
    parsePrefix path = none := by
  by_contra hne
  obtain ⟨pre, hpre⟩ := Option.ne_none_iff_exists'.mp hne
  obtain ⟨rest, hcomp, hroot⟩ : ∃ rest,
      components path = .prefixed (path.take pre.len) :: rest ∧
        (hasRoot path = true → .rootDir ∈ rest) := by
    refine ⟨_, by simp only [components, hpre, Option.elim_some, cons_append,
      nil_append]; rfl, fun hroot => by simp [hroot]⟩
  have hpath : (if hasRoot path then path else joinRoot path) = path := by simp [joinRoot, hpre]
  have hbuf : (components path).foldl (fun buf c => buf ++ componentText c) [] =
      toStringLossy (path.take pre.len) ++ rest.flatMap componentText := by
    rw [foldl_componentText, hcomp, flatMap_cons]
    rfl
  have hparts : windowsParts path = rest.filterMap partOf := by
    rw [windowsParts, hcomp, filterMap_cons_none rfl]
  have hlong := two_le_of_parsePrefix hpre
  have hsum := sum_le_length_flatMap rest
  have hlossy := length_toStringLossy (path.take pre.len)
  have hkey : (toStringLossy (path.take pre.len) ++ rest.flatMap componentText).dropLast =
      canonicalKey (windowsParts path) := by
    rw [← h]
    simp only [windowsKey, hpath, hbuf]
    rw [if_pos]
    intro hslash
    have hone := congrArg length hslash
    rw [length_append, length_singleton] at hone
    omega
  have hlen := congrArg length hkey
  rw [length_canonicalKey, hparts, length_dropLast, length_append] at hlen
  -- Only a drive with nothing behind it gives a key of one character.
  have hrest : rest.flatMap componentText = [] := length_eq_zero_iff.mp (by omega)
  have hdrive : pre.isDrive = true := by
    by_contra hnot
    have hmem := hroot (by simp [hasRoot, hasRootOf, hpre, hnot])
    have := flatMap_eq_nil_iff.mp hrest _ hmem
    cases this
  rcases parsePrefix_cases hpre with ⟨rfl, c, tail, rfl, hc⟩ | ⟨⟨hnot, -⟩, -⟩
  · have hslash : '/' = c := head_eq_of_cons_eq (hkey.symm.trans (by rw [hrest]; rfl))
    subst hslash
    exact absurd hc (by decide)
  · rw [hdrive] at hnot
    cases hnot

theorem windowsParts_spec (h : parsePrefix path = none) (hs : s ∈ windowsParts path) :
    (s ≠ [] ∧ s ≠ [.char '.']) ∧ ∀ c ∈ s, isSep c = false := by
  rw [windowsParts_of_parsePrefix h, mem_filter] at hs
  exact ⟨by simpa [isPart] using hs.2, fun c hc => not_of_mem_splitOnP hs.1 c hc⟩

theorem splitOnP_intercalate {names : List (List OsChar)} (hne : names ≠ [])
    (h : ∀ s ∈ names, ∀ c ∈ s, isSep c = false) :
    ([OsChar.char '/'].intercalate names).splitOnP isSep = names := by
  induction names with
  | nil => exact absurd rfl hne
  | cons name names ih =>
    obtain ⟨hname, hnames⟩ := forall_mem_cons.mp h
    rcases eq_or_ne names [] with rfl | hne'
    · rw [intercalate_singleton, splitOnP_eq_singleton hname]
    · rw [intercalate_cons_of_ne_nil hne', append_assoc, singleton_append,
        splitOnP_append_cons _ _ (by decide), splitOnP_eq_singleton hname, ih hne' hnames,
        singleton_append]

theorem windowsKey_canonicalKey (h : ∀ s ∈ parts, (s ≠ [] ∧ s ≠ [.char '.']) ∧
    ∀ c ∈ s, isSep c = false) :
    windowsKey ((canonicalKey parts).map .char) = canonicalKey parts := by
  have htext : (canonicalKey parts).map OsChar.char =
      .char '/' :: [OsChar.char '/'].intercalate (parts.map fun s => s.map OsChar.lossy) := by
    rw [canonicalKey, map_cons, Path.map_intercalate, map_map]
    refine congrArg (fun names => OsChar.char '/' :: [OsChar.char '/'].intercalate names) ?_
    exact map_congr_left fun s _ => (map_lossy s).symm
  have hlossy : ∀ s ∈ parts.map fun s => s.map OsChar.lossy,
      (s ≠ [] ∧ s ≠ [.char '.']) ∧ ∀ c ∈ s, isSep c = false := by
    intro lossy hmem
    obtain ⟨s, hs, rfl⟩ := mem_map.mp hmem
    obtain ⟨⟨hnil, hdot⟩, hsep⟩ := h s hs
    have hdot' := (map_lossy_eq (s := s) (t := ['.']) (by simp)).not.mpr hdot
    refine ⟨⟨by simpa using hnil, hdot'⟩, fun c hc => ?_⟩
    obtain ⟨x, hx, rfl⟩ := mem_map.mp hc
    cases x with
    | char d => exact hsep _ hx
    | invalid => rfl
  rcases eq_or_ne parts [] with rfl | hne
  · decide
  · have hne' : (parts.map fun s => s.map OsChar.lossy) ≠ [] := by simpa using hne
    have hsplit := splitOnP_intercalate hne' fun s hs => (hlossy s hs).2
    have hpre : parsePrefix ((canonicalKey parts).map .char) = none := by
      rw [htext]
      refine parsePrefix_of_single (by decide) fun b hb => ?_
      by_contra hb'
      obtain ⟨rest, hrest⟩ := head?_eq_some_iff.mp hb
      rw [hrest, splitOnP_cons_eq_if_modifyHead, if_pos (by simpa using hb')] at hsplit
      exact (hlossy [] (hsplit ▸ mem_cons_self)).1.1 rfl
    rw [windowsKey_of_parsePrefix hpre, windowsParts_of_parsePrefix hpre, htext,
      splitOnP_cons_eq_if_modifyHead, if_pos (by decide), filter_cons_of_neg (by decide),
      hsplit, filter_eq_self.mpr fun s hs => by simpa [isPart] using (hlossy s hs).1]
    rw [canonicalKey, canonicalKey, map_map]
    refine congrArg (fun names => '/' :: ['/'].intercalate names) ?_
    refine map_congr_left fun s _ => ?_
    rw [Function.comp, map_lossy, toStringLossy_map_char]

theorem isCanonical_windows_iff (path : List OsChar) :
    IsCanonical windowsKey windowsParts ['\\'] path ↔ parsePrefix path = none := by
  refine ⟨fun h => parsePrefix_of_windowsKey_eq h.eq, fun h => ?_⟩
  have heq := windowsKey_of_parsePrefix h
  refine ⟨heq, by rw [heq]; rfl, fun hlast => ?_, fun c hc hmem => ?_, ?_⟩
  · rw [heq] at hlast ⊢
    refine canonicalKey_last (fun s hs => ?_) hlast
    obtain ⟨⟨hne, -⟩, hsep⟩ := windowsParts_spec h hs
    exact ⟨hne, fun hslash => absurd (hsep _ hslash) (by decide)⟩
  · obtain rfl := mem_singleton.mp hc
    rw [heq, canonicalKey, mem_cons] at hmem
    rcases hmem with hslash | hmem
    · exact absurd hslash (by decide)
    · rcases mem_of_mem_intercalate hmem with hslash | ⟨name, hname, hback⟩
      · exact absurd hslash (by decide)
      · obtain ⟨s, hs, rfl⟩ := mem_map.mp hname
        have hsep := (windowsParts_spec h hs).2 _ (mem_of_mem_toStringLossy (by decide) hback)
        exact absurd hsep (by decide)
  · rw [heq, windowsKey_canonicalKey fun s hs => windowsParts_spec h hs]

end Windows

/-- When the key of a path is canonical: on Unix if there is nothing to normalise, on Windows if
there is no prefix. -/
theorem isCanonical_iff (path : List OsChar) :
    (IsCanonical unixKey unixParts [] path ↔ Plain path) ∧
      (IsCanonical windowsKey windowsParts ['\\'] path ↔ WindowsPath.parsePrefix path = none) :=
  ⟨isCanonical_unix_iff path, isCanonical_windows_iff path⟩

/-- On Unix two ways to write a path give two keys, one with a slash at its end; on Windows a drive
takes the place of the root. -/
theorem keys_not_canonical :
    let os (s : String) : List OsChar := s.toList.map .char
    unixParts (os "a//b/") = unixParts (os "a/b") ∧
      unixKey (os "a//b/") = "/a//b/".toList ∧ unixKey (os "a/b") = "/a/b".toList ∧
      windowsKey (os "a//b/") = "/a/b".toList ∧ windowsKey (os "C:\\a") = "C:/a".toList := by
  decide

end Tauri.AssetKey
