import Tauri.Rust.Path

/-!
# Paths on Windows

`std::path::Path` on Windows, as the text that it is. Both slashes separate components, and the text
may begin with a **prefix**: a drive (`C:`), a share (`\\server\share`), a device (`\\.\COM1`), or
one of the verbatim forms that begin with `\\?\`, behind which only the backslash separates and `.`
is a component of its own. Every prefix but a drive stands for a root.

A text with a separator in front that is not followed by another one has no prefix
(`parsePrefix_of_single`), and a prefix has at least two characters (`two_le_of_parsePrefix`).
-/

namespace Rust.WindowsPath

open List

/-- `is_sep_byte`. -/
def isSep (c : OsChar) : Bool := c == .char '/' || c == .char '\\'

/-- `is_verbatim_sep`. -/
def isVerbatimSep (c : OsChar) : Bool := c == .char '\\'

/-- `std::path::Prefix`, by the length of its text and by how the rest of the path is read. -/
structure Prefix where
  len : Nat
  isVerbatim : Bool
  isDrive : Bool
  deriving DecidableEq, Repr

/-- `PrefixParser::strip_prefix`: a slash counts as a backslash. -/
def strip (pattern : List Char) (p : List OsChar) : Option (List OsChar) :=
  if (p.take pattern.length).map (fun c => if isSep c then .char '\\' else c) =
      pattern.map .char then
    some (p.drop pattern.length)
  else none

/-- `parse_next_component`. -/
def nextComponent (sep : OsChar → Bool) (p : List OsChar) : List OsChar × List OsChar :=
  (p.takeWhile fun c => !sep c, (p.dropWhile fun c => !sep c).tail)

/-- `parse_drive`. -/
def hasDrive : List OsChar → Bool
  | .char c :: .char ':' :: _ => c.isAlpha
  | _ => false

/-- `parse_drive_exact`. -/
def hasDriveExact (p : List OsChar) : Bool := (p.drop 2).head?.all isSep && hasDrive p

/-- What a prefix behind `\\?\` is. -/
def parseVerbatim (rest : List OsChar) : Prefix :=
  match strip ['U', 'N', 'C', '\\'] rest with
  | some rest =>
    let (server, rest) := nextComponent isVerbatimSep rest
    let (share, _) := nextComponent isVerbatimSep rest
    ⟨8 + server.length + if share = [] then 0 else 1 + share.length, true, false⟩
  | none =>
    if hasDriveExact rest then ⟨6, true, false⟩
    else ⟨4 + (nextComponent isVerbatimSep rest).1.length, true, false⟩

/-- What a prefix behind `\\` is. -/
def parseNetwork (rest : List OsChar) : Option Prefix :=
  match strip ['.', '\\'] rest with
  | some rest => some ⟨4 + (nextComponent isSep rest).1.length, false, false⟩
  | none =>
    let (server, rest) := nextComponent isSep rest
    let (share, _) := nextComponent isSep rest
    if server = [] ∨ share = [] then none
    else some ⟨2 + server.length + (1 + share.length), false, false⟩

/-- `parse_prefix`. A verbatim prefix is written with backslashes. -/
def parsePrefix (p : List OsChar) : Option Prefix :=
  match strip ['\\', '\\'] p with
  | none => if hasDrive p then some ⟨2, false, true⟩ else none
  | some rest =>
    match strip ['?', '\\'] rest with
    | some verbatim =>
      if .char '/' ∈ p.take 4 then parseNetwork rest else some (parseVerbatim verbatim)
    | none => parseNetwork rest

/-- `std::path::Component`. -/
inductive Component where
  | prefixed (text : List OsChar)
  | rootDir
  | curDir
  | parentDir
  | normal (name : List OsChar)
  deriving DecidableEq, Repr

/-- `parse_single_component`. -/
def piece (verbatim : Bool) (s : List OsChar) : Option Component :=
  if s = [] then none
  else if s = [.char '.'] then if verbatim then some .curDir else none
  else if s = [.char '.', .char '.'] then some .parentDir
  else some (.normal s)

/-- The separators of the text behind the prefix. -/
def sepOf (pre : Option Prefix) : OsChar → Bool :=
  if pre.any (·.isVerbatim) then isVerbatimSep else isSep

/-- The text behind the prefix. -/
def bodyOf (pre : Option Prefix) (p : List OsChar) : List OsChar := p.drop (pre.elim 0 (·.len))

/-- `Path::has_root`, with the prefix given. -/
def hasRootOf (pre : Option Prefix) (p : List OsChar) : Bool :=
  (bodyOf pre p).head?.any (sepOf pre) || pre.any (!·.isDrive)

def hasRoot (p : List OsChar) : Bool := hasRootOf (parsePrefix p) p

/-- `Path::components`. -/
def components (p : List OsChar) : List Component :=
  let pre := parsePrefix p
  let pieces := (bodyOf pre p).splitOnP (sepOf pre)
  pre.elim [] (fun pre => [.prefixed (p.take pre.len)]) ++
    (if hasRoot p then [.rootDir]
      else if pieces.head? = some [.char '.'] then [.curDir] else []) ++
    pieces.filterMap (piece (pre.any (·.isVerbatim)))

/-- `Path::new(&Component::RootDir).join(p)`: a path with a prefix or a root replaces. -/
def joinRoot (p : List OsChar) : List OsChar :=
  if (parsePrefix p).isSome || hasRoot p then p else .char '\\' :: p

section Prefixes

variable {p rest : List OsChar} {pre : Prefix}

theorem strip_isSome {pattern : List Char} (h : (strip pattern p).isSome = true) :
    (p.take pattern.length).map (fun c => if isSep c then .char '\\' else c) =
      pattern.map .char := by
  by_contra hne
  rw [strip, if_neg hne] at h
  cases h

theorem isSep_of_ite {c : OsChar} (h : (if isSep c then .char '\\' else c) = .char '\\') :
    isSep c = true := by
  by_contra hc
  rw [if_neg hc] at h
  exact hc (by simp [isSep, h])

theorem exists_of_strip (h : (strip ['\\', '\\'] p).isSome = true) :
    ∃ a b rest, p = a :: b :: rest ∧ isSep a = true ∧ isSep b = true := by
  have htake := strip_isSome h
  match p with
  | [] => simp at htake
  | [a] => simp at htake
  | a :: b :: rest =>
    simp only [length_cons, length_nil, take_succ_cons, take_zero,
      map_cons, map_nil, cons.injEq, and_true] at htake
    exact ⟨a, b, rest, rfl, isSep_of_ite htake.1, isSep_of_ite htake.2⟩

theorem hasDrive_eq_true (h : hasDrive p = true) :
    ∃ c rest, p = .char c :: .char ':' :: rest ∧ c.isAlpha = true := by
  unfold hasDrive at h
  split at h
  · exact ⟨_, _, rfl, h⟩
  · cases h

theorem parseVerbatim_spec (rest : List OsChar) :
    (parseVerbatim rest).isDrive = false ∧ 2 ≤ (parseVerbatim rest).len := by
  unfold parseVerbatim
  split
  · exact ⟨rfl, by simp only; omega⟩
  · grind

theorem parseNetwork_spec (h : parseNetwork rest = some pre) :
    pre.isDrive = false ∧ 2 ≤ pre.len := by
  unfold parseNetwork at h
  split at h
  · obtain rfl := Option.some.inj h
    exact ⟨rfl, by simp only; omega⟩
  · grind

theorem parsePrefix_cases (h : parsePrefix p = some pre) :
    (pre = ⟨2, false, true⟩ ∧ ∃ c rest, p = .char c :: .char ':' :: rest ∧ c.isAlpha = true) ∨
      ((pre.isDrive = false ∧ 2 ≤ pre.len) ∧
        ∃ a b rest, p = a :: b :: rest ∧ isSep a = true ∧ isSep b = true) := by
  unfold parsePrefix at h
  cases hstrip : strip ['\\', '\\'] p with
  | none =>
    simp only [hstrip] at h
    split at h
    · obtain rfl := Option.some.inj h
      exact .inl ⟨rfl, hasDrive_eq_true ‹_›⟩
    · cases h
  | some =>
    refine .inr ⟨?_, exists_of_strip (by rw [hstrip]; rfl)⟩
    simp only [hstrip] at h
    split at h
    · split at h
      · exact parseNetwork_spec h
      · obtain rfl := Option.some.inj h
        exact parseVerbatim_spec _
    · exact parseNetwork_spec h

theorem parsePrefix_of_single {a : OsChar} (ha : isSep a = true)
    (hrest : ∀ b ∈ rest.head?, isSep b = false) : parsePrefix (a :: rest) = none := by
  by_contra hne
  obtain ⟨pre, hpre⟩ := Option.ne_none_iff_exists'.mp hne
  rcases parsePrefix_cases hpre with ⟨-, c, tail, heq, hc⟩ | ⟨-, b, c, tail, heq, -, hc⟩
  · obtain ⟨rfl, -⟩ := cons.inj heq
    simp only [isSep, Bool.or_eq_true, beq_iff_eq, OsChar.char.injEq] at ha
    rcases ha with rfl | rfl <;> exact absurd hc (by decide)
  · simp_all

theorem two_le_of_parsePrefix (h : parsePrefix p = some pre) : 2 ≤ (p.take pre.len).length := by
  rcases parsePrefix_cases h with ⟨rfl, c, rest, rfl, -⟩ | ⟨⟨-, hlen⟩, a, b, rest, rfl, -, -⟩
  · simp
  · rw [length_take, length_cons, length_cons]
    omega

end Prefixes

section NoPrefix

variable {p : List OsChar}

/-- The components of a path without a prefix, other than the root and a `.` in front. -/
def pieces (p : List OsChar) : List Component := (p.splitOnP isSep).filterMap (piece false)

theorem hasRoot_of_parsePrefix (h : parsePrefix p = none) : hasRoot p = p.head?.any isSep := by
  simp [hasRoot, hasRootOf, bodyOf, sepOf, h]

theorem components_of_hasRoot (h : parsePrefix p = none) (hroot : hasRoot p = true) :
    components p = .rootDir :: pieces p := by
  simp [components, h, hroot, bodyOf, sepOf, pieces]

theorem pieces_cons_sep {a : OsChar} (ha : isSep a = true) (p : List OsChar) :
    pieces (a :: p) = pieces p := by
  rw [pieces, splitOnP_cons_eq_if_modifyHead, if_pos ha, filterMap_cons]
  rfl

theorem components_joinRoot (h : parsePrefix p = none) :
    components (joinRoot p) = .rootDir :: pieces p := by
  by_cases hroot : hasRoot p = true
  · rw [joinRoot, if_pos (by simp [hroot]), components_of_hasRoot h hroot]
  · have hhead : ∀ b ∈ p.head?, isSep b = false := by
      intro b hb
      rw [hasRoot_of_parsePrefix h, Option.mem_def.mp hb] at hroot
      simpa using hroot
    have hpre : parsePrefix (.char '\\' :: p) = none := parsePrefix_of_single (by decide) hhead
    have hroot' : hasRoot (.char '\\' :: p) = true := by
      rw [hasRoot_of_parsePrefix hpre]
      rfl
    rw [joinRoot, if_neg (by simp [h, hroot]), components_of_hasRoot hpre hroot',
      pieces_cons_sep (by decide)]

end NoPrefix

end Rust.WindowsPath
