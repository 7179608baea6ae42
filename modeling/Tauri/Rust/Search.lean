import Mathlib

/-!
# Searching in strings

`str::contains`, `str::match_indices` and the slices of a string between two byte offsets. As in
the other string operations the characters are what is computed on; an offset counts the bytes of
their UTF-8 encoding, and a slice is cut out only where both ends are ends of characters.

`Pieces` says what a scan from left to right finds: the pieces between the occurrences of a
pattern, where each occurrence is the first one behind the last. The offsets of `matchIndices` are
those of the pieces (`matchIndicesFrom_cut`, `matchIndicesFrom_eq_nil`).

A pattern with a separator at one of its ends is found exactly in words: between two separators
there is a word, so ` x` is found where a word other than the first begins with `x`, and `x ` where
a word other than the last ends with `x`.
-/

namespace Rust

open List

/-- `str::contains`. -/
def contains (pattern s : String) : Bool := decide (pattern.toList <:+: s.toList)

/-- `char::is_whitespace`. -/
def isWhitespace (c : Char) : Bool :=
  (9 ≤ c.toNat && c.toNat ≤ 13) || (0x2000 ≤ c.toNat && c.toNat ≤ 0x200A) ||
    c.toNat ∈ [0x20, 0x85, 0xA0, 0x1680, 0x2028, 0x2029, 0x202F, 0x205F, 0x3000]

/-- `str::trim`. -/
def trim (s : String) : String :=
  String.ofList (((s.toList.dropWhile isWhitespace).reverse.dropWhile isWhitespace).reverse)

/-- The number of bytes of some characters. -/
def byteLen (cs : List Char) : Nat := (cs.map Char.utf8Size).sum

/-- The characters behind the first `n` bytes, if a character ends there. -/
def dropBytes : Nat → List Char → Option (List Char)
  | 0, cs => some cs
  | _ + 1, [] => none
  | n + 1, c :: cs => if c.utf8Size ≤ n + 1 then dropBytes (n + 1 - c.utf8Size) cs else none

/-- The characters of the first `n` bytes, if a character ends there. -/
def takeBytes : Nat → List Char → Option (List Char)
  | 0, _ => some []
  | _ + 1, [] => none
  | n + 1, c :: cs =>
    if c.utf8Size ≤ n + 1 then (takeBytes (n + 1 - c.utf8Size) cs).map (c :: ·) else none

/-- `str::get_unchecked`, with `none` where the behaviour is undefined. -/
def getUnchecked (s : String) (start stop : Nat) : Option String :=
  if start ≤ stop then
    ((dropBytes start s.toList).bind (takeBytes (stop - start))).map String.ofList
  else none

/-- The loop of `matchIndices`, inside of a match for `skip` more characters. -/
def matchIndicesFrom (pattern : List Char) : Nat → Nat → List Char → List Nat
  | _, offset, [] => if pattern = [] then [offset] else []
  | skip + 1, offset, c :: cs => matchIndicesFrom pattern skip (offset + c.utf8Size) cs
  | 0, offset, c :: cs =>
    if pattern <+: c :: cs then
      offset :: matchIndicesFrom pattern (pattern.length - 1) (offset + c.utf8Size) cs
    else matchIndicesFrom pattern 0 (offset + c.utf8Size) cs

/-- `str::match_indices`, the offsets: what is found there is the pattern. -/
def matchIndices (pattern s : String) : List Nat := matchIndicesFrom pattern.toList 0 0 s.toList

/-- What stands between the occurrences of a pattern, found from left to right. -/
inductive Pieces (pattern : List Char) : List Char → List (List Char) → Prop
  | last {s : List Char} (h : ¬pattern <:+: s) : Pieces pattern s [s]
  | cut {t s : List Char} {ps : List (List Char)}
      (hfirst : ∀ n < t.length, ¬pattern <+: (t ++ pattern ++ s).drop n)
      (hs : Pieces pattern s ps) : Pieces pattern (t ++ pattern ++ s) (t :: ps)

/-- The pieces with something else between them. -/
def weave : List (List Char) → List (List Char) → List Char
  | t :: ts, r :: rs => t ++ r ++ weave ts rs
  | ts, [] => ts.flatten
  | [], _ :: _ => []

/-! ### Offsets and slices -/

@[simp] theorem byteLen_nil : byteLen [] = 0 := rfl

@[simp] theorem byteLen_cons (c : Char) (cs : List Char) :
    byteLen (c :: cs) = c.utf8Size + byteLen cs := rfl

@[simp] theorem byteLen_append (cs ds : List Char) :
    byteLen (cs ++ ds) = byteLen cs + byteLen ds := by
  simp [byteLen]

theorem splitBytes_append (cs ds : List Char) : dropBytes (byteLen cs) (cs ++ ds) = some ds ∧
    takeBytes (byteLen cs) (cs ++ ds) = some cs := by
  induction cs with
  | nil => simp [dropBytes, takeBytes]
  | cons c cs ih =>
    obtain ⟨n, hn⟩ : ∃ n, c.utf8Size + byteLen cs = n + 1 :=
      ⟨c.utf8Size + byteLen cs - 1, by have := c.utf8Size_pos; omega⟩
    have hrest : n + 1 - c.utf8Size = byteLen cs := by omega
    have hle : c.utf8Size ≤ n + 1 := by omega
    rw [byteLen_cons, hn, cons_append]
    simp [dropBytes, takeBytes, hle, hrest, ih]

theorem getUnchecked_append (as bs cs : List Char) :
    getUnchecked (String.ofList (as ++ bs ++ cs)) (byteLen as) (byteLen as + byteLen bs) =
      some (String.ofList bs) := by
  have hlen : byteLen as + byteLen bs - byteLen as = byteLen bs := by omega
  rw [getUnchecked, if_pos (by omega), hlen, String.toList_ofList, append_assoc,
    (splitBytes_append ..).1, Option.bind_some, (splitBytes_append ..).2, Option.map_some]

/-! ### Scanning -/

section Scan

variable {pattern : List Char}

theorem matchIndicesFrom_skip (cs ds : List Char) (offset : Nat) :
    matchIndicesFrom pattern cs.length offset (cs ++ ds) =
      matchIndicesFrom pattern 0 (offset + byteLen cs) ds := by
  induction cs generalizing offset with
  | nil => simp
  | cons c cs ih =>
    rw [length_cons, cons_append, matchIndicesFrom, ih, byteLen_cons, Nat.add_assoc]

variable {s : List Char}

theorem matchIndicesFrom_cut (hpat : pattern ≠ []) {t : List Char}
    (hfirst : ∀ n < t.length, ¬pattern <+: (t ++ pattern ++ s).drop n) (offset : Nat) :
    matchIndicesFrom pattern 0 offset (t ++ pattern ++ s) = (offset + byteLen t) ::
      matchIndicesFrom pattern 0 (offset + byteLen t + byteLen pattern) s := by
  induction t generalizing offset with
  | nil =>
    obtain ⟨c, cs, rfl⟩ := exists_cons_of_ne_nil hpat
    have hhere : c :: cs <+: c :: (cs ++ s) := prefix_append (c :: cs) s
    rw [nil_append, cons_append, matchIndicesFrom, if_pos hhere, length_cons,
      Nat.add_sub_cancel, matchIndicesFrom_skip, byteLen_cons, byteLen_nil, Nat.add_zero,
      Nat.add_assoc]
  | cons d t ih =>
    have hhere : ¬pattern <+: d :: (t ++ pattern ++ s) := by simpa using hfirst 0 (by simp)
    have hrest : ∀ n < t.length, ¬pattern <+: (t ++ pattern ++ s).drop n := by
      intro n hn
      simpa using hfirst (n + 1) (by simpa using hn)
    rw [cons_append, cons_append, matchIndicesFrom, if_neg hhere, ih hrest, byteLen_cons,
      Nat.add_assoc offset]

theorem matchIndicesFrom_eq_nil (hpat : pattern ≠ []) (h : ¬pattern <:+: s) (offset : Nat) :
    matchIndicesFrom pattern 0 offset s = [] := by
  induction s generalizing offset with
  | nil => rw [matchIndicesFrom, if_neg hpat]
  | cons c s ih =>
    rw [infix_cons_iff, not_or] at h
    rw [matchIndicesFrom, if_neg h.1, ih h.2]

theorem exists_first (h : pattern <:+: s) : ∃ t r, s = t ++ pattern ++ r ∧
    ∀ n < t.length, ¬pattern <+: (t ++ pattern ++ r).drop n := by
  induction s with
  | nil =>
    obtain rfl := infix_nil.mp h
    exact ⟨[], [], rfl, by simp⟩
  | cons c s ih =>
    by_cases hhere : pattern <+: c :: s
    · obtain ⟨r, hr⟩ := hhere
      exact ⟨[], r, hr.symm, by simp⟩
    · obtain ⟨t, r, rfl, hfirst⟩ := ih ((infix_cons_iff.mp h).resolve_left hhere)
      refine ⟨c :: t, r, rfl, fun n hn => ?_⟩
      cases n with
      | zero => exact hhere
      | succ n => exact hfirst n (by simpa using hn)

theorem exists_pieces (hpat : pattern ≠ []) (s : List Char) : ∃ ps, Pieces pattern s ps := by
  induction hn : s.length using Nat.strong_induction_on generalizing s with
  | _ n ih =>
    by_cases h : pattern <:+: s
    · obtain ⟨t, r, rfl, hfirst⟩ := exists_first h
      have hpos := length_pos_iff.mpr hpat
      obtain ⟨ps, hps⟩ := ih r.length (by simp only [length_append] at hn; omega) r rfl
      exact ⟨t :: ps, .cut hfirst hps⟩
    · exact ⟨[s], .last h⟩

end Scan

/-! ### Words between separators -/

section Words

variable {α : Type} [DecidableEq α] {sep : α} {x : List α}

variable {s w : List α}

omit [DecidableEq α] in
theorem not_of_mem_splitOnP {p : α → Bool} (h : w ∈ s.splitOnP p) : ∀ c ∈ w, p c = false := by
  induction s generalizing w with
  | nil =>
    rw [splitOnP_nil, mem_singleton] at h
    simp [h]
  | cons a s ih =>
    obtain ⟨v, vs, hs⟩ := exists_cons_of_ne_nil (splitOnP_ne_nil p s)
    rw [splitOnP_cons_eq_if_modifyHead] at h
    rw [hs] at h ih
    cases ha : p a with
    | true => grind
    | false =>
      rw [ha, if_neg Bool.false_ne_true, modifyHead_cons, mem_cons] at h
      rcases h with rfl | h
      · exact forall_mem_cons.mpr ⟨ha, ih mem_cons_self⟩
      · exact ih (mem_cons_of_mem v h)

omit [DecidableEq α] in
theorem mem_of_mem_intercalate {c : α} {glue : List α} {ws : List (List α)}
    (h : c ∈ glue.intercalate ws) : c ∈ glue ∨ ∃ w ∈ ws, c ∈ w := by
  induction ws with
  | nil => simp at h
  | cons w ws ih =>
    rcases eq_or_ne ws [] with rfl | hne
    · exact .inr ⟨w, by simp, by simpa using h⟩
    · rw [intercalate_cons_of_ne_nil hne, mem_append, mem_append] at h
      rcases h with (hw | hglue) | hrest
      · exact .inr ⟨w, by simp, hw⟩
      · exact .inl hglue
      · exact (ih hrest).imp_right fun ⟨v, hv, hc⟩ => ⟨v, mem_cons_of_mem _ hv, hc⟩

theorem mem_of_mem_splitOn {c : α} (h : w ∈ s.splitOn sep) (hc : c ∈ w) : c ∈ s := by
  induction s generalizing w with
  | nil =>
    rw [splitOn_nil, mem_singleton] at h
    simp [h] at hc
  | cons a s ih =>
    obtain ⟨v, vs, hs⟩ := exists_cons_of_ne_nil (splitOn_ne_nil sep s)
    rw [splitOn_cons_eq_if_modifyHead] at h
    rw [hs] at h ih
    split_ifs at h with ha
    · grind
    · rw [modifyHead_cons, mem_cons] at h
      rcases h with rfl | h
      · grind
      · exact mem_cons_of_mem a (ih (mem_cons_of_mem v h) hc)

theorem not_mem_of_mem_splitOn (h : w ∈ s.splitOn sep) : sep ∉ w := by
  intro hmem
  rw [splitOn_eq_splitOnP] at h
  simpa using not_of_mem_splitOnP h sep hmem

theorem prefix_iff_prefix_head (hx : sep ∉ x) {ws : List (List α)} (hs : s.splitOn sep = w :: ws) :
    x <+: s ↔ x <+: w := by
  induction s generalizing x w ws with
  | nil =>
    simp only [splitOn_nil, cons.injEq] at hs
    rw [← hs.1]
  | cons a s ih =>
    rw [splitOn_cons_eq_if_modifyHead] at hs
    cases x with
    | nil => simp
    | cons b x =>
      obtain ⟨hb, hx⟩ := not_or.mp (mem_cons.not.mp hx)
      by_cases ha : a = sep
      · grind
      · obtain ⟨w', ws', hs'⟩ := exists_cons_of_ne_nil (splitOn_ne_nil sep s)
        simp only [beq_iff_eq, ha, if_false, hs', modifyHead_cons, cons.injEq] at hs
        rw [← hs.1, cons_prefix_cons, cons_prefix_cons, ih hx hs']

theorem cons_infix_iff (hx : sep ∉ x) (s : List α) :
    sep :: x <:+: s ↔ ∃ w ∈ (s.splitOn sep).tail, x <+: w := by
  induction s with
  | nil => simp
  | cons a s ih =>
    obtain ⟨w, ws, hs⟩ := exists_cons_of_ne_nil (splitOn_ne_nil sep s)
    rw [infix_cons_iff, ih, splitOn_cons_eq_if_modifyHead, hs, cons_prefix_cons]
    by_cases ha : a = sep
    · simp [ha, prefix_iff_prefix_head hx hs]
    · simp [ha, Ne.symm ha]

theorem exists_suffix_last (hx : sep ∉ x) (s : List α) :
    ∃ ws w, (s ++ x).splitOn sep = ws ++ [w] ∧ x <:+ w := by
  induction s with
  | nil => exact ⟨[], x, by simpa using splitOn_eq_singleton hx, suffix_rfl⟩
  | cons a s ih =>
    obtain ⟨ws, w, hs, hw⟩ := ih
    rw [cons_append, splitOn_cons_eq_if_modifyHead, hs]
    by_cases ha : a = sep
    · exact ⟨[] :: ws, w, by simp [ha], hw⟩
    · cases ws with
      | nil => exact ⟨[], a :: w, by simp [ha], hw.trans (suffix_cons a w)⟩
      | cons v ws => exact ⟨(a :: v) :: ws, w, by simp [ha], hw⟩

omit [DecidableEq α] in
theorem infix_intercalate (ws : List (List α)) {ws' : List (List α)} (h : ws' ≠ []) :
    w ++ [sep] <:+: [sep].intercalate (ws ++ w :: ws') := by
  induction ws with
  | nil =>
    rw [nil_append, intercalate_cons_of_ne_nil h]
    exact (prefix_append _ _).isInfix
  | cons v ws ih =>
    rw [cons_append, intercalate_cons_of_ne_nil (by simp)]
    exact ih.trans (suffix_append _ _).isInfix

theorem append_infix_iff (hx : sep ∉ x) (s : List α) :
    x ++ [sep] <:+: s ↔ ∃ w ∈ (s.splitOn sep).dropLast, x <:+ w := by
  constructor
  · rintro ⟨before, after, rfl⟩
    obtain ⟨ws, w, hs, hw⟩ := exists_suffix_last hx before
    have hsplit : (before ++ (x ++ [sep]) ++ after).splitOn sep =
        ws ++ [w] ++ after.splitOn sep := by
      rw [← hs, ← splitOn_append_cons_self]
      simp
    rw [hsplit, dropLast_append_of_ne_nil (splitOn_ne_nil sep after)]
    exact ⟨w, by simp, hw⟩
  · rintro ⟨w, hmem, hw⟩
    obtain ⟨ws, ws', hws⟩ := append_of_mem hmem
    have hsplit := dropLast_append_getLast (splitOn_ne_nil sep s)
    rw [hws, append_assoc, cons_append] at hsplit
    have hinfix : w ++ [sep] <:+: s := by
      rw [← @intercalate_splitOn α s _ _ sep, ← hsplit]
      exact infix_intercalate ws (by simp)
    obtain ⟨before, rfl⟩ := hw
    rw [append_assoc] at hinfix
    exact (suffix_append before (x ++ [sep])).isInfix.trans hinfix

end Words

/-! ### Trimming -/

section Trim

variable {s : String} {c : Char}

theorem dropWhile_eq_self_of_head {α : Type} {p : α → Bool} {l : List α}
    (h : ∀ c ∈ l.head?, p c = false) : l.dropWhile p = l := by
  cases l with
  | nil => rfl
  | cons c l => exact dropWhile_cons_of_neg (by simp [h c rfl])

theorem trim_space (s : String) : trim (" " ++ s) = trim s := by
  have hdrop : (' ' :: s.toList).dropWhile isWhitespace = s.toList.dropWhile isWhitespace :=
    dropWhile_cons_of_pos (by decide)
  rw [trim, String.toList_append]
  exact congrArg (fun l => String.ofList (l.reverse.dropWhile isWhitespace).reverse) hdrop

theorem trim_eq_self (hhead : ∀ c ∈ s.toList.head?, isWhitespace c = false)
    (hlast : ∀ c ∈ s.toList.getLast?, isWhitespace c = false) : trim s = s := by
  have hback : s.toList.reverse.dropWhile isWhitespace = s.toList.reverse :=
    dropWhile_eq_self_of_head (by rwa [head?_reverse])
  rw [trim, dropWhile_eq_self_of_head hhead, hback, reverse_reverse, String.ofList_toList]

theorem mem_of_mem_trim (h : c ∈ (trim s).toList) : c ∈ s.toList := by
  rw [trim, String.toList_ofList, mem_reverse] at h
  exact (dropWhile_sublist _).mem (mem_reverse.mp ((dropWhile_sublist _).mem h))

theorem not_isWhitespace_head_trim (h : c ∈ (trim s).toList.head?) : isWhitespace c = false := by
  rw [trim, String.toList_ofList] at h
  obtain ⟨t, ht⟩ := dropWhile_suffix isWhitespace (l := (s.toList.dropWhile isWhitespace).reverse)
  set rest := (s.toList.dropWhile isWhitespace).reverse.dropWhile isWhitespace
  have hfront : s.toList.dropWhile isWhitespace = rest.reverse ++ t.reverse := by
    rw [← reverse_append, ht, reverse_reverse]
  have hhead : (s.toList.dropWhile isWhitespace).head? = some c := by
    rw [hfront, head?_append, Option.mem_def.mp h]
    rfl
  have hnot := head?_dropWhile_not isWhitespace s.toList
  rw [hhead] at hnot
  simpa using hnot

end Trim

end Rust
