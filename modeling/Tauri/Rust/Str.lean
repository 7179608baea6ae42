import Mathlib

/-!
# String operations of the Rust standard library

The operations of `str` that a program splits and joins names with. They are stated on the
list of characters, where the kernel can evaluate them; `bytes` is the UTF-8 encoding. String
comparison needs no definition of its own: UTF-8 keeps the order of the code points, so the
byte order of Rust's `str` is the order of `String`.
-/

namespace Rust

open List UInt8

/-- `str::bytes`: the UTF-8 encoding. -/
def bytes (s : String) : List UInt8 := s.toList.flatMap String.utf8EncodeChar

/-- `str::strip_prefix`. -/
def stripPrefix (p s : String) : Option String := (p.toList.isPrefixOf? s.toList).map String.ofList

/-- `str::starts_with`. -/
def startsWith (p s : String) : Bool := (stripPrefix p s).isSome

/-- `str::split` at a character: always at least one piece. -/
def split (c : Char) (s : String) : List String := (s.toList.splitOn c).map String.ofList

/-- `str::split_once` at a character. -/
def splitOnce (c : Char) (s : String) : Option (String × String) :=
  if c ∈ s.toList then
    some (String.ofList (s.toList.takeWhile (· ≠ c)),
      String.ofList (s.toList.dropWhile (· ≠ c)).tail)
  else none

/-- The value of decimal digits, where it stays below `2 ^ 32`. -/
def digitsU32 (digits : List UInt8) : Option Nat :=
  digits.foldlM (fun acc b =>
    let next := acc * 10 + (b.toNat - 48)
    if 48 ≤ b ∧ b ≤ 57 ∧ next < 2 ^ 32 then some next else none) 0

/-- `str::parse` at the type `u32`, on the bytes of the string: decimal digits, possibly behind
a `+`. -/
def parseU32 (s : List UInt8) : Option UInt32 :=
  let digits := if s.head? = some 43 then s.tail else s
  if digits.isEmpty then none else (digitsU32 digits).map UInt32.ofNat

/-- The bytes of a number in decimal. -/
def decimal (n : Nat) : List UInt8 := (Nat.toDigits 10 n).map fun c => UInt8.ofNat c.toNat

variable {n : Nat} {b : UInt8} {s : String} {c : Char}

theorem decimal_of_lt (h : n < 10) : decimal n = [ofNat n.digitChar.toNat] := by
  rw [decimal, Nat.toDigits_of_lt_base h]
  rfl

theorem decimal_of_le (h : 10 ≤ n) :
    decimal n = decimal (n / 10) ++ [ofNat (n % 10).digitChar.toNat] := by
  rw [decimal, Nat.toDigits_of_base_le (by omega) h, map_append]
  rfl

theorem toNat_digitChar (h : n < 10) : (ofNat n.digitChar.toNat).toNat = 48 + n := by
  interval_cases n <;> rfl

theorem toNat_of_mem_decimal (h : b ∈ decimal n) : 48 ≤ b.toNat ∧ b.toNat ≤ 57 := by
  induction n using Nat.strong_induction_on with
  | _ n ih =>
    rcases Nat.lt_or_ge n 10 with hlt | hge
    · rw [decimal_of_lt hlt, mem_singleton] at h
      rw [h, toNat_digitChar hlt]
      omega
    · rw [decimal_of_le hge, mem_append, mem_singleton] at h
      rcases h with h | rfl
      · exact ih (n / 10) (by omega) h
      · rw [toNat_digitChar (Nat.mod_lt n (by omega))]
        omega

theorem digitsU32_append_digit {digits : List UInt8} {d : Nat} (h : digitsU32 digits = some n)
    (hd : d < 10) (hlt : n * 10 + d < 2 ^ 32) :
    digitsU32 (digits ++ [ofNat d.digitChar.toNat]) = some (n * 10 + d) := by
  have hbyte := toNat_digitChar hd
  have hdigit : 48 ≤ ofNat d.digitChar.toNat ∧ ofNat d.digitChar.toNat ≤ 57 := by
    rw [le_iff_toNat_le, le_iff_toNat_le, hbyte]
    change 48 ≤ 48 + d ∧ 48 + d ≤ 57
    omega
  unfold digitsU32 at h ⊢
  rw [foldlM_append, h]
  simpa [hdigit, hbyte] using hlt

theorem digitsU32_decimal (h : n < 2 ^ 32) : digitsU32 (decimal n) = some n := by
  induction n using Nat.strong_induction_on with
  | _ n ih =>
    rcases Nat.lt_or_ge n 10 with hlt | hge
    · rw [decimal_of_lt hlt]
      simpa using @digitsU32_append_digit 0 [] n rfl hlt (by omega)
    · have hrest := ih (n / 10) (by omega) (by omega)
      rw [decimal_of_le hge, digitsU32_append_digit hrest (Nat.mod_lt n (by omega)) (by omega)]
      rw [Nat.div_add_mod']

theorem parseU32_decimal (n : UInt32) : parseU32 (decimal n.toNat) = some n := by
  have hhead : (decimal n.toNat).head? ≠ some 43 := by
    intro h
    have hlow : 48 ≤ 43 := (toNat_of_mem_decimal (mem_of_mem_head? h)).1
    omega
  have hne : (decimal n.toNat).isEmpty = false := by simp [decimal, Nat.toDigits_ne_nil]
  simp only [parseU32, if_neg hhead, hne, digitsU32_decimal n.toNat_lt, Bool.false_eq_true,
    if_false, Option.map_some, UInt32.ofNat_toNat]

theorem stripPrefix_eq_some {p t : String} : stripPrefix p s = some t ↔ s = p ++ t := by
  simp only [stripPrefix, Option.map_eq_some_iff, isPrefixOf?_eq_some_iff_append_eq]
  constructor
  · rintro ⟨cs, hcs, rfl⟩
    apply String.toList_injective
    rw [String.toList_append, String.toList_ofList, hcs]
  · rintro rfl
    exact ⟨t.toList, String.toList_append.symm, String.ofList_toList⟩

theorem startsWith_iff {p : String} : startsWith p s = true ↔ ∃ t, s = p ++ t := by
  simp only [startsWith, Option.isSome_iff_exists, stripPrefix_eq_some]

theorem bytes_append (s t : String) : bytes (s ++ t) = bytes s ++ bytes t := by
  rw [bytes, String.toList_append, flatMap_append, bytes, bytes]

theorem splitOnce_eq_some {a b : String} :
    splitOnce c s = some (a, b) ↔ s.toList = a.toList ++ c :: b.toList ∧ c ∉ a.toList := by
  constructor
  · intro h
    simp only [splitOnce, Option.ite_none_right_eq_some, Option.some.injEq, Prod.mk.injEq] at h
    obtain ⟨hmem, rfl, rfl⟩ := h
    simp only [String.toList_ofList]
    have hne : s.toList.dropWhile (· ≠ c) ≠ [] := by simp_all
    have hhead : (s.toList.dropWhile (· ≠ c)).head hne = c := by
      simpa using head_dropWhile_not (· ≠ c) hne
    refine ⟨?_, fun hc => ?_⟩
    · conv_lhs => rw [← takeWhile_append_dropWhile (p := (· ≠ c)) (l := s.toList)]
      rw [← cons_head_tail hne, hhead, tail_cons]
    · simpa using mem_takeWhile_imp hc
  · rintro ⟨hs, hc⟩
    have hall : ∀ x ∈ a.toList, decide (x ≠ c) = true := by
      intro x hx
      simpa using fun hxc : x = c => hc (hxc ▸ hx)
    have htake : s.toList.takeWhile (· ≠ c) = a.toList := by
      rw [hs, takeWhile_append_of_pos hall]
      simp
    have hdrop : s.toList.dropWhile (· ≠ c) = c :: b.toList := by
      rw [hs, dropWhile_append_of_pos hall]
      simp
    have hmem : c ∈ s.toList := by simp [hs]
    rw [splitOnce, if_pos hmem, htake, hdrop]
    simp [String.ofList_toList]

theorem splitOnce_eq_none : splitOnce c s = none ↔ c ∉ s.toList := by simp [splitOnce]

theorem split_of_not_mem (h : c ∉ s.toList) : split c s = [s] := by
  rw [split, splitOn_eq_singleton h, map_singleton, String.ofList_toList]

theorem split_of_splitOnce {a b : String} (h : splitOnce c s = some (a, b)) :
    split c s = a :: split c b := by
  obtain ⟨hs, hc⟩ := splitOnce_eq_some.mp h
  have hbef : ∀ x ∈ a.toList, (x == c) = false := by
    intro x hx
    exact beq_eq_false_iff_ne.mpr fun hxc => hc (hxc ▸ hx)
  rw [split, hs, splitOn,
    splitOnP_append_cons_of_forall_mem hbef c (beq_self_eq_true c), map_cons,
    String.ofList_toList]
  rfl

/-! ### Splitting lists -/

section SplitOn

variable {α : Type} [BEq α] [LawfulBEq α] {c b : α} {l seg : List α} {rest : List (List α)}

theorem splitOn_cons_self (c : α) (l : List α) : (c :: l).splitOn c = [] :: l.splitOn c := by
  rw [splitOn, splitOnP_cons_eq_if_modifyHead, if_pos (beq_self_eq_true c)]
  rfl

theorem splitOn_cons_of_ne (hb : b ≠ c) (hl : l.splitOn c = seg :: rest) :
    (b :: l).splitOn c = (b :: seg) :: rest := by
  rw [splitOn, splitOnP_cons_eq_if_modifyHead, if_neg (by simpa using hb)]
  exact congrArg (modifyHead (cons b)) hl

omit [LawfulBEq α] in
theorem exists_splitOn_eq_cons (c : α) (l : List α) : ∃ seg rest, l.splitOn c = seg :: rest :=
  exists_cons_of_ne_nil (splitOn_ne_nil c l)

theorem exists_mem_splitOn (hb : b ∈ l) (hne : b ≠ c) : ∃ seg ∈ l.splitOn c, b ∈ seg := by
  induction l with
  | nil => cases hb
  | cons a l ih =>
    obtain ⟨seg, rest, hl⟩ := exists_splitOn_eq_cons c l
    by_cases ha : a = c
    · subst ha
      obtain ⟨part, hpart, hmem⟩ := ih ((mem_cons.mp hb).resolve_left hne)
      exact ⟨part, by rw [splitOn_cons_self]; exact mem_cons_of_mem _ hpart, hmem⟩
    · rw [splitOn_cons_of_ne ha hl]
      rcases mem_cons.mp hb with rfl | hb
      · exact ⟨b :: seg, mem_cons_self, mem_cons_self⟩
      · grind

end SplitOn

/-! ### ASCII strings -/

theorem utf8EncodeChar_of_ascii (h : ∀ b ∈ String.utf8EncodeChar c, b < 128) :
    c.toNat ≤ 127 ∧ String.utf8EncodeChar c = [ofNat c.toNat] := by
  have hnat : c.toNat = c.val.toNat := rfl
  have hhigh : ∀ n : Nat, 128 ≤ n → n < 256 → ¬ ofNat n < 128 := by
    intro n hlow hhigh hlt
    have hmod : n % 256 < 128 := by simpa [lt_iff_toNat_lt] using hlt
    omega
  simp only [String.utf8EncodeChar] at h ⊢
  rw [hnat]
  -- the first byte of every longer encoding is not below 128
  split_ifs at h ⊢ with h1 h2 h3
  · exact ⟨h1, rfl⟩
  all_goals exact absurd (h _ mem_cons_self) (hhigh _ (by omega) (by omega))

theorem utf8EncodeChar_ascii (h : c.toNat < 128) :
    String.utf8EncodeChar c = [ofNat c.toNat] := by
  have hnat : c.toNat = c.val.toNat := rfl
  rw [String.utf8EncodeChar]
  simp only [← hnat, if_pos (show c.toNat ≤ 127 by omega)]

theorem toNat_lt_of_isAlphanum (h : c.isAlphanum = true) : c.toNat < 128 := by
  simp only [Char.isAlphanum, Char.isAlpha, Char.isUpper, Char.isLower, Char.isDigit,
    Bool.or_eq_true, Bool.and_eq_true, decide_eq_true_eq, UInt32.le_iff_toNat_le] at h
  have hnat : c.toNat = c.val.toNat := rfl
  have hupper : 'Z'.val.toNat = 90 := rfl
  have hlower : 'z'.val.toNat = 122 := rfl
  have hdigit : '9'.val.toNat = 57 := rfl
  omega

theorem bytes_eq_map_toList (h : ∀ c ∈ s.toList, c.toNat < 128) :
    bytes s = s.toList.map fun c => ofNat c.toNat := by
  unfold bytes
  generalize s.toList = cs at h ⊢
  induction cs with
  | nil => rfl
  | cons c cs ih =>
    obtain ⟨hc, hcs⟩ := forall_mem_cons.mp h
    rw [flatMap_cons, ih hcs, utf8EncodeChar_ascii hc, map_cons, singleton_append]

theorem toNat_of_mem_toString (h : c ∈ (toString n).toList) : 48 ≤ c.toNat ∧ c.toNat ≤ 57 := by
  rw [Nat.toString_eq_repr, Nat.toList_repr] at h
  exact Char.isDigit_iff_toNat.mp (Nat.isDigit_of_mem_toDigits (by decide) (by decide) h)

theorem bytes_toString (n : Nat) : bytes (toString n) = decimal n := by
  have hascii : ∀ c ∈ (toString n).toList, c.toNat < 128 := by
    intro c hc
    have hdigit := toNat_of_mem_toString hc
    omega
  rw [bytes_eq_map_toList hascii, Nat.toString_eq_repr, Nat.toList_repr, decimal]

theorem toList_eq_map_bytes (h : ∀ b ∈ bytes s, b < 128) :
    s.toList = (bytes s).map fun b => Char.ofNat b.toNat := by
  unfold bytes at h ⊢
  generalize s.toList = cs at h ⊢
  induction cs with
  | nil => rfl
  | cons c cs ih =>
    rw [flatMap_cons] at h ⊢
    obtain ⟨hc, hcs⟩ := forall_mem_append.mp h
    obtain ⟨hle, hbytes⟩ := utf8EncodeChar_of_ascii hc
    rw [hbytes, map_append, ← ih hcs]
    have hbyte : (ofNat c.toNat).toNat = c.toNat := by
      rw [toNat_ofNat']
      omega
    simp [hbyte]

theorem toNat_ofNat_of_ascii (h : b < 128) : (Char.ofNat b.toNat).toNat = b.toNat := by
  have hlt : b.toNat < 128 := by simpa [lt_iff_toNat_lt] using h
  have hval : b.toNat.isValidChar := .inl (by omega)
  rw [Char.toNat_ofNat, if_pos hval]

theorem ofNat_injective_of_ascii {b' : UInt8} (h : b < 128) (h' : b' < 128)
    (heq : Char.ofNat b.toNat = Char.ofNat b'.toNat) : b = b' := by
  have hnat := congrArg Char.toNat heq
  rw [toNat_ofNat_of_ascii h, toNat_ofNat_of_ascii h'] at hnat
  exact toNat.inj hnat

theorem bytes_ofList_map {bs : List UInt8} (h : ∀ b ∈ bs, b < 128) :
    bytes (String.ofList (bs.map fun b => Char.ofNat b.toNat)) = bs := by
  rw [bytes, String.toList_ofList]
  induction bs with
  | nil => rfl
  | cons b bs ih =>
    obtain ⟨hb, hbs⟩ := forall_mem_cons.mp h
    have hlt : b.toNat < 128 := by simpa [UInt8.lt_iff_toNat_lt] using hb
    have hval : (Char.ofNat b.toNat).val.toNat = b.toNat := toNat_ofNat_of_ascii hb
    rw [map_cons, flatMap_cons, ih hbs, String.utf8EncodeChar]
    simp only [hval, if_pos (show b.toNat ≤ 127 by omega), UInt8.ofNat_toNat, singleton_append]

end Rust
