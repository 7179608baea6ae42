import Tauri.Rust.Outcome
import Tauri.Rust.Search
import Tauri.Rust.Str

/-!
# Colours

`Color::from_str` reads hexadecimal digits. It is exact for every text (`exact_iff`) but for three
things:

* a text without `#` is read with the **spaces** around it;
* a digit may stand behind a **`+`**, which `from_str_radix` skips;
* a slice may end **within a character** of several bytes.
-/

namespace Tauri.Config

open Rust List Outcome

structure Color where
  (r g b a : UInt8)
  deriving DecidableEq

/-- The value of a hexadecimal digit. -/
def hexDigit (b : UInt8) : Option UInt8 :=
  if 48 ≤ b ∧ b ≤ 57 then some (b - 48)
  else if 97 ≤ b ∧ b ≤ 102 then some (b - 87)
  else if 65 ≤ b ∧ b ≤ 70 then some (b - 55)
  else none

/-- `u8::from_str_radix` at 16, for at most two bytes, whose value cannot overflow. -/
def fromStrRadix (src : List UInt8) : Outcome String UInt8 :=
  let digits := match src with
    | 43 :: b :: bs => b :: bs
    | bs => bs
  match src, digits.foldlM (fun n b => (hexDigit b).map (16 * n + ·)) 0 with
  | [], _ => .err "cannot parse integer from empty string"
  | _, some n => .ok n
  | _, none => .err "invalid digit found in string"

/-- `is_char_boundary`: the bytes of a character behind its first are `10xxxxxx`. -/
def isCharBoundary (s : List UInt8) (i : Nat) : Bool :=
  match s[i]? with
  | some b => i = 0 || !(128 ≤ b && b < 192)
  | none => i = s.length

/-- The slice of two bytes, and the number that is read from it. -/
def channel (color : List UInt8) (i : Nat) : Outcome String UInt8 :=
  if isCharBoundary color i && isCharBoundary color (i + 2) then
    fromStrRadix ((color.drop i).take 2)
  else .panic "byte index is not a char boundary"

/-- The text that is read. -/
def text (color : String) : String := (stripPrefix "#" (trim color)).getD color

/-- The bytes of the text with all its digits. -/
def expand (color : String) : Outcome String (List UInt8) :=
  match (bytes color).length with
  | 3 => .ok ((color.toList.flatMap (replicate 2) ++ ['f', 'f']).flatMap String.utf8EncodeChar)
  | 6 => .ok (bytes (color ++ "FF"))
  | 8 => .ok (bytes color)
  | _ => .err ("Invalid hex color length, must be either 3, 6 or 8, for example: #fff, #ffffff, " ++
      "or #ffffffff")

/-- The numbers of the text. -/
def channels (color : List UInt8) : Outcome String Color := do
  let r ← channel color 0
  let g ← channel color 2
  let b ← channel color 4
  let a ← channel color 6
  return ⟨r, g, b, a⟩

/-- `Color::from_str`. -/
def fromStr (color : String) : Outcome String Color := expand (text color) >>= channels

/-! ### What it is to give -/

/-- The text that is meant. -/
def meant (color : String) : String := (stripPrefix "#" (trim color)).getD (trim color)

/-- The number of two digits. -/
def number (b b' : UInt8) : UInt8 := 16 * (hexDigit b).getD 0 + (hexDigit b').getD 0

/-- The colour of 3, 6 or 8 digits. -/
def ofDigits : List UInt8 → Option Color
  | [r, g, b] => some ⟨number r r, number g g, number b b, 255⟩
  | [r, r', g, g', b, b'] => some ⟨number r r', number g g', number b b', 255⟩
  | [r, r', g, g', b, b', a, a'] =>
    some ⟨number r r', number g g', number b b', number a a'⟩
  | _ => none

/-- The colour that a text denotes. -/
def denoted (color : String) : Option Color :=
  if ∀ b ∈ bytes color, (hexDigit b).isSome then ofDigits (bytes color) else none

/-- The result is the colour that is meant, or an error if there is none. -/
def Exact (color : String) : Prop :=
  (∀ c, denoted (meant color) = some c → fromStr color = .ok c) ∧
    (denoted (meant color) = none → ∃ e, fromStr color = .err e)

/-- Two bytes that can be read: digits, the first maybe a `+`. -/
def reads (color : List UInt8) (i : Nat) : Bool :=
  match (color.drop i).take 2 with
  | [b, b'] => (b = 43 || (hexDigit b).isSome) && (hexDigit b').isSome
  | _ => false

/-- All numbers can be read. -/
def Accepted (color : List UInt8) : Prop := ∀ i ∈ [0, 2, 4, 6], reads color i

/-- A slice ends within a character, and the numbers before it can be read. -/
def Cut (color : List UInt8) : Prop :=
  ∃ i ∈ [0, 2, 4], isCharBoundary color (i + 2) = false ∧ ∀ j ∈ [0, 2, 4], j < i → reads color j

variable {s : String} {b : UInt8} {color : List UInt8}

theorem fromStrRadix_pair (b b' : UInt8) : fromStrRadix [b, b'] =
    if (b = 43 ∨ (hexDigit b).isSome) ∧ (hexDigit b').isSome then .ok (number b b')
    else .err "invalid digit found in string" := by
  by_cases hb : b = 43
  · subst hb
    have hplus : hexDigit 43 = none := rfl
    rcases hy : hexDigit b' with _ | y <;> simp [fromStrRadix, number, hy, hplus]
  · rcases hx : hexDigit b with _ | x <;> rcases hy : hexDigit b' with _ | y <;>
      simp [fromStrRadix, number, hb, hx, hy]

/-- What can be read is neither a space nor part of a longer character. -/
theorem visible (h : b = 43 ∨ (hexDigit b).isSome) : 43 ≤ b.toNat ∧ b < 128 := by
  rcases h with rfl | h
  · decide
  · unfold hexDigit at h
    simp only [UInt8.le_iff_toNat_le, UInt8.lt_iff_toNat_lt] at h ⊢
    grind

theorem trim_of_visible (h : ∀ b ∈ bytes s, 43 ≤ b.toNat ∧ b < 128) : trim s = s := by
  have hchars : ∀ c ∈ s.toList, isWhitespace c = false := by
    rw [toList_eq_map_bytes fun b hb => (h b hb).2]
    refine forall_mem_map.mpr fun b hb => ?_
    obtain ⟨hlow, hascii⟩ := h b hb
    have : b.toNat < 128 := UInt8.lt_iff_toNat_lt.mp hascii
    simp [isWhitespace, toNat_ofNat_of_ascii hascii]
    omega
  exact trim_eq_self (fun c hc => hchars c (mem_of_mem_head? hc))
    fun c hc => hchars c (mem_of_mem_getLast? hc)

/-- Eight bytes: a slice panics, a number fails, or the colour is that of the digits. -/
theorem channels_cases (hlen : color.length = 8) :
    (Cut color → ∃ m, channels color = .panic m) ∧
      (¬Cut color → ¬Accepted color → ∃ e, channels color = .err e) ∧
      (Accepted color → ∃ c, ofDigits color = some c ∧ channels color = .ok c) := by
  have hascii {b : UInt8} (h : b = 43 ∨ (hexDigit b).isSome) : b < 128 := (visible h).2
  match color, hlen with
  | [b₀, b₁, b₂, b₃, b₄, b₅, b₆, b₇], _ =>
    have h₂ := @hascii b₂
    have h₄ := @hascii b₄
    have h₆ := @hascii b₆
    simp [channels, channel, fromStrRadix_pair, Cut, Accepted, reads, isCharBoundary, ofDigits]
    grind [pure_eq, ok_bind, err_bind, panic_bind]

theorem digit_of_accepted (hlen : color.length = 8) (h : Accepted color) (hb : b ∈ color) :
    b = 43 ∨ (hexDigit b).isSome := by
  match color, hlen with
  | [_, _, _, _, _, _, _, _], _ =>
    simp [Accepted, reads] at h hb
    grind

theorem hex_iff_accepted (hlen : color.length = 8) :
    (∀ b ∈ color, (hexDigit b).isSome) ↔ Accepted color ∧ 43 ∉ color := by
  refine ⟨fun h => ⟨?_, fun hplus => nomatch h 43 hplus⟩, fun h b hb => ?_⟩
  · match color, hlen with
    | [_, _, _, _, _, _, _, _], _ => simp_all [Accepted, reads]
  · exact (digit_of_accepted hlen h.1 hb).resolve_left fun heq => h.2 (heq ▸ hb)

/-! ### The text -/

theorem expand_cases (h : expand s = .ok color) :
    (bytes s).length = 3 ∧
        color = (s.toList.flatMap (replicate 2) ++ ['f', 'f']).flatMap String.utf8EncodeChar ∨
      (bytes s).length = 6 ∧ color = bytes s ++ [70, 70] ∨
      (bytes s).length = 8 ∧ color = bytes s := by
  have hf : bytes "FF" = [70, 70] := rfl
  unfold expand at h
  split at h <;> simp_all [bytes_append]

theorem length_of_expand (h : expand s = .ok color) : color.length = 8 := by
  rcases expand_cases h with ⟨hlen, rfl⟩ | ⟨hlen, rfl⟩ | ⟨hlen, rfl⟩
  · simp only [bytes, length_flatMap] at hlen
    simp [replicate, flatMap_assoc, length_flatMap, sum_map_add, hlen,
      -String.length_utf8EncodeChar]
    rfl
  · simp [hlen]
  · exact hlen

theorem mem_of_expand (h : expand s = .ok color) (b : UInt8) :
    (b ∈ bytes s → b ∈ color) ∧ (b ∈ color → b ∈ bytes s ∨ (hexDigit b).isSome) := by
  have hf : (hexDigit 70).isSome ∧ (hexDigit 102).isSome ∧ String.utf8EncodeChar 'f' = [102] :=
    ⟨rfl, rfl, rfl⟩
  rcases expand_cases h with ⟨hlen, rfl⟩ | ⟨hlen, rfl⟩ | ⟨hlen, rfl⟩
  · simp [bytes]
    grind
  · grind
  · exact ⟨id, .inl⟩

theorem ofDigits_append (hlen : color.length = 6) :
    ofDigits color = ofDigits (color ++ [70, 70]) := by
  match color, hlen with
  | [_, _, _, _, _, _], _ => rfl

open Classical in
/-- The digits denote what the text denotes. -/
theorem denoted_of_expand (h : expand s = .ok color) :
    denoted s = if Accepted color ∧ 43 ∉ color then ofDigits color else none := by
  have hhex : (∀ b ∈ bytes s, (hexDigit b).isSome) ↔ Accepted color ∧ 43 ∉ color := by
    rw [← hex_iff_accepted (length_of_expand h)]
    have hmem := mem_of_expand h
    grind
  refine if_ctx_congr hhex (fun hacc => ?_) fun _ => rfl
  rcases expand_cases h with ⟨hlen, rfl⟩ | ⟨hlen, rfl⟩ | ⟨hlen, rfl⟩
  · have hascii : ∀ b ∈ bytes s, b < 128 := fun b hb => (visible (.inr (hhex.mpr hacc b hb))).2
    have hchar (b : UInt8) (hb : b < 128) : String.utf8EncodeChar (Char.ofNat b.toNat) = [b] := by
      simpa [bytes] using @bytes_ofList_map [b] (by simpa using hb)
    obtain ⟨r, g, b, hrgb⟩ := length_eq_three.mp hlen
    simp only [hrgb, forall_mem_cons] at hascii
    rw [toList_eq_map_bytes (hrgb ▸ by simpa using hascii), hrgb]
    simp [replicate, hchar, hascii]
    rfl
  · exact ofDigits_append hlen
  · rfl

theorem expand_error (s : String) :
    (∃ color, expand s = .ok color) ∨ denoted s = none ∧ ∃ m, expand s = .err m := by
  unfold expand denoted ofDigits
  split
  · simp
  · simp
  · simp
  · refine .inr ⟨?_, _, rfl⟩
    split_ifs
    · split <;> simp_all
    · rfl

theorem denoted_of_trim_ne (h : trim s ≠ s) : denoted s = none :=
  if_neg fun hhex => h (trim_of_visible fun b hb => visible (.inr (hhex b hb)))

theorem denoted_meant_iff : denoted (meant s) = denoted (text s) ↔
    (stripPrefix "#" (trim s) = none → trim s ≠ s → denoted (trim s) = none) := by
  unfold meant text
  rcases stripPrefix "#" (trim s) with _ | t
  · by_cases htrim : trim s = s
    · simp [htrim]
    · simp [htrim, denoted_of_trim_ne]
  · simp

/-- What can be read has no space around it. -/
theorem denoted_meant (h : expand (text s) = .ok color) (hacc : Accepted color) :
    denoted (meant s) = denoted (text s) := by
  refine denoted_meant_iff.mpr fun hnone hne => absurd (trim_of_visible fun b hb => ?_) hne
  have htext : text s = s := by simp [text, hnone]
  exact visible (digit_of_accepted (length_of_expand h) hacc
    ((mem_of_expand h b).1 (htext.symm ▸ hb)))

/-- **A text is read exactly** if and only if a colour without `#` has no space around it, no slice
is cut, and no number that is read has a sign. -/
theorem exact_iff (s : String) : Exact s ↔
    (stripPrefix "#" (trim s) = none → trim s ≠ s → denoted (trim s) = none) ∧
      ∀ color, expand (text s) = .ok color → ¬Cut color ∧ (Accepted color → 43 ∉ color) := by
  rw [← denoted_meant_iff, Exact]
  rcases expand_error (text s) with ⟨color, hcolor⟩ | ⟨hnone, m, hm⟩
  · have hlen := length_of_expand hcolor
    obtain ⟨hcut, herr, hok⟩ := channels_cases hlen
    have hmeant := denoted_meant hcolor
    rw [denoted_of_expand hcolor] at hmeant ⊢
    simp only [fromStr, hcolor, Outcome.ok_bind, Outcome.ok.injEq, forall_eq']
    by_cases hc : Cut color
    · obtain ⟨m, hm⟩ := hcut hc
      cases denoted (meant s) <;> simp [hc, hm]
    · by_cases hacc : Accepted color
      · obtain ⟨c, hdigits, hm⟩ := hok hacc
        rw [hmeant hacc]
        by_cases hplus : 43 ∈ color <;> simp [hc, hacc, hplus, hdigits, hm]
      · obtain ⟨m, hm⟩ := herr hc hacc
        cases denoted (meant s) <;> simp [hc, hacc, hm]
  · simp only [fromStr, hm, hnone, Outcome.err_bind]
    cases denoted (meant s) <;> simp

/-- A space is not trimmed, signs are read, and a longer character is cut. -/
theorem not_exact : ¬Exact " fff" ∧ ¬Exact "+f+f+f" ∧ ¬Exact "€" := by
  refine ⟨fun h => ?_, fun h => ?_, fun h => ?_⟩
  · exact nomatch h.1 ⟨255, 255, 255, 255⟩ (by decide +kernel)
  all_goals
    obtain ⟨e, he⟩ := h.2 (by decide +kernel)
    exact nomatch he

end Tauri.Config
