import Tauri.Rust.Str

/-!
# Percent encoding

`encodeURIComponent` on the side of a page, and `percent_decode(…).decode_utf8_lossy()` on the other
one. A text is encoded as its UTF-8 bytes, a byte as itself or as `%` and two digits. Decoding takes
the bytes back one by one, and the characters back from the bytes; bytes that are no UTF-8 are
replaced, which does not happen to bytes of a text (`percentDecodeLossy_encode`).
-/

namespace Rust

open List

/-! ### UTF-8 -/

/-- `char::REPLACEMENT_CHARACTER`. -/
def replacementCharacter : Char := '�'

/-- A byte that continues a character. -/
def isContinuation (b : UInt8) : Bool := 0x80 ≤ b.toNat && b.toNat ≤ 0xBF

/-- The second byte of a character, by the first one: overlong forms, surrogates and numbers that
are too large are not allowed. -/
def isSecond (first second : UInt8) : Bool :=
  (if first.toNat = 0xE0 then 0xA0 else if first.toNat = 0xF0 then 0x90 else 0x80)
      ≤ second.toNat &&
    second.toNat ≤ if first.toNat = 0xED then 0x9F else if first.toNat = 0xF4 then 0x8F else 0xBF

/-- `String::from_utf8_lossy`: the bytes up to one that cannot follow are replaced together. -/
def decodeUtf8Lossy : List UInt8 → List Char
  | [] => []
  | b :: rest =>
    if b.toNat < 0x80 then Char.ofNat b.toNat :: decodeUtf8Lossy rest
    else if b.toNat < 0xC2 ∨ 0xF4 < b.toNat then replacementCharacter :: decodeUtf8Lossy rest
    else
      match rest with
      | [] => [replacementCharacter]
      | c :: rest₁ =>
        if isSecond b c = false then replacementCharacter :: decodeUtf8Lossy (c :: rest₁)
        else if b.toNat < 0xE0 then
          Char.ofNat ((b.toNat - 0xC0) * 64 + (c.toNat - 0x80)) :: decodeUtf8Lossy rest₁
        else
          match rest₁ with
          | [] => [replacementCharacter]
          | d :: rest₂ =>
            if isContinuation d = false then replacementCharacter :: decodeUtf8Lossy (d :: rest₂)
            else if b.toNat < 0xF0 then
              Char.ofNat ((b.toNat - 0xE0) * 4096 + (c.toNat - 0x80) * 64 + (d.toNat - 0x80)) ::
                decodeUtf8Lossy rest₂
            else
              match rest₂ with
              | [] => [replacementCharacter]
              | e :: rest₃ =>
                if isContinuation e = false then
                  replacementCharacter :: decodeUtf8Lossy (e :: rest₃)
                else
                  Char.ofNat ((b.toNat - 0xF0) * 262144 + (c.toNat - 0x80) * 4096 +
                    (d.toNat - 0x80) * 64 + (e.toNat - 0x80)) :: decodeUtf8Lossy rest₃

section Decode

variable {b c d e : UInt8} (rest : List UInt8)

theorem decodeUtf8Lossy_one (hb : b.toNat < 0x80) :
    decodeUtf8Lossy (b :: rest) = Char.ofNat b.toNat :: decodeUtf8Lossy rest := by
  rw [decodeUtf8Lossy.eq_def]
  simp only [if_pos hb]

theorem decodeUtf8Lossy_two (hb : 0xC2 ≤ b.toNat) (hb' : b.toNat < 0xE0)
    (hc : isContinuation c = true) :
    decodeUtf8Lossy (b :: c :: rest) =
      Char.ofNat ((b.toNat - 0xC0) * 64 + (c.toNat - 0x80)) :: decodeUtf8Lossy rest := by
  have hsnd : isSecond b c = true := by
    simp only [isSecond, isContinuation, Bool.and_eq_true, decide_eq_true_eq] at hc ⊢
    split_ifs <;> omega
  rw [decodeUtf8Lossy.eq_def]
  simp only [if_neg (show ¬b.toNat < 0x80 by omega),
    if_neg (show ¬(b.toNat < 0xC2 ∨ 0xF4 < b.toNat) by omega), hsnd, Bool.true_eq_false,
    if_false, if_pos hb']

theorem decodeUtf8Lossy_three (hb : 0xE0 ≤ b.toNat) (hb' : b.toNat < 0xF0)
    (hc : isSecond b c = true) (hd : isContinuation d = true) :
    decodeUtf8Lossy (b :: c :: d :: rest) =
      Char.ofNat ((b.toNat - 0xE0) * 4096 + (c.toNat - 0x80) * 64 + (d.toNat - 0x80)) ::
        decodeUtf8Lossy rest := by
  rw [decodeUtf8Lossy.eq_def]
  simp only [if_neg (show ¬b.toNat < 0x80 by omega),
    if_neg (show ¬(b.toNat < 0xC2 ∨ 0xF4 < b.toNat) by omega), hc, Bool.true_eq_false, if_false,
    if_neg (show ¬b.toNat < 0xE0 by omega), hd, if_pos hb']

theorem decodeUtf8Lossy_four (hb : 0xF0 ≤ b.toNat) (hb' : b.toNat ≤ 0xF4)
    (hc : isSecond b c = true) (hd : isContinuation d = true) (he : isContinuation e = true) :
    decodeUtf8Lossy (b :: c :: d :: e :: rest) =
      Char.ofNat ((b.toNat - 0xF0) * 262144 + (c.toNat - 0x80) * 4096 + (d.toNat - 0x80) * 64 +
        (e.toNat - 0x80)) :: decodeUtf8Lossy rest := by
  rw [decodeUtf8Lossy.eq_def]
  simp only [if_neg (show ¬b.toNat < 0x80 by omega),
    if_neg (show ¬(b.toNat < 0xC2 ∨ 0xF4 < b.toNat) by omega), hc, Bool.true_eq_false, if_false,
    if_neg (show ¬b.toNat < 0xE0 by omega), hd, if_neg (show ¬b.toNat < 0xF0 by omega), he]

end Decode

open UInt8

theorem toNat_ofNat_byte {n : Nat} (h : n < 256) : (UInt8.ofNat n).toNat = n := by
  rw [toNat_ofNat', Nat.mod_eq_of_lt (by omega)]

theorem decodeUtf8Lossy_utf8EncodeChar (c : Char) (rest : List UInt8) :
    decodeUtf8Lossy (String.utf8EncodeChar c ++ rest) = c :: decodeUtf8Lossy rest := by
  obtain ⟨v, hv⟩ : ∃ v, c.val.toNat = v := ⟨_, rfl⟩
  have hval : v < 0xD800 ∨ 0xDFFF < v ∧ v < 0x110000 := hv ▸ c.valid
  have hchar : ∀ {n : Nat}, n = v → Char.ofNat n = c := by
    rintro n rfl
    rw [← hv]
    exact Char.ofNat_toNat c
  have htail : ∀ n, (ofNat (n % 64 + 128)).toNat = n % 64 + 128 :=
    fun n => toNat_ofNat_byte (by omega)
  have hcont : ∀ n, isContinuation (ofNat (n % 64 + 128)) = true := by
    intro n
    simp only [isContinuation, htail, Bool.and_eq_true, decide_eq_true_eq]
    omega
  simp only [String.utf8EncodeChar, hv]
  split_ifs with h₁ h₂ h₃
  · have hb := toNat_ofNat_byte (show v < 256 by omega)
    rw [singleton_append, decodeUtf8Lossy_one rest (by omega), hb, hchar rfl]
  · have hb := toNat_ofNat_byte (show v / 64 % 32 + 192 < 256 by omega)
    rw [cons_append, singleton_append,
      decodeUtf8Lossy_two rest (by omega) (by omega) (hcont v), hb, htail, hchar (by omega)]
  · have hb := toNat_ofNat_byte (show v / 4096 % 16 + 224 < 256 by omega)
    have hsnd : isSecond (ofNat (v / 4096 % 16 + 224))
        (ofNat (v / 64 % 64 + 128)) = true := by
      simp only [isSecond, hb, htail, Bool.and_eq_true, decide_eq_true_eq]
      split_ifs <;> omega
    rw [cons_append, cons_append, singleton_append,
      decodeUtf8Lossy_three rest (by omega) (by omega) hsnd (hcont v), hb, htail, htail,
      hchar (by omega)]
  · have hb := toNat_ofNat_byte (show v / 262144 % 8 + 240 < 256 by omega)
    have hsnd : isSecond (ofNat (v / 262144 % 8 + 240))
        (ofNat (v / 4096 % 64 + 128)) = true := by
      simp only [isSecond, hb, htail, Bool.and_eq_true, decide_eq_true_eq]
      split_ifs <;> omega
    rw [cons_append, cons_append, cons_append, singleton_append,
      decodeUtf8Lossy_four rest (by omega) (by omega) hsnd (hcont _) (hcont v), hb, htail, htail,
      htail, hchar (by omega)]

theorem decodeUtf8Lossy_bytes (s : String) : decodeUtf8Lossy (bytes s) = s.toList := by
  have hlist : ∀ cs : List Char, decodeUtf8Lossy (cs.flatMap String.utf8EncodeChar) = cs := by
    intro cs
    induction cs with
    | nil => rfl
    | cons c cs ih => rw [flatMap_cons, decodeUtf8Lossy_utf8EncodeChar, ih]
  exact hlist s.toList

theorem bytes_injective : Function.Injective bytes := by
  intro s t h
  have hchars := congrArg decodeUtf8Lossy h
  rw [decodeUtf8Lossy_bytes, decodeUtf8Lossy_bytes] at hchars
  exact String.toList_injective hchars

/-! ### Percent encoding -/

/-- The value of a hexadecimal digit, `char::to_digit` with the radix 16. -/
def hexValue (b : UInt8) : Option Nat :=
  if 48 ≤ b.toNat ∧ b.toNat ≤ 57 then some (b.toNat - 48)
  else if 65 ≤ b.toNat ∧ b.toNat ≤ 70 then some (b.toNat - 55)
  else if 97 ≤ b.toNat ∧ b.toNat ≤ 102 then some (b.toNat - 87)
  else none

/-- `percent_decode`: a `%` without two digits behind it stands for itself. -/
def percentDecode : List UInt8 → List UInt8
  | [] => []
  | b :: h :: l :: rest =>
    if b = 37 then
      match hexValue h, hexValue l with
      | some hi, some lo => UInt8.ofNat (hi * 16 + lo) :: percentDecode rest
      | _, _ => b :: percentDecode (h :: l :: rest)
    else b :: percentDecode (h :: l :: rest)
  | b :: rest => b :: percentDecode rest

/-- `percent_decode(…).decode_utf8_lossy()`. -/
def percentDecodeLossy (bs : List UInt8) : String :=
  String.ofList (decodeUtf8Lossy (percentDecode bs))

/-- The characters that `encodeURIComponent` leaves alone. -/
def uriUnescaped (c : Char) : Bool :=
  c.isAlphanum || ['-', '_', '.', '!', '~', '*', '\'', '(', ')'].contains c

/-- A digit of a byte, in upper case. -/
def hexDigit (n : Nat) : Char := Char.ofNat (if n < 10 then 48 + n else 55 + n)

/-- A byte as `%` and two digits. -/
def percentByte (b : UInt8) : List Char := ['%', hexDigit (b.toNat / 16), hexDigit (b.toNat % 16)]

def encodeUriChar (c : Char) : List Char :=
  if uriUnescaped c then [c] else (String.utf8EncodeChar c).flatMap percentByte

/-- `encodeURIComponent`. -/
def encodeURIComponent (s : String) : String := String.ofList (s.toList.flatMap encodeUriChar)

theorem hexDigit_spec {n : Nat} (h : n < 16) : (hexDigit n).toNat < 128 ∧
    hexValue (UInt8.ofNat (hexDigit n).toNat) = some n ∧ hexDigit n ∉ ['/', '?', '#'] := by
  interval_cases n <;> decide

theorem uriUnescaped_spec {c : Char} (h : uriUnescaped c = true) :
    c.toNat < 128 ∧ c ≠ '%' ∧ c ∉ ['/', '?', '#'] := by
  refine ⟨?_, ?_, ?_⟩
  · rcases (Bool.or_eq_true _ _).mp h with hletter | hmark
    · exact toNat_lt_of_isAlphanum hletter
    · simp only [contains_iff_mem, mem_cons, not_mem_nil, or_false] at hmark
      rcases hmark with rfl | rfl | rfl | rfl | rfl | rfl | rfl | rfl | rfl <;> decide
  · rintro rfl
    exact absurd h (by decide)
  · intro hmem
    simp only [mem_cons, not_mem_nil, or_false] at hmem
    rcases hmem with rfl | rfl | rfl <;> exact absurd h (by decide)

theorem percentDecode_cons {b : UInt8} (h : b ≠ 37) (rest : List UInt8) :
    percentDecode (b :: rest) = b :: percentDecode rest := by
  match rest with
  | [] => rfl
  | [_] => rfl
  | _ :: _ :: _ => rw [percentDecode, if_neg h]

theorem percentDecode_of_not_mem {bs : List UInt8} (h : 37 ∉ bs) : percentDecode bs = bs := by
  induction bs with
  | nil => rfl
  | cons b bs ih =>
    rw [mem_cons, not_or] at h
    rw [percentDecode_cons (Ne.symm h.1), ih h.2]

theorem percentDecode_percentByte (b : UInt8) (rest : List UInt8) :
    percentDecode ((percentByte b).flatMap String.utf8EncodeChar ++ rest) =
      b :: percentDecode rest := by
  have hlt := b.toNat_lt
  obtain ⟨hhigh, hhi, -⟩ := hexDigit_spec (show b.toNat / 16 < 16 by omega)
  obtain ⟨hlow, hlo, -⟩ := hexDigit_spec (show b.toNat % 16 < 16 by omega)
  have hbyte : b.toNat / 16 * 16 + b.toNat % 16 = b.toNat := by omega
  have hpercent : String.utf8EncodeChar '%' = [37] := by decide
  simp only [percentByte, flatMap_cons, flatMap_nil, utf8EncodeChar_ascii hhigh,
    utf8EncodeChar_ascii hlow, hpercent, cons_append, nil_append]
  rw [percentDecode, if_pos rfl, hhi, hlo]
  simp [hbyte]

theorem percentDecode_encodeUriChar (c : Char) (rest : List UInt8) :
    percentDecode ((encodeUriChar c).flatMap String.utf8EncodeChar ++ rest) =
      String.utf8EncodeChar c ++ percentDecode rest := by
  rw [encodeUriChar]
  split_ifs with h
  · obtain ⟨hascii, hne, -⟩ := uriUnescaped_spec h
    have hbyte : ofNat c.toNat ≠ 37 := by
      intro heq
      have hnat := congrArg toNat heq
      rw [toNat_ofNat_byte (by omega)] at hnat
      exact hne (Char.ext (UInt32.toNat_inj.mp hnat))
    rw [flatMap_singleton, utf8EncodeChar_ascii hascii, singleton_append,
      percentDecode_cons hbyte, singleton_append]
  · induction String.utf8EncodeChar c with
    | nil => rfl
    | cons b bs ih =>
      rw [flatMap_cons, flatMap_append, append_assoc, percentDecode_percentByte, ih, cons_append]

/-- **What `encodeURIComponent` encodes is decoded to the same text.** -/
theorem percentDecodeLossy_encode (s : String) :
    percentDecodeLossy (bytes (encodeURIComponent s)) = s := by
  have hbytes : percentDecode (bytes (encodeURIComponent s)) = bytes s := by
    have hlist : ∀ cs : List Char,
        percentDecode ((cs.flatMap encodeUriChar).flatMap String.utf8EncodeChar) =
          cs.flatMap String.utf8EncodeChar := by
      intro cs
      induction cs with
      | nil => rfl
      | cons c cs ih =>
        rw [flatMap_cons, flatMap_append, percentDecode_encodeUriChar, ih, flatMap_cons]
    rw [bytes, encodeURIComponent, String.toList_ofList]
    exact hlist s.toList
  rw [percentDecodeLossy, hbytes, decodeUtf8Lossy_bytes, String.ofList_toList]

theorem not_mem_encodeURIComponent {s : String} {c : Char} (h : c ∈ ['/', '?', '#']) :
    c ∉ (encodeURIComponent s).toList := by
  rw [encodeURIComponent, String.toList_ofList, mem_flatMap]
  rintro ⟨d, -, hc⟩
  rw [encodeUriChar] at hc
  split_ifs at hc with hd
  · obtain rfl := mem_singleton.mp hc
    exact (uriUnescaped_spec hd).2.2 h
  · obtain ⟨b, -, hc⟩ := mem_flatMap.mp hc
    have hlt := b.toNat_lt
    simp only [percentByte, mem_cons, not_mem_nil, or_false] at hc
    rcases hc with rfl | rfl | rfl
    · exact absurd h (by decide)
    · exact (hexDigit_spec (show b.toNat / 16 < 16 by omega)).2.2 h
    · exact (hexDigit_spec (show b.toNat % 16 < 16 by omega)).2.2 h

end Rust
