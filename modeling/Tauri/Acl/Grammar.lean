import Tauri.Acl.Identifier

/-!
# The grammar of identifiers

What a successful scan says about the string. The bytes of an identifier are ASCII letters and
digits, hyphens and separators, so its characters are its bytes. **The scanner cuts at the last
separator**: an identifier with a prefix is `prefix:base` and the base holds no separator, which
determines both. The base is an identifier on its own, unless it starts with `tauri-plugin-`; that
is tested at the start of the whole string only.
-/

namespace Tauri.Acl

open Rust Option List

/-- The bytes that may occur in an identifier. -/
def IdentifierByte (b : UInt8) : Prop :=
  isAsciiAlphanumeric b = true ∨ b = hyphen ∨ b = identifierSeparator

variable {b : UInt8} {prev last : ValidByte} {isCore : Bool} {idx : Nat}
  {separator separator' : Option Nat} {bs : List UInt8}

theorem IdentifierByte.lt_128 (h : IdentifierByte b) : b < 128 := by
  rcases h with h | rfl | rfl
  · simp only [isAsciiAlphanumeric, Bool.or_eq_true, Bool.and_eq_true, decide_eq_true_eq,
      UInt8.le_iff_toNat_le] at h
    rw [UInt8.lt_iff_toNat_lt]
    have h57 : (57 : UInt8).toNat = 57 := rfl
    have h90 : (90 : UInt8).toNat = 90 := rfl
    have h122 : (122 : UInt8).toNat = 122 := rfl
    have h128 : (128 : UInt8).toNat = 128 := rfl
    omega
  · decide
  · decide

/-! ### The scanning loop -/

open ValidByte

theorem ValidByte.next_eq_some {v : ValidByte} (h : prev.next b = some v) :
    IdentifierByte b ∧ ((b = identifierSeparator ∧ v = .separator) ∨
      (b ≠ identifierSeparator ∧ v = .byte b)) := by
  have halnum : ∀ {w}, alphaNumeric b = some w → isAsciiAlphanumeric b = true ∧ w = .byte b := by
    intro w hw
    unfold alphaNumeric at hw
    split_ifs at hw with hb
    exact ⟨hb, (some.inj hw).symm⟩
  have hhyphen : ∀ {w}, alphaNumericHyphen b = some w →
      (isAsciiAlphanumeric b = true ∨ b = hyphen) ∧ w = .byte b := by
    intro w hw
    unfold alphaNumericHyphen at hw
    split_ifs at hw with hb
    exact ⟨by simpa using hb, (some.inj hw).symm⟩
  cases prev with
  | byte p =>
    simp only [next] at h
    split_ifs at h with h1 h2 h3
    · exact ⟨.inr (.inr h2), .inl ⟨h2, (some.inj h).symm⟩⟩
    · exact ⟨.inl (halnum h).1, .inr ⟨h2, (halnum h).2⟩⟩
    · exact ⟨(hhyphen h).1.imp_right .inl, .inr ⟨h2, (hhyphen h).2⟩⟩
  | separator =>
    simp only [next] at h
    split_ifs at h with h1 h2
    · exact ⟨.inr (.inr h2), .inl ⟨h2, (some.inj h).symm⟩⟩
    · exact ⟨.inl (halnum h).1, .inr ⟨h2, (halnum h).2⟩⟩

/-- One step of a scan that succeeds: the next byte is a separator, or it is not and the
separator stays. -/
theorem scan_cons_eq_ok (h : scan isCore prev idx separator (b :: bs) = .ok (last, separator')) :
    IdentifierByte b ∧
      ((b = identifierSeparator ∧
          scan isCore .separator (idx + 1) (some (idx + 1)) bs = .ok (last, separator')) ∨
        (b ≠ identifierSeparator ∧ prev.next b = some (.byte b) ∧
          scan isCore (.byte b) (idx + 1) separator bs = .ok (last, separator'))) := by
  rw [scan] at h
  cases hnext : prev.next b with
  | none => simp [hnext] at h
  | some v =>
    obtain ⟨hb, ⟨hsep, rfl⟩ | ⟨hsep, rfl⟩⟩ := next_eq_some hnext
    · grind
    · simp only [hnext] at h
      exact ⟨hb, .inr ⟨hsep, rfl, h⟩⟩

section

variable (h : scan isCore prev idx separator bs = .ok (last, separator'))
include h

theorem scan_bytes : ∀ b ∈ bs, IdentifierByte b := by
  induction bs generalizing prev idx separator with
  | nil => simp
  | cons b bs ih =>
    obtain ⟨hb, ⟨-, hrest⟩ | ⟨-, -, hrest⟩⟩ := scan_cons_eq_ok h <;>
      exact forall_mem_cons.mpr ⟨hb, ih hrest⟩

/-- **Where a scan finds the separator**: it keeps the one it had, or cuts at the last one. -/
theorem scan_separator :
    (identifierSeparator ∉ bs ∧ separator' = separator) ∨
      ∃ before after, bs = before ++ identifierSeparator :: after ∧
        identifierSeparator ∉ after ∧ separator' = some (idx + before.length + 1) ∧
        scan isCore .separator (idx + before.length + 1) separator' after =
          .ok (last, separator') := by
  induction bs generalizing prev idx separator with
  | nil =>
    cases h
    exact .inl ⟨not_mem_nil, rfl⟩
  | cons b bs ih =>
    obtain ⟨-, ⟨rfl, hrest⟩ | ⟨hb, -, hrest⟩⟩ := scan_cons_eq_ok h
    · rcases ih hrest with ⟨hnot, hsep⟩ | ⟨before, after, rfl, hnot, hsep, hscan⟩
      · rw [← hsep] at hrest
        exact .inr ⟨[], bs, rfl, hnot, hsep, hrest⟩
      · grind
    · grind

theorem scan_of_not_mem (hnot : identifierSeparator ∉ bs) (isCore' : Bool) (idx' : Nat)
    (separator'' : Option Nat) :
    scan isCore' prev idx' separator'' bs = .ok (last, separator'') := by
  induction bs generalizing prev idx idx' with
  | nil =>
    cases h
    rfl
  | cons b bs ih =>
    obtain ⟨-, ⟨hb, -⟩ | ⟨-, hnext, hrest⟩⟩ := scan_cons_eq_ok h
    · exact absurd (hb ▸ mem_cons_self) hnot
    · rw [scan, hnext]
      exact ih hrest (fun hmem => hnot (mem_cons_of_mem _ hmem)) _

end

/-! ### The whole string -/

theorem scanIdentifier_eq_ok {value : String} :
    scanIdentifier value = .ok separator ↔ startsWith pluginPrefix value = false ∧
      value.isEmpty = false ∧ (bytes value).length ≤ maxLenIdentifier ∧
      ∃ b bs last, bytes value = b :: bs ∧ isAsciiAlphanumeric b = true ∧ last ≠ hyphen ∧
        scan (startsWith corePluginIdentifierPrefix value) (.byte b) 0 none bs =
          .ok (.byte last, separator) := by
  constructor
  · intro h
    unfold scanIdentifier at h
    split_ifs at h with hplug hemp hlen
    split at h
    · cases h
    · rename_i b bs hbytes
      have hplug : startsWith pluginPrefix value = false := by simpa using hplug
      have hemp : value.isEmpty = false := by simpa using hemp
      refine ⟨hplug, hemp, by omega, b, bs, ?_⟩
      cases hb : isAsciiAlphanumeric b with
      | false => simp [alphaNumeric, hb] at h
      | true =>
        simp only [alphaNumeric, hb, if_true] at h
        split at h
        · cases h
        · cases h
        · grind
  · rintro ⟨hplug, hemp, hlen, b, bs, last, hbytes, hb, hlast, hscan⟩
    have hlen' : ¬ (b :: bs).length > maxLenIdentifier := by
      rw [← hbytes]
      omega
    simp only [scanIdentifier, hplug, hemp, hbytes, hlen', alphaNumeric, hb, hscan,
      hlast, Bool.false_eq_true, if_false, if_true]

/-- Whether a string with these characters is an identifier. A string literal unfolds to its
characters, so this evaluates where decoding the literal is expensive. -/
def scansChars (cs : List Char) : Bool :=
  match cs.flatMap String.utf8EncodeChar with
  | [] => false
  | b :: bs =>
    (pluginPrefix.toList.isPrefixOf? cs).isNone && decide (bs.length < maxLenIdentifier) &&
      isAsciiAlphanumeric b &&
      match scan (corePluginIdentifierPrefix.toList.isPrefixOf? cs).isSome (.byte b) 0 none bs with
      | .ok (.byte last, _) => last != hyphen
      | _ => false

theorem exists_scanIdentifier_ofList {cs : List Char} (h : scansChars cs = true) :
    ∃ separator, scanIdentifier (String.ofList cs) = .ok separator := by
  unfold scansChars at h
  split at h
  · cases h
  · rename_i b bs hbytes
    have hcs : cs ≠ [] := by
      rintro rfl
      cases hbytes
    have hbytes' : bytes (String.ofList cs) = b :: bs := by rw [bytes, String.toList_ofList, hbytes]
    have hstarts : ∀ p : String, startsWith p (String.ofList cs) =
        (p.toList.isPrefixOf? cs).isSome := by
      intro p
      rw [startsWith, stripPrefix, String.toList_ofList, Option.isSome_map]
    simp only [Bool.and_eq_true, decide_eq_true_eq, Option.isNone_iff_eq_none] at h
    obtain ⟨⟨⟨hplug, hlen⟩, hfirst⟩, hscan⟩ := h
    split at hscan
    · rename_i last separator hok
      refine ⟨separator,
        scanIdentifier_eq_ok.mpr ⟨?_, ?_, ?_, b, bs, last, hbytes', hfirst, ?_, ?_⟩⟩
      · rw [hstarts, hplug, isSome_none]
      · simpa using hcs
      · rw [hbytes', length_cons]
        omega
      · simpa using hscan
      · rw [hstarts, hok]
    · cases hscan

namespace Identifier

variable (id : Identifier)

theorem scan_inner : ∃ b bs last, bytes id.inner = b :: bs ∧
    isAsciiAlphanumeric b = true ∧ last ≠ hyphen ∧
    scan (startsWith corePluginIdentifierPrefix id.inner) (.byte b) 0 none bs =
      .ok (.byte last, id.separator) := by
  obtain ⟨-, -, -, h⟩ := scanIdentifier_eq_ok.mp id.scanned
  exact h

/-- **The bytes of an identifier** are letters, digits, hyphens and separators. -/
theorem identifierByte_of_mem {b : UInt8} (hb : b ∈ bytes id.inner) : IdentifierByte b := by
  obtain ⟨first, bs, last, hbytes, hfirst, -, hscan⟩ := id.scan_inner
  rw [hbytes, mem_cons] at hb
  rcases hb with rfl | hb
  · exact .inl hfirst
  · exact scan_bytes hscan b hb

theorem toList_inner : id.inner.toList = (bytes id.inner).map fun b => Char.ofNat b.toNat :=
  toList_eq_map_bytes fun _ hb => (id.identifierByte_of_mem hb).lt_128

/-- The bytes of an identifier with a prefix: those of the prefix, the separator and those of the
base, which is scanned as an identifier of its own. -/
theorem bytes_of_separator {i : Nat} (hi : id.separator = some i) :
    ∃ before first after last, bytes id.inner = before ++ identifierSeparator :: first :: after ∧
      before.length = i ∧ identifierSeparator ∉ first :: after ∧
      isAsciiAlphanumeric first = true ∧ last ≠ hyphen ∧
      ∀ isCore, scan isCore (.byte first) 0 none after = .ok (.byte last, none) := by
  obtain ⟨b, bs, last, hbytes, -, hlast, hscan⟩ := id.scan_inner
  rw [hi] at hscan
  rcases scan_separator hscan with ⟨-, hsep⟩ | ⟨before, after, rfl, hnot, hsep, haft⟩
  · cases hsep
  · cases after with
    | nil => cases haft
    | cons first after =>
      obtain ⟨-, ⟨hfirst, -⟩ | ⟨hne, hnext, hrest⟩⟩ := scan_cons_eq_ok haft
      · exact absurd (hfirst ▸ mem_cons_self) hnot
      · have halnum : isAsciiAlphanumeric first = true := by
          simp only [ValidByte.next] at hnext
          split_ifs at hnext with h1
          unfold ValidByte.alphaNumeric at hnext
          split_ifs at hnext with h2
          exact h2
        refine ⟨b :: before, first, after, last, by rw [hbytes, cons_append], ?_, hnot,
          halnum, hlast, fun isCore => ?_⟩
        · simp_all
        · exact scan_of_not_mem hrest (fun h => hnot (mem_cons_of_mem _ h)) isCore 0 none

theorem char_of_mem {c : Char} (hc : c ∈ id.inner.toList) :
    ∃ b, IdentifierByte b ∧ c = Char.ofNat b.toNat := by
  rw [id.toList_inner, List.mem_map] at hc
  obtain ⟨b, hb, rfl⟩ := hc
  exact ⟨b, id.identifierByte_of_mem hb, rfl⟩

private theorem colon_not_mem_map {bs : List UInt8} (hbs : ∀ b ∈ bs, b < 128)
    (h : identifierSeparator ∉ bs) : ':' ∉ bs.map fun b => Char.ofNat b.toNat := by
  rw [List.mem_map]
  rintro ⟨b, hb, heq⟩
  have hcolon : Char.ofNat b.toNat = Char.ofNat identifierSeparator.toNat := heq
  rw [ofNat_injective_of_ascii (hbs b hb) (by decide) hcolon] at hb
  exact h hb

theorem colon_not_mem (h : id.separator = none) : ':' ∉ id.inner.toList := by
  obtain ⟨b, bs, last, hbytes, hb, -, hscan⟩ := id.scan_inner
  rw [id.toList_inner]
  refine colon_not_mem_map (fun b hb => (id.identifierByte_of_mem hb).lt_128) ?_
  rw [h] at hscan
  rcases scan_separator hscan with ⟨hnot, -⟩ | ⟨before, after, -, -, hsep, -⟩
  · rw [hbytes, mem_cons, not_or]
    refine ⟨fun hsep => ?_, hnot⟩
    rw [← hsep] at hb
    exact absurd hb (by decide)
  · cases hsep

theorem parts_of_bytes {before after : List UInt8} (hi : id.separator = some before.length)
    (hbytes : bytes id.inner = before ++ identifierSeparator :: after) :
    id.getPrefix = some (String.ofList (before.map fun b => Char.ofNat b.toNat)) ∧
      id.getBase = String.ofList (after.map fun b => Char.ofNat b.toNat) := by
  constructor
  · rw [getPrefix, hi, Option.map_some, id.toList_inner, hbytes, ← map_take, take_left]
  · rw [getBase, hi]
    dsimp only
    rw [id.toList_inner, hbytes, ← map_drop, ← drop_drop, drop_left]
    rfl

theorem lt_128_of_mem_after {before after : List UInt8}
    (hbytes : bytes id.inner = before ++ identifierSeparator :: after) : ∀ b ∈ after, b < 128 := by
  intro b hb
  refine (id.identifierByte_of_mem ?_).lt_128
  rw [hbytes]
  exact mem_append_right _ (mem_cons_of_mem _ hb)

/-- **An identifier with a prefix is `prefix:base`**, cut at its last separator. -/
theorem inner_eq_of_getPrefix {k : String} (h : id.getPrefix = some k) :
    id.inner = k ++ ":" ++ id.getBase ∧ ':' ∉ id.getBase.toList := by
  obtain ⟨i, hi, -⟩ := map_eq_some_iff.mp h
  obtain ⟨before, first, after, last, hbytes, rfl, hnot, -⟩ := id.bytes_of_separator hi
  obtain ⟨hkey, hbase⟩ := id.parts_of_bytes hi hbytes
  obtain rfl := some.inj (h.symm.trans hkey)
  refine ⟨String.toList_injective ?_, ?_⟩
  · rw [hbase, id.toList_inner, hbytes]
    simp [String.toList_append, identifierSeparator]
  · rw [hbase, String.toList_ofList]
    exact colon_not_mem_map (id.lt_128_of_mem_after hbytes) hnot

/-- **The base is an identifier on its own**, unless it starts with `tauri-plugin-`. -/
theorem exists_base {k : String} (h : id.getPrefix = some k)
    (hplug : startsWith pluginPrefix id.getBase = false) :
    ∃ base : Identifier, base.inner = id.getBase ∧ base.separator = none := by
  obtain ⟨i, hi, -⟩ := Option.map_eq_some_iff.mp h
  obtain ⟨before, first, after, last, hbytes, rfl, hnot, hfirst, hlast, hscan⟩ :=
    id.bytes_of_separator hi
  obtain ⟨-, -, hmax, -⟩ := scanIdentifier_eq_ok.mp id.scanned
  have hbase : bytes id.getBase = first :: after := by
    rw [(id.parts_of_bytes hi hbytes).2, bytes_ofList_map (id.lt_128_of_mem_after hbytes)]
  have hemp : id.getBase.isEmpty = false := by
    by_contra hcon
    have hnil : id.getBase = "" := by simpa using hcon
    rw [hnil] at hbase
    cases hbase
  have hmax' : (bytes id.getBase).length ≤ maxLenIdentifier := by grind
  exact ⟨⟨id.getBase, none, scanIdentifier_eq_ok.mpr
    ⟨hplug, hemp, hmax', first, after, last, hbase, hfirst, hlast, hscan _⟩⟩, rfl, rfl⟩

end Identifier

end Tauri.Acl
