import Tauri.Acl.Grammar
import Tauri.Rust.Words

/-!
# The segments of an identifier

`Identifier::try_from` is a machine that looks at one byte after the other. `WellFormed` says
which strings it is meant for: segments between separators, at most two of them unless the first
is `core`. What the machine accepts is stated segment by segment (`After`), which is compared with
the machine by induction on the bytes (`accepts_iff_after`).

**The machine counts separators and does not look at what is between them.** A separator behind a
separator is refused only as one separator too many, which it is not behind `core:`. So the strings
that are accepted are the well-formed ones and those with a hole behind `core:` (`CoreHole`), such
as `core::default` (`exists_tryFrom_iff`).
-/

namespace Tauri.Acl

open Rust List

/-- The parts of a string between its separators. -/
def segments (value : String) : List (List UInt8) := (bytes value).splitOn identifierSeparator

/-- A segment is not empty and made of letters and digits, and of hyphens that stand between two
of them. -/
def Segment (seg : List UInt8) : Prop := Jointed isAsciiAlphanumeric hyphen seg

/-- The strings that identifiers are meant to be. -/
structure WellFormed (value : String) : Prop where
  length : 1 ≤ (bytes value).length ∧ (bytes value).length ≤ 116
  plugin : startsWith "tauri-plugin-" value = false
  parts : ∀ seg ∈ segments value, Segment seg
  count : (segments value).length ≤ 2 ∨ (segments value).head? = some (bytes "core")

/-- A string that is well formed but for empty segments between `core` and the last one. -/
structure CoreHole (value : String) : Prop where
  length : (bytes value).length ≤ 116
  core : ∃ rest, segments value = bytes "core" :: rest ∧ [] ∈ rest ∧
    (∀ seg ∈ rest, seg = [] ∨ Segment seg) ∧ rest.getLast? ≠ some []

/-! ### One segment -/

/-- The rest of a segment, behind the byte `p`. -/
def Continues (p : UInt8) (bs : List UInt8) : Prop := Jointed.Rest isAsciiAlphanumeric hyphen p bs

instance (p : UInt8) (bs : List UInt8) : Decidable (Continues p bs) :=
  inferInstanceAs (Decidable (Jointed.Rest _ _ _ _))

theorem isAsciiAlphanumeric_hyphen : isAsciiAlphanumeric hyphen = false := by decide

variable {b : UInt8}

theorem segment_cons {bs : List UInt8} :
    Segment (b :: bs) ↔ isAsciiAlphanumeric b = true ∧ Continues b bs :=
  Jointed.cons_iff isAsciiAlphanumeric_hyphen

theorem Segment.ne_nil {seg : List UInt8} (h : Segment seg) : seg ≠ [] := Jointed.ne_nil h

instance : (seg : List UInt8) → Decidable (Segment seg)
  | [] => .isFalse fun h => h.ne_nil rfl
  | _ :: _ => decidable_of_iff _ segment_cons.symm

/-! ### The machine, segment by segment -/

namespace ValidByte

/-- The segment goes on with the byte `b`. -/
def Admits (b : UInt8) : ValidByte → Prop
  | .byte p => isAsciiAlphanumeric b = true ∨ (b = hyphen ∧ p ≠ hyphen)
  | .separator => isAsciiAlphanumeric b = true

/-- The bytes `seg` and then the end of the string. -/
def Ends (seg : List UInt8) : ValidByte → Prop
  | .byte p => Continues p seg
  | .separator => Segment seg

/-- The bytes `seg` and then a separator. -/
def Passes (seg : List UInt8) : ValidByte → Prop
  | .byte p => Continues p seg
  | .separator => seg = [] ∨ Segment seg

variable {prev : ValidByte} {b : UInt8}

theorem next_eq_byte_iff (hb : b ≠ identifierSeparator) :
    prev.next b = some (.byte b) ↔ prev.Admits b := by
  cases prev with
  | byte p =>
    by_cases hp : p = hyphen
    · simp [next, Admits, alphaNumeric, hb, hp]
    · simp [next, Admits, alphaNumericHyphen, hb, hp, or_iff_not_imp_left]
  | separator =>
    by_cases hhyphen : b = hyphen
    · simp [next, Admits, hhyphen, isAsciiAlphanumeric_hyphen]
    · simp [next, Admits, alphaNumeric, hb, hhyphen]

/-- A separator may follow anything but a hyphen, **even a separator**. -/
theorem next_separator_iff : prev.next identifierSeparator = some .separator ↔ prev.Passes [] := by
  cases prev with
  | byte p => simp [next, Passes, Continues, Jointed.Rest]
  | separator => simp [next, Passes, identifierSeparator, hyphen]

theorem ends_cons {seg : List UInt8} :
    prev.Ends (b :: seg) ↔ prev.Admits b ∧ (ValidByte.byte b).Ends seg := by
  cases prev with
  | byte p => exact Iff.rfl
  | separator => exact segment_cons

theorem passes_cons {seg : List UInt8} :
    prev.Passes (b :: seg) ↔ prev.Admits b ∧ (ValidByte.byte b).Passes seg := by
  cases prev with
  | byte p => exact Iff.rfl
  | separator => exact (or_iff_right (cons_ne_nil _ _)).trans segment_cons

end ValidByte

/-- The segments that may follow the byte `prev`; `seen` tells whether there was a separator. -/
def After (isCore : Bool) : ValidByte → Bool → List (List UInt8) → Prop
  | _, _, [] => False
  | prev, _, [seg] => prev.Ends seg
  | prev, seen, seg :: next :: rest =>
    prev.Passes seg ∧ (seen = false ∨ isCore = true) ∧ After isCore .separator true (next :: rest)

/-- The machine gets to the end of the bytes, and not to a hyphen or a separator there. -/
def Accepts (isCore : Bool) (prev : ValidByte) (idx : Nat) (separator : Option Nat)
    (bs : List UInt8) : Prop :=
  ∃ last separator', scan isCore prev idx separator bs = .ok (.byte last, separator') ∧
    last ≠ hyphen

section Scan

variable {isCore : Bool} {prev : ValidByte} {idx : Nat} {separator : Option Nat}
  {bs : List UInt8}

theorem accepts_nil : Accepts isCore prev idx separator [] ↔ prev.Ends [] := by
  cases prev with
  | byte p => simp [Accepts, scan, ValidByte.Ends, Continues, Jointed.Rest]
  | separator =>
    have hnot : ¬ Segment [] := fun h => h.ne_nil rfl
    simp [Accepts, scan, ValidByte.Ends, hnot]

open ValidByte

theorem accepts_separator : Accepts isCore prev idx separator (identifierSeparator :: bs) ↔
    prev.Passes [] ∧ (separator.isSome = false ∨ isCore = true) ∧
      Accepts isCore .separator (idx + 1) (some (idx + 1)) bs := by
  rw [← next_separator_iff, Accepts, scan]
  cases hnext : prev.next identifierSeparator with
  | none => simp
  | some v =>
    obtain ⟨-, ⟨-, rfl⟩ | ⟨hne, -⟩⟩ := next_eq_some hnext
    · have hcnt : (separator.isNone || isCore) = true ↔
          separator.isSome = false ∨ isCore = true := by
        cases separator <;> simp
      rw [← hcnt]
      cases hguard : separator.isNone || isCore with
      | true => simp [Accepts]
      | false => simp
    · exact absurd rfl hne

theorem accepts_byte {b : UInt8} (hb : b ≠ identifierSeparator) :
    Accepts isCore prev idx separator (b :: bs) ↔
      prev.Admits b ∧ Accepts isCore (.byte b) (idx + 1) separator bs := by
  rw [← next_eq_byte_iff hb, Accepts, scan]
  cases hnext : prev.next b with
  | none => simp
  | some v =>
    obtain ⟨-, ⟨hsep, -⟩ | ⟨-, rfl⟩⟩ := next_eq_some hnext
    · exact absurd hsep hb
    · simp [Accepts]

/-- **The machine reads segments.** -/
theorem accepts_iff_after : Accepts isCore prev idx separator bs ↔
    After isCore prev separator.isSome (bs.splitOn identifierSeparator) := by
  induction bs generalizing prev idx separator with
  | nil =>
    rw [splitOn_nil]
    exact accepts_nil
  | cons b bs ih =>
    obtain ⟨seg, rest, hsplit⟩ := exists_splitOn_eq_cons identifierSeparator bs
    by_cases hb : b = identifierSeparator
    · subst hb
      rw [splitOn_cons_self, hsplit, After, ← hsplit, accepts_separator, ih, Option.isSome_some]
    · rw [splitOn_cons_of_ne hb hsplit, accepts_byte hb, ih, hsplit]
      cases rest with
      | nil => exact ends_cons.symm
      | cons => rw [After, After, passes_cons, and_assoc]

end Scan

/-! ### The whole string -/

variable {rest : List (List UInt8)} {value : String}

theorem after_separator_plain :
    After false .separator true rest ↔ ∃ seg, rest = [seg] ∧ Segment seg := by
  match rest with
  | [] => simp [After]
  | [seg] => simp [After, ValidByte.Ends]
  | seg :: next :: rest => simp [After]

theorem after_separator_core : After true .separator true rest ↔
    rest ≠ [] ∧ (∀ seg ∈ rest, seg = [] ∨ Segment seg) ∧ rest.getLast? ≠ some [] := by
  induction rest with
  | nil => simp [After]
  | cons seg rest ih =>
    cases rest with
    | nil =>
      have hends : After true .separator true [seg] ↔ Segment seg := Iff.rfl
      rw [hends]
      constructor
      · intro h
        simpa [h] using h.ne_nil
      · grind
    | cons next rest =>
      have hstep : After true .separator true (seg :: next :: rest) ↔
          (seg = [] ∨ Segment seg) ∧ After true .separator true (next :: rest) := by
        simp [After, ValidByte.Passes]
      rw [hstep, ih, getLast?_cons_cons, forall_mem_cons (a := seg)]
      simp only [ne_eq, reduceCtorEq, not_false_eq_true, true_and, and_assoc]

theorem identifierByte_of_segments (h : ∀ seg ∈ segments value, seg = [] ∨ Segment seg)
    (hb : b ∈ bytes value) : IdentifierByte b := by
  by_cases hne : b = identifierSeparator
  · exact .inr (.inr hne)
  · obtain ⟨seg, hseg, hmem⟩ := exists_mem_splitOn hb hne
    rcases h seg hseg with rfl | hsegment
    · cases hmem
    · exact (Jointed.valid hsegment b hmem).imp_right .inl

theorem segments_of_core (h : startsWith "core:" value = true) :
    ∃ rest, rest ≠ [] ∧ segments value = bytes "core" :: rest := by
  obtain ⟨t, rfl⟩ := startsWith_iff.mp h
  have hbytes : bytes ("core:" ++ t) = bytes "core" ++ identifierSeparator :: bytes t := by
    rw [bytes_append]
    rfl
  refine ⟨(bytes t).splitOn identifierSeparator, splitOn_ne_nil _ _, ?_⟩
  rw [segments, hbytes, splitOn_append_cons_self_of_not_mem (by decide)]

theorem core_of_segments (hbytes : ∀ b ∈ bytes value, IdentifierByte b) (hrest : rest ≠ [])
    (h : segments value = bytes "core" :: rest) : startsWith "core:" value = true := by
  obtain ⟨seg, rest, rfl⟩ := exists_cons_of_ne_nil hrest
  have hjoin : bytes value = bytes "core" ++ identifierSeparator ::
      [identifierSeparator].intercalate (seg :: rest) := by
    have hsplit : [identifierSeparator].intercalate (segments value) = bytes value :=
      intercalate_splitOn identifierSeparator
    rw [← hsplit, h]
    simp [intercalate]
  refine startsWith_iff.mpr ⟨String.ofList
    (([identifierSeparator].intercalate (seg :: rest)).map fun b => Char.ofNat b.toNat), ?_⟩
  apply String.toList_injective
  rw [toList_eq_map_bytes fun b hb => (hbytes b hb).lt_128, hjoin, map_append, map_cons]
  simp only [String.toList_append, String.toList_ofList]
  rfl

theorem not_plugin_of_head {c : Char} (h : value.toList.head? = some c) (hc : c ≠ 't') :
    startsWith pluginPrefix value = false := by
  rw [Bool.eq_false_iff]
  intro hplug
  obtain ⟨t, rfl⟩ := startsWith_iff.mp hplug
  rw [String.toList_append] at h
  exact hc (Option.some.inj h).symm

theorem not_plugin_of_core (h : startsWith "core:" value = true) :
    startsWith pluginPrefix value = false := by
  obtain ⟨t, rfl⟩ := startsWith_iff.mp h
  exact not_plugin_of_head (c := 'c') (by rw [String.toList_append]; rfl) (by decide)

theorem exists_scanIdentifier_iff :
    (∃ separator, scanIdentifier value = .ok separator) ↔
      startsWith pluginPrefix value = false ∧ (bytes value).length ≤ maxLenIdentifier ∧
        ∃ seg rest, segments value = seg :: rest ∧ Segment seg ∧ (rest = [] ∨
          After (startsWith corePluginIdentifierPrefix value) .separator true rest) := by
  constructor
  · rintro ⟨separator, hscan⟩
    obtain ⟨hplug, -, hlen, b, bs, last, hbytes, hb, hlast, hok⟩ := scanIdentifier_eq_ok.mp hscan
    refine ⟨hplug, hlen, ?_⟩
    have haft := accepts_iff_after.mp ⟨last, separator, hok, hlast⟩
    obtain ⟨seg, rest, hsplit⟩ := exists_splitOn_eq_cons identifierSeparator bs
    refine ⟨b :: seg, rest, ?_, ?_⟩
    · rw [segments, hbytes]
      exact splitOn_cons_of_ne (by rintro rfl; cases hb) hsplit
    · rw [hsplit, Option.isSome_none] at haft
      cases rest with
      | nil => exact ⟨segment_cons.mpr ⟨hb, haft⟩, .inl rfl⟩
      | cons => exact ⟨segment_cons.mpr ⟨hb, haft.1⟩, .inr haft.2.2⟩
  · rintro ⟨hplug, hlen, seg, rest, hsegs, hseg, hrest⟩
    cases hbytes : bytes value with
    | nil =>
      rw [segments, hbytes, splitOn_nil] at hsegs
      exact absurd (cons.inj hsegs).1.symm hseg.ne_nil
    | cons b bs =>
      obtain ⟨first, rest', hsplit⟩ := exists_splitOn_eq_cons identifierSeparator bs
      have hemp : value.isEmpty = false := by
        by_contra hcon
        have hnil : value = "" := by simpa using hcon
        rw [hnil] at hbytes
        cases hbytes
      have hb : b ≠ identifierSeparator := by
        rintro rfl
        rw [segments, hbytes, splitOn_cons_self] at hsegs
        exact hseg.ne_nil (cons.inj hsegs).1.symm
      rw [segments, hbytes, splitOn_cons_of_ne hb hsplit] at hsegs
      obtain ⟨rfl, rfl⟩ := cons.inj hsegs
      obtain ⟨halnum, hcont⟩ := segment_cons.mp hseg
      have haft : After (startsWith corePluginIdentifierPrefix value) (.byte b) false
          (bs.splitOn identifierSeparator) := by
        rw [hsplit]
        cases rest' with
        | nil => exact hcont
        | cons => exact ⟨hcont, .inl rfl, hrest.resolve_left (cons_ne_nil _ _)⟩
      obtain ⟨last, separator, hok, hlast⟩ := (@accepts_iff_after _ _ 0 none _).mpr haft
      exact ⟨separator, scanIdentifier_eq_ok.mpr
        ⟨hplug, hemp, hlen, b, bs, last, hbytes, halnum, hlast, hok⟩⟩

theorem wellFormed_or_coreHole {separator : Option Nat} (h : scanIdentifier value = .ok separator) :
    WellFormed value ∨ CoreHole value := by
  obtain ⟨hplug, hlen, seg, rest, hsegs, hseg, hrest⟩ := exists_scanIdentifier_iff.mp ⟨separator, h⟩
  have hpos : 1 ≤ (bytes value).length := by
    by_contra hzero
    have hnil : bytes value = [] := length_eq_zero_iff.mp (by omega)
    rw [segments, hnil, splitOn_nil] at hsegs
    exact hseg.ne_nil (cons.inj hsegs).1.symm
  have hwell : (∀ seg ∈ rest, Segment seg) →
      (rest.length ≤ 1 ∨ seg = bytes "core") → WellFormed value := by
    intro hall hcnt
    refine ⟨⟨hpos, hlen⟩, hplug, ?_, ?_⟩
    · rw [hsegs]
      exact forall_mem_cons.mpr ⟨hseg, hall⟩
    · rw [hsegs, length_cons, head?_cons]
      exact hcnt.imp (by omega) (congrArg some)
  rcases hrest with rfl | hrest
  · exact .inl (hwell (by simp) (.inl (by simp)))
  · cases hcore : startsWith corePluginIdentifierPrefix value with
    | false =>
      rw [hcore] at hrest
      obtain ⟨last, rfl, hlast⟩ := after_separator_plain.mp hrest
      exact .inl (hwell (by simpa using hlast) (.inl (by simp)))
    | true =>
      rw [hcore] at hrest
      obtain ⟨-, hparts, hlast⟩ := after_separator_core.mp hrest
      obtain ⟨rest', -, hsegs'⟩ := segments_of_core hcore
      obtain ⟨rfl, rfl⟩ := cons.inj (hsegs.symm.trans hsegs')
      by_cases hhole : [] ∈ rest
      · exact .inr ⟨hlen, rest, hsegs, hhole, hparts, hlast⟩
      · grind

theorem WellFormed.exists_scan (h : WellFormed value) :
    ∃ separator, scanIdentifier value = .ok separator := by
  obtain ⟨seg, rest, hsegs⟩ : ∃ seg rest, segments value = seg :: rest :=
    exists_splitOn_eq_cons identifierSeparator (bytes value)
  have hparts := h.parts
  rw [hsegs] at hparts
  obtain ⟨hseg, hrest⟩ := forall_mem_cons.mp hparts
  refine exists_scanIdentifier_iff.mpr
    ⟨h.plugin, h.length.2, seg, rest, hsegs, hseg, or_iff_not_imp_left.mpr fun hne => ?_⟩
  cases hcore : startsWith corePluginIdentifierPrefix value with
  | true =>
    refine after_separator_core.mpr ⟨hne, fun part hpart => .inr (hrest part hpart), ?_⟩
    intro hlast
    exact (hrest [] (mem_of_getLast? hlast)).ne_nil rfl
  | false =>
    rcases h.count with hcnt | hhead
    · rw [hsegs, length_cons] at hcnt
      have hpos : 0 < rest.length := length_pos_iff.mpr hne
      obtain ⟨last, rfl⟩ := length_eq_one_iff.mp (by omega : rest.length = 1)
      exact after_separator_plain.mpr ⟨last, rfl, hrest last mem_cons_self⟩
    · -- with the first segment `core` and another one, the string starts with `core:`
      rw [hsegs] at hhead
      obtain rfl : seg = bytes "core" := Option.some.inj hhead
      have hbytes : ∀ b ∈ bytes value, IdentifierByte b := fun b hb =>
        identifierByte_of_segments (fun part hpart => .inr (h.parts part hpart)) hb
      exact absurd (core_of_segments hbytes hne hsegs) (by rw [Bool.not_eq_true]; exact hcore)

theorem segment_core : Segment (bytes "core") := by decide

theorem CoreHole.exists_scan (h : CoreHole value) :
    ∃ separator, scanIdentifier value = .ok separator := by
  obtain ⟨rest, hsegs, hnil, hparts, hlast⟩ := h.core
  have hne : rest ≠ [] := ne_nil_of_mem hnil
  have hbytes : ∀ b ∈ bytes value, IdentifierByte b := by
    intro b hb
    refine identifierByte_of_segments ?_ hb
    rw [hsegs]
    exact forall_mem_cons.mpr ⟨.inr segment_core, hparts⟩
  have hcore : startsWith corePluginIdentifierPrefix value = true :=
    core_of_segments hbytes hne hsegs
  refine exists_scanIdentifier_iff.mpr ⟨not_plugin_of_core hcore, h.length, bytes "core", rest,
    hsegs, segment_core, .inr ?_⟩
  rw [hcore]
  exact after_separator_core.mpr ⟨hne, hparts, hlast⟩

theorem CoreHole.not_wellFormed (h : CoreHole value) : ¬ WellFormed value := by
  intro hwell
  obtain ⟨rest, hsegs, hnil, -⟩ := h.core
  refine (hwell.parts [] ?_).ne_nil rfl
  rw [hsegs]
  exact mem_cons_of_mem _ hnil

/-- **What is accepted**: the well-formed strings, and those with a hole behind `core:`. -/
theorem exists_tryFrom_iff :
    (∃ id, Identifier.tryFrom value = .ok id) ↔ WellFormed value ∨ CoreHole value := by
  constructor
  · rintro ⟨id, hid⟩
    obtain rfl := Identifier.tryFrom_eq_ok.mp hid
    exact wellFormed_or_coreHole id.scanned
  · intro h
    obtain ⟨separator, hscan⟩ := h.elim WellFormed.exists_scan CoreHole.exists_scan
    exact ⟨⟨value, separator, hscan⟩, Identifier.tryFrom_eq_ok.mpr rfl⟩

/-! ### The contract of `Identifier::try_from` -/

/-- The parts of an identifier are those before and behind its last separator. -/
def Identifier.SplitsAtLast (id : Identifier) : Prop :=
  match id.getPrefix with
  | none => id.getBase = id.inner ∧ ':' ∉ id.inner.toList
  | some key => key ++ ":" ++ id.getBase = id.inner ∧ ':' ∉ id.getBase.toList

theorem Identifier.splitsAtLast (id : Identifier) : id.SplitsAtLast := by
  unfold SplitsAtLast
  cases hkey : id.getPrefix with
  | none =>
    have hsep : id.separator = none := Option.map_eq_none_iff.mp hkey
    refine ⟨?_, id.colon_not_mem hsep⟩
    rw [getBase, hsep]
  | some key =>
    obtain ⟨hinner, hbase⟩ := id.inner_eq_of_getPrefix hkey
    exact ⟨hinner.symm, hbase⟩

/-- What `try_from`, `get_prefix` and `get_base` are to do with a string. -/
structure IdentifierContract (value : String) : Prop where
  accepts : (∃ id, Identifier.tryFrom value = .ok id) ↔ WellFormed value
  splits : ∀ id, Identifier.tryFrom value = .ok id → id.inner = value ∧ id.SplitsAtLast

/-- **The grammar of identifiers.** A string is treated as it should be exactly when it has no hole
behind `core:`. -/
theorem identifierContract_iff (value : String) : IdentifierContract value ↔ ¬ CoreHole value := by
  constructor
  · intro h hhole
    exact hhole.not_wellFormed (h.accepts.mp (exists_tryFrom_iff.mpr (.inr hhole)))
  · intro hhole
    refine ⟨exists_tryFrom_iff.trans (or_iff_left hhole), fun id hid => ?_⟩
    exact ⟨Identifier.tryFrom_eq_ok.mp hid, id.splitsAtLast⟩

/-- `core::default` is accepted, with an empty segment, and its prefix is `core:`. -/
theorem tryFrom_core_hole : ∃ id, Identifier.tryFrom "core::default" = .ok id ∧
    id.getPrefix = some "core:" ∧ ¬ WellFormed "core::default" := by
  refine ⟨⟨"core::default", some 5, by decide⟩, Identifier.tryFrom_eq_ok.mpr rfl, by decide, ?_⟩
  intro hwell
  exact (hwell.parts [] (by decide)).ne_nil rfl

end Tauri.Acl
