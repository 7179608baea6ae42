import Mathlib

/-!
# Binary floating-point numbers by their bits

A value of type `f64` is given by its 64 bits. What these bits mean, and which of them an integer
is converted to, is taken from the model of `Float` in Lean's library. The conversions from the
64-bit integer types are **total and finite**: the largest of these integers is far below the
largest finite number, and rounding to the nearest one does not get there.
-/

namespace Rust.F64

open Float.Model Float.Model.UnpackedFloat

/-- `f64::is_finite`. -/
def isFinite (bits : UInt64) : Bool := (UnpackedFloat.unpack .binary64 bits.toBitVec).isFinite

/-- `i as f64` for an integer `i`: the nearest number, and of two that are as near the even one. -/
def ofInt (i : Int) : UInt64 := (pack (UnpackedFloat.ofInt .binary64 i)).toBits

theorem isFinite_of_unpackExponent {bits : UInt64}
    (h : @unpackExponent .binary64 bits.toBitVec ≠ -1#11) : isFinite bits = true := by
  simp only [isFinite, UnpackedFloat.unpack]
  rw [if_neg h]
  split
  · split <;> rfl
  · rfl

/-- The numbers that are packed with an exponent that is not the one of infinity. -/
def Packs : UnpackedFloat → Prop
  | .zero _ => True
  | .finite _ _ e _ => e ≤ 971
  | _ => False

theorem isFinite_pack {x : UnpackedFloat} (hx : Packs x) : isFinite (pack x).toBits = true := by
  apply isFinite_of_unpackExponent
  change unpackExponent (UnpackedFloat.pack .binary64 x) ≠ -1#11
  cases x with
  | notANumber | infinity s => exact hx.elim
  | zero s =>
    simp only [UnpackedFloat.pack, packedZero, unpackExponent_packComponents]
    decide
  | finite s m e hm =>
    have he : e ≤ 971 := hx
    have hbias : ((Format.binary64.exponentBias : Nat) : Int) = 1023 := rfl
    simp only [UnpackedFloat.pack, hbias]
    rw [if_neg (by omega)]
    split
    · rw [unpackExponent_packComponents]
      intro heq
      have hval := congrArg BitVec.toNat heq
      rw [BitVec.toNat_ofNat] at hval
      rw [Nat.mod_eq_of_lt (by omega)] at hval
      change (e + 1023 + 52).toNat = 2 ^ 11 - 1 at hval
      omega
    · rw [unpackExponent_packComponents]
      decide

/-! ### The exponent of a rounded number -/

theorem log2_le_of_lt {m b : Nat} (h : m < 2 ^ b) : m.log2 ≤ b := by
  rcases Nat.eq_zero_or_pos m with rfl | hm
  · simp
  · exact ((Nat.log2_lt (by omega)).mpr h).le

theorem mantissa_shiftRight_le (em : ExtendedMantissa) (k : Nat) :
    (em >>> k).mantissa ≤ em.mantissa := by
  induction k generalizing em with
  | zero => exact le_rfl
  | succ k ih => exact (Nat.div_le_self _ 2).trans (ih em)

theorem roundedMantissa_le (em : ExtendedMantissa) : em.roundedMantissa ≤ em.mantissa + 1 := by
  obtain ⟨m, r, s⟩ := em
  have hmod := Nat.mod_lt m two_pos
  cases r <;> cases s <;>
    simp only [ExtendedMantissa.roundedMantissa, ExtendedMantissa.accuracy,
      Accuracy.roundToNearestEven] <;> omega

theorem shiftToTargetExponent_snd_le {m b : Nat} {e c : Int} {a : Accuracy} (hm : m < 2 ^ b)
    (he : e ≤ c) (hb : b + e ≤ c + 52) (hc : -1074 ≤ c) :
    (shiftToTargetExponent .binary64 m e a).2 ≤ c := by
  have hlog := log2_le_of_lt hm
  simp only [shiftToTargetExponent, shiftToExponent, Format.targetExponent, totalExponent,
    Format.mantissaBits, Format.minExponent]
  push_cast
  omega

theorem shiftToTargetExponent_fst_le (m : Nat) (e : Int) :
    (shiftToTargetExponent .binary64 m e .exact).1.mantissa ≤ m :=
  mantissa_shiftRight_le (ExtendedMantissa.mk m false false) _

theorem packs_roundWithAccuracy (s : Sign) {m : Nat} {e : Int} (hm : m < 2 ^ 128) (he : e ≤ 64) :
    Packs (roundWithAccuracy .binary64 s m e .exact) := by
  have hexponent : (shiftToTargetExponent .binary64 m e .exact).2 ≤ 140 :=
    shiftToTargetExponent_snd_le hm (by omega) (by omega) (by omega)
  have hrounded : (shiftToTargetExponent .binary64 m e .exact).1.roundedMantissa < 2 ^ 129 := by
    have hround := roundedMantissa_le (shiftToTargetExponent .binary64 m e .exact).1
    have hshift := shiftToTargetExponent_fst_le m e
    omega
  simp only [roundWithAccuracy]
  split_ifs
  · trivial
  · exact shiftToTargetExponent_snd_le hrounded (by omega) (by omega) (by omega)

theorem packs_round (s : Sign) {m : Nat} (hm : m ≤ 2 ^ 64) :
    Packs (UnpackedFloat.round .binary64 s m 0) := by
  simp only [UnpackedFloat.round, decreaseExponent]
  have hshift : (0 - Format.binary64.targetExponent (totalExponent m 0)).toNat ≤ 52 := by
    simp only [Format.targetExponent, totalExponent, Format.mantissaBits]
    push_cast
    omega
  apply packs_roundWithAccuracy
  · rw [Nat.shiftLeft_eq]
    calc m * 2 ^ _ ≤ 2 ^ 64 * 2 ^ 52 := Nat.mul_le_mul hm (Nat.pow_le_pow_right two_pos hshift)
      _ < 2 ^ 128 := by decide
  · omega

theorem isFinite_ofInt {i : Int} (hi : i.natAbs ≤ 2 ^ 64) : isFinite (ofInt i) = true := by
  apply isFinite_pack
  simp only [UnpackedFloat.ofInt, UnpackedFloat.normalize]
  split
  · exact packs_round _ (by omega)
  · trivial
  · exact packs_round _ (by omega)

end Rust.F64
