import FemAssembly.Binary64
import Mathlib

/-!
# Comparison of double-precision numbers

The comparison of two numbers, in terms of their bits.

* `Binary64.toBits_toFloat`: the machine has one NaN, and every other number keeps its bits.
* `Binary64.beq_iff`: which numbers are equal: neither is a NaN, and they are the same or both zero.
* `Binary64.beq_one_iff`: only the number one equals one.
-/

namespace FemAssembly

namespace Binary64

open Float.Model Float.Model.UnpackedFloat

variable {x y : Binary64}

theorem isNaNBits_iff (x : Binary64) :
    @isNaNBits Format.binary64 x.bits.toBitVec = true ↔ x.isNaN = true := by
  have hmask : 0x7fffffffffffffff = 2 ^ 63 - 1 := rfl
  have hexponent : (-1#11).toNat = 2047 := rfl
  simp only [isNaNBits, isNaN, decide_eq_true_eq, unpackExponent_def, unpackMantissa_def,
    UInt64.lt_iff_toNat_lt, UInt64.toNat_and, ne_eq, ← BitVec.toNat_inj,
    BitVec.extractLsb'_toNat, UInt64.toNat_toBitVec, UInt64.reduceToNat, Nat.shiftRight_eq_div_pow,
    hexponent, BitVec.toNat_zero]
  rw [hmask, Nat.and_two_pow_sub_one_eq_mod]
  omega

/-- The machine does not tell NaNs apart, and keeps the bits of every `x` that is none. -/
theorem toBits_toFloat (x : Binary64) :
    x.toFloat.toBits = if x.isNaN then 0x7ff8000000000000 else x.bits := by
  change UInt64.ofBitVec (pack Format.binary64 (unpack Format.binary64 x.bits.toBitVec)) = _
  rw [pack_unpack]
  simp only [isNaNBits_iff]
  split
  · decide
  · rfl

theorem toFloat_eq_nan_iff : x.toFloat = Float.nan ↔ x.isNaN = true := by
  have hnan : Float.nan.toBits = 0x7ff8000000000000 := by decide
  rw [← Float.toBits_inj, toBits_toFloat, hnan]
  by_cases h : x.isNaN = true
  · rw [if_pos h]
    simp only [h]
  · rw [if_neg h]
    refine ⟨fun hbits => ?_, fun h' => absurd h' h⟩
    rw [isNaN, hbits]
    decide

/-- Neither of two equal numbers `x` and `y` is a NaN, and the two have the same bits or are zeros.
-/
theorem beq_iff : (x == y) = true ↔ x.isNaN = false ∧ y.isNaN = false ∧
    (x.bits = y.bits ∨ x.bits = 0 ∧ y.bits = 0x8000000000000000 ∨
      x.bits = 0x8000000000000000 ∧ y.bits = 0) := by
  have hzero : (0 : Float).toBits = 0 := by decide
  have hnegZero : (-0 : Float).toBits = 0x8000000000000000 := by decide
  change (x.toFloat == y.toFloat) = true ↔ _
  rw [Float.beq_iff_ne_nan_and_eq, ne_eq, ne_eq, toFloat_eq_nan_iff, toFloat_eq_nan_iff,
    Bool.not_eq_true, Bool.not_eq_true]
  refine and_congr_right fun hx => and_congr_right fun hy => ?_
  simp only [← Float.toBits_inj, toBits_toFloat, hx, hy, hzero, hnegZero, Bool.false_eq_true,
    if_false]

/-- Only `1` equals `1`. -/
theorem beq_one_iff : (x == 1) = true ↔ x = 1 := by
  have hone : (1 : Binary64).bits = 0x3ff0000000000000 := rfl
  rw [beq_iff, hone]
  constructor
  · rintro ⟨-, -, h | ⟨-, h⟩ | ⟨-, h⟩⟩
    · obtain ⟨bits⟩ := x
      obtain rfl : bits = _ := h
      rfl
    · exact absurd h (by decide)
    · exact absurd h (by decide)
  · rintro rfl
    exact ⟨by decide, by decide, .inl rfl⟩

end Binary64

end FemAssembly
