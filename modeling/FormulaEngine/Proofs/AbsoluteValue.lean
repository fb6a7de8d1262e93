import FormulaEngine.Decimal.Notation
import Mathlib

/-!
Absolute values of doubles. The absolute value of a finite double is the double itself
without its sign bit, so it is written with the same digits.
-/
namespace FormulaEngine.Binary64

open Float.Model (Format UnpackedFloat)
open Float.Model.UnpackedFloat (packComponents unpackExponent unpackMantissa)

section Bits

variable (b : BitVec Format.binary64.numBits)

theorem toNat_unpackExponent : (unpackExponent b).toNat = b.toNat / 2 ^ 52 % 2 ^ 11 := by
  simp [unpackExponent, BitVec.extractLsb_toNat, Nat.shiftRight_eq_div_pow]

theorem toNat_unpackMantissa : (unpackMantissa b).toNat = b.toNat % 2 ^ 52 := by
  simp [unpackMantissa, BitVec.extractLsb_toNat]

theorem toNat_packComponents (e : BitVec 11) (m : BitVec 52) :
    (packComponents Format.binary64 .positive e m).toNat = e.toNat * 2 ^ 52 + m.toNat := by
  have hm : m.toNat < 2 ^ 52 := m.isLt
  have hsign : (0#1 ++ e).toNat = e.toNat := by
    rw [BitVec.toNat_append]
    simp
  have happend : ((0#1 ++ e) ++ m).toNat = 2 ^ 52 * e.toNat + m.toNat := by
    rw [BitVec.toNat_append, hsign, Nat.shiftLeft_eq, Nat.mul_comm,
      ← Nat.two_pow_add_eq_or_of_lt hm]
  rw [Nat.mul_comm]
  exact happend

/-- Without its sign a double is unpacked as the absolute value. -/
theorem unpack_packComponents :
    UnpackedFloat.unpack Format.binary64
        (packComponents Format.binary64 .positive (unpackExponent b) (unpackMantissa b)) =
      (UnpackedFloat.unpack Format.binary64 b).abs := by
  simp only [UnpackedFloat.unpack, UnpackedFloat.unpackMantissa_packComponents,
    UnpackedFloat.unpackExponent_packComponents, UnpackedFloat.unpackSign_packComponents,
    UnpackedFloat.Sign.ofBitVec_toBitVec]
  by_cases hmax : unpackExponent b = -1#_
  · rw [if_pos hmax, if_pos hmax]
    split <;> rfl
  rw [if_neg hmax, if_neg hmax]
  by_cases hzero : unpackExponent b = 0#_
  · rw [if_pos hzero, if_pos hzero]
    split <;> rfl
  rw [if_neg hzero, if_neg hzero]
  rfl

theorem pack_abs (h : unpackExponent b ≠ -1#_) :
    UnpackedFloat.pack Format.binary64 (UnpackedFloat.unpack Format.binary64 b).abs =
      packComponents Format.binary64 .positive (unpackExponent b) (unpackMantissa b) := by
  rw [← unpack_packComponents, UnpackedFloat.pack_unpack _ (by decide), if_neg]
  rw [UnpackedFloat.isNaNBits, UnpackedFloat.unpackExponent_packComponents]
  intro hnan
  exact h (of_decide_eq_true hnan).1

end Bits

/-- The bits of a double, at the width its format computes. -/
def bits (x : Float) : BitVec Format.binary64.numBits := x.toBits.toBitVec

variable {x : Float}

theorem toNat_exponent : (unpackExponent (bits x)).toNat = exponentField x :=
  toNat_unpackExponent (bits x)

theorem toNat_fraction : (unpackMantissa (bits x)).toNat = fractionField x :=
  toNat_unpackMantissa (bits x)

/-- The largest exponent field marks the numbers that are not finite. -/
theorem finite_iff : (x.isNaN = false ∧ x.isInf = false) ↔ exponentField x ≠ 2047 := by
  have hfield : unpackExponent (bits x) = -1#11 ↔ exponentField x = 2047 := by
    rw [← toNat_exponent]
    exact ⟨fun h => by rw [h]; rfl, fun h => BitVec.eq_of_toNat_eq (by rw [h]; rfl)⟩
  have hnan : x.isNaN = (UnpackedFloat.unpack Format.binary64 (bits x)).isNaN := rfl
  have hinf : x.isInf = (UnpackedFloat.unpack Format.binary64 (bits x)).isInf := rfl
  rw [hnan, hinf, ne_eq, ← hfield, UnpackedFloat.unpack]
  by_cases h : unpackExponent (bits x) = -1#11
  · by_cases hm : unpackMantissa (bits x) = 0#52
    · simp [h, hm, UnpackedFloat.isInf]
    · simp [h, hm, UnpackedFloat.isNaN]
  · by_cases he : unpackExponent (bits x) = 0#11
    · by_cases hm : unpackMantissa (bits x) = 0#52
      · simp [he, hm, UnpackedFloat.isNaN, UnpackedFloat.isInf]
      · simp [he, hm, UnpackedFloat.isNaN, UnpackedFloat.isInf]
    · rw [if_neg h, if_neg he]
      simp only [UnpackedFloat.isNaN, UnpackedFloat.isInf, and_self, true_iff]
      exact h

theorem exponentField_lt : exponentField x < 2 ^ 11 := Nat.mod_lt _ (by decide)

theorem fractionField_lt : fractionField x < 2 ^ 52 := Nat.mod_lt _ (by decide)

section Finite

variable (hnan : x.isNaN = false) (hinf : x.isInf = false)

include hnan hinf

theorem toBits_abs : x.abs.toBits.toNat = exponentField x * 2 ^ 52 + fractionField x := by
  have hfield : unpackExponent (bits x) ≠ -1#11 := by
    intro h
    have hmax : exponentField x = 2047 := by
      rw [← toNat_exponent, h]
      rfl
    exact finite_iff.mp ⟨hnan, hinf⟩ hmax
  rw [← toNat_exponent, ← toNat_fraction, ← toNat_packComponents, ← pack_abs _ hfield]
  rfl

theorem exponentField_abs : exponentField x.abs = exponentField x := by
  have he := @exponentField_lt x
  have hf := @fractionField_lt x
  rw [exponentField, toBits_abs hnan hinf]
  omega

theorem fractionField_abs : fractionField x.abs = fractionField x := by
  have hf := @fractionField_lt x
  rw [fractionField, toBits_abs hnan hinf]
  omega

theorem magnitude_abs : magnitude x.abs = magnitude x := by
  rw [magnitude, exponentField_abs hnan hinf, fractionField_abs hnan hinf, magnitude]

theorem finite_abs : x.abs.isNaN = false ∧ x.abs.isInf = false := by
  rw [finite_iff, exponentField_abs hnan hinf]
  exact finite_iff.mp ⟨hnan, hinf⟩

theorem isNegative_abs : isNegative x.abs = false := by
  have he := @exponentField_lt x
  have hf := @fractionField_lt x
  simp only [isNegative, toBits_abs hnan hinf, decide_eq_false_iff_not]
  omega

theorem abs_eq_self (h : isNegative x = false) : x.abs = x := by
  have hlt : x.toBits.toNat < 2 ^ 63 := by simpa [isNegative] using h
  apply Float.toBits_inj.mp
  apply UInt64.toNat_inj.mp
  rw [toBits_abs hnan hinf, exponentField, fractionField]
  omega

/-- A finite double is written as its absolute value, after a minus if its sign bit is set. -/
theorem text_eq_text_abs (format : Decimal.Notation) :
    format.text x = if isNegative x then '-' :: format.text x.abs else format.text x.abs := by
  have habs : format.text x.abs = format.unsignedText x := by
    simp only [Decimal.Notation.text, Decimal.Notation.unsignedText, magnitude_abs hnan hinf,
      isNegative_abs hnan hinf, finite_abs hnan hinf, Bool.false_eq_true, if_false]
  rw [habs, Decimal.Notation.text]
  simp only [hnan, hinf, Bool.false_eq_true, if_false]

end Finite

end FormulaEngine.Binary64
