import FormulaEngine.Arithmetic.Aggregate
import FormulaEngine.Proofs.AbsoluteValue
import Mathlib

/-!
The total order of doubles. Apart from NaN, doubles compare as their bits do, read as a sign and a
magnitude, with the two zeros at one place. The keys by which words are sorted refine this to an
order of all words in which every two of them differ: the two zeros, and any two NaNs by their signs
and payloads. So a list has one ascending rearrangement, and its median, which is found in that, is
the same in whatever order the list comes.
-/
namespace FormulaEngine.Binary64

open Float.Model (Format UnpackedFloat)
open Float.Model.UnpackedFloat (unpackExponent unpackMantissa unpackSign Sign)

/-- The bits of a double as a signed number: they count the doubles from zero on. -/
def signedBits (x : Float) : Int :=
  if isNegative x then -(x.toBits.toNat % 2 ^ 63 : Nat) else (x.toBits.toNat % 2 ^ 63 : Nat)

theorem signedBits_of_sign (x : Float) :
    if isNegative x then signedBits x ≤ 0 else 0 ≤ signedBits x := by
  rw [signedBits]
  split <;> omega

/-- Where a number stands among the doubles, counted from zero on. -/
def rank? : UnpackedFloat → Option Int
  | .notANumber => none
  | .zero _ => some 0
  | .infinity sign => some (sign.apply (2047 * 2 ^ 52))
  | .finite sign mantissa exponent _ =>
    some (sign.apply ((exponent + 1074) * 2 ^ 52 + mantissa))

/-- Whether an unpacked number has the mantissa and exponent that a double with its value has. -/
def IsCanonical : UnpackedFloat → Prop
  | .finite _ mantissa exponent _ =>
    mantissa < 2 ^ 53 ∧ -1074 ≤ exponent ∧ exponent ≤ 971 ∧ (2 ^ 52 ≤ mantissa ∨ exponent = -1074)
  | _ => True

/-- A larger exponent outweighs the mantissa. -/
private theorem compare_then_compare {m n : Nat} {e f : Int} (hm : m < 2 ^ 53) (hn : n < 2 ^ 53)
    (he : -1074 ≤ e) (hf : -1074 ≤ f) (hm' : 2 ^ 52 ≤ m ∨ e = -1074)
    (hn' : 2 ^ 52 ≤ n ∨ f = -1074) :
    (compare e f).then (compare m n) =
      compare ((e + 1074) * 2 ^ 52 + m) ((f + 1074) * 2 ^ 52 + n) := by
  rcases lt_trichotomy e f with h | rfl | h
  · have hsum : (e + 1074) * 2 ^ 52 + m < (f + 1074) * 2 ^ 52 + n := by omega
    rw [compare_lt_iff_lt.mpr h, compare_lt_iff_lt.mpr hsum]
    rfl
  · rcases lt_trichotomy m n with h | rfl | h
    · have hsum : (e + 1074) * 2 ^ 52 + m < (e + 1074) * 2 ^ 52 + n := by omega
      rw [compare_eq_iff_eq.mpr rfl, compare_lt_iff_lt.mpr h, compare_lt_iff_lt.mpr hsum]
      rfl
    · rw [compare_eq_iff_eq.mpr rfl, compare_eq_iff_eq.mpr rfl, compare_eq_iff_eq.mpr rfl]
      rfl
    · have hsum : (e + 1074) * 2 ^ 52 + n < (e + 1074) * 2 ^ 52 + m := by omega
      rw [compare_eq_iff_eq.mpr rfl, compare_gt_iff_gt.mpr h, compare_gt_iff_gt.mpr hsum]
      rfl
  · have hsum : (f + 1074) * 2 ^ 52 + n < (e + 1074) * 2 ^ 52 + m := by omega
    rw [compare_gt_iff_gt.mpr h, compare_gt_iff_gt.mpr hsum]
    rfl

private theorem swap_compare (p q : Int) : (compare p q).swap = compare (-p) (-q) := by
  rcases lt_trichotomy p q with h | rfl | h
  · rw [compare_lt_iff_lt.mpr h, compare_gt_iff_gt.mpr (by omega)]
    rfl
  · simp
  · rw [compare_gt_iff_gt.mpr h, compare_lt_iff_lt.mpr (by omega)]
    rfl

/-- Numbers that are written as doubles compare as their ranks do. -/
theorem compare_of_isCanonical {a b : UnpackedFloat} (ha : IsCanonical a) (hb : IsCanonical b)
    {p q : Int} (hp : rank? a = some p) (hq : rank? b = some q) :
    a.compare b = some (compare p q) := by
  have hless {p q : Int} (h : p < q) : some Ordering.lt = some (compare p q) :=
    congrArg some (compare_lt_iff_lt.mpr h).symm
  have hmore {p q : Int} (h : q < p) : some Ordering.gt = some (compare p q) :=
    congrArg some (compare_gt_iff_gt.mpr h).symm
  cases a with
  | notANumber => cases hp
  | zero s =>
    cases b with
    | notANumber => cases hq
    | zero t => cases hp; cases hq; rfl
    | infinity t => cases t <;> cases hp <;> cases hq <;> rfl
    | finite t n f hn =>
      obtain ⟨hn₁, hf, hf', hn₂⟩ := hb
      cases t <;> cases hp <;> cases hq
      · exact hmore (by simp only [Sign.apply]; omega)
      · exact hless (by simp only [Sign.apply]; omega)
  | infinity s =>
    cases b with
    | notANumber => cases hq
    | zero t => cases s <;> cases hp <;> cases hq <;> rfl
    | infinity t => cases s <;> cases t <;> cases hp <;> cases hq <;> rfl
    | finite t n f hn =>
      obtain ⟨hn₁, hf, hf', hn₂⟩ := hb
      cases s <;> cases hp <;> cases hq
      · exact hless (by cases t <;> simp only [Sign.apply] <;> omega)
      · exact hmore (by cases t <;> simp only [Sign.apply] <;> omega)
  | finite s m e hm =>
    obtain ⟨hm₁, he, he', hm₂⟩ := ha
    cases b with
    | notANumber => cases hq
    | zero t =>
      cases s <;> cases hp <;> cases hq
      · exact hless (by simp only [Sign.apply]; omega)
      · exact hmore (by simp only [Sign.apply]; omega)
    | infinity t =>
      cases t <;> cases hp <;> cases hq
      · exact hmore (by cases s <;> simp only [Sign.apply] <;> omega)
      · exact hless (by cases s <;> simp only [Sign.apply] <;> omega)
    | finite t n f hn =>
      obtain ⟨hn₁, hf, hf', hn₂⟩ := hb
      have hthen := compare_then_compare hm₁ hn₁ he hf hm₂ hn₂
      cases s <;> cases t <;> cases hp <;> cases hq
      · exact congrArg some ((congrArg Ordering.swap hthen).trans (swap_compare _ _))
      · exact hless (by simp only [Sign.apply]; omega)
      · exact hmore (by simp only [Sign.apply]; omega)
      · exact congrArg some hthen

variable {x y : Float}

theorem toNat_sign : (unpackSign (bits x)).toNat = x.toBits.toNat / 2 ^ 63 := by
  have hbits : (bits x).toNat < 2 ^ 64 := (bits x).isLt
  have hsign : (unpackSign (bits x)).toNat = (bits x).toNat / 2 ^ 63 % 2 := by
    simp [unpackSign, BitVec.extractLsb_toNat, Nat.shiftRight_eq_div_pow]
  rw [hsign, Nat.mod_eq_of_lt (by omega)]
  rfl

/-- The sign of a double, also of a zero. -/
def sign (x : Float) : Sign := if isNegative x then .negative else .positive

theorem ofBitVec_unpackSign : Sign.ofBitVec (unpackSign (bits x)) = sign x := by
  have hlt : x.toBits.toNat < 2 ^ 64 := x.toBits.toNat_lt
  have hzero : unpackSign (bits x) = 0#1 ↔ x.toBits.toNat < 2 ^ 63 := by
    rw [← BitVec.toNat_inj, toNat_sign]
    change _ = 0 ↔ _
    omega
  rw [Sign.ofBitVec, sign, isNegative]
  by_cases h : x.toBits.toNat < 2 ^ 63
  · simp [hzero, h]
  · simp [hzero, h, Nat.not_lt.mp h]

/-- What a double is, by its exponent and its fraction. -/
inductive IsUnpacked (x : Float) : UnpackedFloat → Prop
  | notANumber (h : x.toBits = 0x7ff8000000000000) : IsUnpacked x .notANumber
  | infinity (he : exponentField x = 2047) (hf : fractionField x = 0) :
      IsUnpacked x (.infinity (sign x))
  | zero (he : exponentField x = 0) (hf : fractionField x = 0) : IsUnpacked x (.zero (sign x))
  | subnormal (he : exponentField x = 0) (hf : 0 < fractionField x) :
      IsUnpacked x (.finite (sign x) (fractionField x) (-1074) hf)
  | normal (he : 0 < exponentField x) (he' : exponentField x < 2047)
      (hm : 0 < 2 ^ 52 + fractionField x) :
      IsUnpacked x (.finite (sign x) (2 ^ 52 + fractionField x) (exponentField x - 1075) hm)

theorem isUnpacked_unpack (x : Float) : IsUnpacked x x.toModel.unpack := by
  have hunpack : x.toModel.unpack = UnpackedFloat.unpack Format.binary64 (bits x) := rfl
  have hmax : unpackExponent (bits x) = -1#11 ↔ exponentField x = 2047 := by
    rw [← BitVec.toNat_inj, toNat_exponent]
    rfl
  have hmin : unpackExponent (bits x) = 0#11 ↔ exponentField x = 0 := by
    rw [← BitVec.toNat_inj, toNat_exponent]
    rfl
  have hnone : unpackMantissa (bits x) = 0#52 ↔ fractionField x = 0 := by
    rw [← BitVec.toNat_inj, toNat_fraction]
    rfl
  rw [hunpack]
  unfold UnpackedFloat.unpack
  simp only [ofBitVec_unpackSign]
  split
  · rename_i he
    split
    · rename_i hf
      exact .infinity (hmax.mp he) (hnone.mp hf)
    · rename_i hf
      have hvalid := x.toModel.valid.eq_packedNaN he hf
      exact .notANumber (UInt64.toBitVec_inj.mp hvalid)
  · rename_i hlast
    split
    · rename_i he
      split
      · rename_i hf
        exact .zero (hmin.mp he) (hnone.mp hf)
      · rename_i hf
        have hpos : 0 < fractionField x := Nat.pos_of_ne_zero fun h => hf (hnone.mpr h)
        have hread := IsUnpacked.subnormal (hmin.mp he) hpos
        convert hread using 2
        · exact toNat_fraction
        · rw [toNat_exponent, hmin.mp he]
          rfl
    · rename_i he
      have hpos : 0 < exponentField x := Nat.pos_of_ne_zero fun h => he (hmin.mpr h)
      have hlt : exponentField x < 2047 := by
        have hfield := @exponentField_lt x
        have hne : exponentField x ≠ 2047 := fun h => hlast (hmax.mpr h)
        omega
      have hread := IsUnpacked.normal hpos hlt (Nat.add_pos_left (by decide) _)
      convert hread using 2
      · rw [BitVec.toNat_append, Nat.shiftLeft_eq, toNat_fraction, Nat.mul_comm,
          ← Nat.two_pow_add_eq_or_of_lt fractionField_lt]
        rfl
      · rw [toNat_exponent]
        rfl

theorem isCanonical_unpack (x : Float) : IsCanonical x.toModel.unpack := by
  have hf := @fractionField_lt x
  have h := isUnpacked_unpack x
  generalize x.toModel.unpack = u at h
  cases h with
  | notANumber | infinity | zero => trivial
  | subnormal he hf' => exact ⟨by omega, by omega, by omega, .inr rfl⟩
  | normal he he' hm => exact ⟨by omega, by omega, by omega, .inl (by omega)⟩

theorem rank?_unpack (hnan : x.isNaN = false) : rank? x.toModel.unpack = some (signedBits x) := by
  have hbits : x.toBits.toNat % 2 ^ 63 = exponentField x * 2 ^ 52 + fractionField x := by
    rw [exponentField, fractionField]
    omega
  have hsigned : signedBits x = (sign x).apply (exponentField x * 2 ^ 52 + fractionField x) := by
    rw [signedBits, hbits, sign]
    by_cases h : isNegative x
    · simp [h, Sign.apply]
    · simp [h, Sign.apply]
  have hread := isUnpacked_unpack x
  have hnumber : x.toModel.unpack.isNaN = false := hnan
  rw [hsigned]
  generalize x.toModel.unpack = u at hread hnumber
  cases hread with
  | notANumber => cases hnumber
  | infinity he hf => rw [he, hf]; rfl
  | zero he hf =>
    rw [he, hf, rank?]
    cases sign x <;> rfl
  | subnormal he hf =>
    rw [he, rank?]
    exact congrArg (fun p => some ((sign x).apply p)) (by omega)
  | normal he he' hm =>
    exact congrArg (fun p => some ((sign x).apply p)) (by push_cast; omega)

/-- Doubles other than NaN compare as their bits do. -/
theorem compare_eq (hx : x.isNaN = false) (hy : y.isNaN = false) :
    x.toModel.compare y.toModel = some (compare (signedBits x) (signedBits y)) :=
  compare_of_isCanonical (isCanonical_unpack x) (isCanonical_unpack y) (rank?_unpack hx)
    (rank?_unpack hy)

theorem lt_iff (hx : x.isNaN = false) (hy : y.isNaN = false) :
    x < y ↔ signedBits x < signedBits y := by
  have h : x < y ↔ (x.toModel.compare y.toModel == some .lt) = true := decide_eq_true_iff
  rw [h, compare_eq hx hy, beq_iff_eq, Option.some_inj, compare_lt_iff_lt]

theorem beq_iff (hx : x.isNaN = false) (hy : y.isNaN = false) :
    (x == y) = true ↔ signedBits x = signedBits y := by
  have h : (x == y) = true ↔ (x.toModel.compare y.toModel == some .eq) = true := Iff.rfl
  rw [h, compare_eq hx hy, beq_iff_eq, Option.some_inj, compare_eq_iff_eq]

/-! ### Words -/

namespace Word

def hasSign (word : UInt64) : Bool := 2 ^ 63 ≤ word.toNat

/-- Whether a word stands for no number: its exponent is the greatest, its fraction is not zero. -/
def isNaN (word : UInt64) : Bool := 2047 * 2 ^ 52 < word.toNat % 2 ^ 63

/-- What a NaN carries. A signaling one lacks the first bit of it, which a quiet one has. -/
def payload (word : UInt64) : Nat := word.toNat % 2 ^ 52

variable {word : UInt64}

theorem valid_of_isNaN_eq_false (h : isNaN word = false) :
    Format.binary64.Valid word.toBitVec := by
  refine ⟨fun hexponent hmantissa => ?_⟩
  have he : word.toNat / 2 ^ 52 % 2 ^ 11 = 2047 := by
    have htoNat := toNat_unpackExponent (word.toBitVec : BitVec Format.binary64.numBits)
    rw [hexponent] at htoNat
    exact htoNat.symm
  have hm : word.toNat % 2 ^ 52 ≠ 0 := by
    intro hzero
    apply hmantissa
    rw [← BitVec.toNat_inj, toNat_unpackMantissa]
    exact hzero
  rw [isNaN, decide_eq_false_iff_not] at h
  omega

/-- A word that stands for a number is the word of that number. -/
theorem toBits_ofBits (h : isNaN word = false) : (Float.ofBits word).toBits = word := by
  let x : Float := .ofModel ⟨word, valid_of_isNaN_eq_false h⟩
  have hx : Float.ofBits word = x := Float.ofBits_toBits x
  rw [hx]
  rfl

theorem isNaN_ofBits (h : isNaN word = false) : (Float.ofBits word).isNaN = false := by
  have hbits := toBits_ofBits h
  have hread := isUnpacked_unpack (Float.ofBits word)
  generalize Float.ofBits word = x at hbits hread ⊢
  have hnan : x.isNaN = x.toModel.unpack.isNaN := rfl
  rw [hnan]
  generalize x.toModel.unpack = u at hread ⊢
  cases hread with
  | notANumber hx =>
    rw [← hbits, hx] at h
    cases h
  | _ => rfl

theorem isNegative_ofBits (h : isNaN word = false) :
    isNegative (Float.ofBits word) = hasSign word := by
  rw [isNegative, toBits_ofBits h, hasSign]

theorem signedBits_ofBits (h : isNaN word = false) :
    signedBits (Float.ofBits word) =
      if hasSign word then -((word.toNat % 2 ^ 63 : Nat) : Int)
      else ((word.toNat % 2 ^ 63 : Nat) : Int) := by
  rw [signedBits, isNegative_ofBits h, toBits_ofBits h]

end Word

open Word

/-- The total order of IEEE 754 on the words of doubles. Numbers come by value, a negative zero
before a positive one. Below them are the NaNs with a sign, above them those without, and among the
latter a greater payload comes later, among the former earlier. -/
inductive TotalOrder (v w : UInt64) : Prop
  | less (hv : isNaN v = false) (hw : isNaN w = false) (h : Float.ofBits v < Float.ofBits w)
  | equal (hv : isNaN v = false) (hw : isNaN w = false) (h : Float.ofBits v == Float.ofBits w)
      (hsign : hasSign w → hasSign v)
  | nanFirst (hv : isNaN v) (hsign : hasSign v) (hw : isNaN w = false)
  | nanLast (hv : isNaN v = false) (hw : isNaN w) (hsign : hasSign w = false)
  | nanSigns (hv : isNaN v) (hw : isNaN w) (hsign : hasSign v) (hsign' : hasSign w = false)
  | payloads (hv : isNaN v) (hw : isNaN w) (hsign : hasSign v = false) (hsign' : hasSign w = false)
      (h : payload v ≤ payload w)
  | signedPayloads (hv : isNaN v) (hw : isNaN w) (hsign : hasSign v) (hsign' : hasSign w)
      (h : payload w ≤ payload v)

end FormulaEngine.Binary64

namespace FormulaEngine.Arithmetic

open Binary64 Binary64.Word

/-- Every two different words have different keys. -/
theorem orderKey_injective : Function.Injective orderKey := by
  intro v w h
  have hv : v.toNat < 2 ^ 64 := v.toNat_lt
  have hw : w.toNat < 2 ^ 64 := w.toNat_lt
  apply UInt64.toNat_inj.mp
  simp only [orderKey] at h
  split at h <;> split at h <;> omega

/-- The key of a number from its signed bits: with the sign it lies one below them. -/
theorem orderKey_eq_signedBits {word : UInt64} (h : isNaN word = false) :
    orderKey word = if hasSign word then signedBits (Float.ofBits word) - 1
      else signedBits (Float.ofBits word) := by
  have hlt : word.toNat < 2 ^ 64 := word.toNat_lt
  rw [signedBits_ofBits h, orderKey, hasSign]
  by_cases hsign : 2 ^ 63 ≤ word.toNat
  · simp only [hsign, decide_true, if_true]
    omega
  · simp only [hsign, decide_false, Bool.false_eq_true, if_false]
    omega

theorem orderKey_le_iff_of_numbers {v w : UInt64} (hv : isNaN v = false) (hw : isNaN w = false) :
    orderKey v ≤ orderKey w ↔
      Float.ofBits v < Float.ofBits w ∨
        Float.ofBits v == Float.ofBits w ∧ (hasSign w → hasSign v) := by
  have hx := isNaN_ofBits hv
  have hy := isNaN_ofBits hw
  have hsv := signedBits_of_sign (Float.ofBits v)
  have hsw := signedBits_of_sign (Float.ofBits w)
  rw [isNegative_ofBits hv] at hsv
  rw [isNegative_ofBits hw] at hsw
  rw [lt_iff hx hy, beq_iff hx hy, orderKey_eq_signedBits hv, orderKey_eq_signedBits hw]
  -- Equal bits differ in their sign only at the two zeros.
  by_cases hnv : hasSign v = true <;> by_cases hnw : hasSign w = true <;>
    simp only [hnv, hnw, if_true, if_false, Bool.false_eq_true, imp_self, false_imp_iff,
      imp_false, not_true, and_true, and_false, or_false] at hsv hsw ⊢
  · omega
  · omega
  · omega
  · omega

/-- The keys of numbers, from the one infinity to the other. -/
theorem orderKey_of_number {word : UInt64} (h : isNaN word = false) :
    -(2047 * 2 ^ 52) - 1 ≤ orderKey word ∧ orderKey word ≤ 2047 * 2 ^ 52 := by
  have hlt : word.toNat < 2 ^ 64 := word.toNat_lt
  rw [isNaN, decide_eq_false_iff_not] at h
  rw [orderKey]
  split <;> omega

/-- A NaN lies beyond the infinity of its sign, as far as its payload says. -/
theorem orderKey_of_isNaN {word : UInt64} (h : isNaN word = true) :
    0 < payload word ∧
      orderKey word = if hasSign word then -(2047 * 2 ^ 52) - 1 - (payload word : Int)
        else 2047 * 2 ^ 52 + (payload word : Int) := by
  have hlt : word.toNat < 2 ^ 64 := word.toNat_lt
  rw [isNaN, decide_eq_true_eq] at h
  rw [orderKey, payload, hasSign]
  by_cases hsign : 2 ^ 63 ≤ word.toNat
  · simp only [hsign, decide_true, if_true]
    omega
  · simp only [hsign, decide_false, Bool.false_eq_true, if_false]
    omega

theorem orderKey_le_of_totalOrder {v w : UInt64} (h : TotalOrder v w) :
    orderKey v ≤ orderKey w := by
  cases h with
  | less hv hw h => exact (orderKey_le_iff_of_numbers hv hw).mpr (.inl h)
  | equal hv hw h hsign => exact (orderKey_le_iff_of_numbers hv hw).mpr (.inr ⟨h, hsign⟩)
  | nanFirst hv hsign hw =>
    obtain ⟨hpos, hkey⟩ := orderKey_of_isNaN hv
    have hleast := (orderKey_of_number hw).1
    rw [if_pos hsign] at hkey
    omega
  | nanLast hv hw hsign =>
    obtain ⟨hpos, hkey⟩ := orderKey_of_isNaN hw
    have hgreatest := (orderKey_of_number hv).2
    rw [hsign, if_neg Bool.false_ne_true] at hkey
    omega
  | nanSigns hv hw hsign hsign' =>
    have hkey := (orderKey_of_isNaN hv).2
    have hkey' := (orderKey_of_isNaN hw).2
    rw [if_pos hsign] at hkey
    rw [hsign', if_neg Bool.false_ne_true] at hkey'
    omega
  | payloads hv hw hsign hsign' h =>
    have hkey := (orderKey_of_isNaN hv).2
    have hkey' := (orderKey_of_isNaN hw).2
    rw [hsign, if_neg Bool.false_ne_true] at hkey
    rw [hsign', if_neg Bool.false_ne_true] at hkey'
    omega
  | signedPayloads hv hw hsign hsign' h =>
    have hkey := (orderKey_of_isNaN hv).2
    have hkey' := (orderKey_of_isNaN hw).2
    rw [if_pos hsign] at hkey
    rw [if_pos hsign'] at hkey'
    omega

theorem totalOrder_of_orderKey_le {v w : UInt64} (h : orderKey v ≤ orderKey w) :
    TotalOrder v w := by
  cases hv : isNaN v with
  | false =>
    cases hw : isNaN w with
    | false =>
      rcases (orderKey_le_iff_of_numbers hv hw).mp h with hless | ⟨heq, hsign⟩
      · exact .less hv hw hless
      · exact .equal hv hw heq hsign
    | true =>
      refine .nanLast hv hw (Bool.eq_false_iff.mpr fun hsign => ?_)
      obtain ⟨hpos, hkey⟩ := orderKey_of_isNaN hw
      have hleast := (orderKey_of_number hv).1
      rw [if_pos hsign] at hkey
      omega
  | true =>
    obtain ⟨hpos, hkey⟩ := orderKey_of_isNaN hv
    cases hw : isNaN w with
    | false =>
      refine .nanFirst hv (Bool.not_eq_false _ ▸ fun hsign => ?_) hw
      have hgreatest := (orderKey_of_number hw).2
      rw [hsign, if_neg Bool.false_ne_true] at hkey
      omega
    | true =>
      have hkey' := (orderKey_of_isNaN hw).2
      cases hsign : hasSign v <;> cases hsign' : hasSign w <;>
        simp only [hsign, hsign', if_true, if_false, Bool.false_eq_true] at hkey hkey'
      · exact .payloads hv hw hsign hsign' (by omega)
      · omega
      · exact .nanSigns hv hw hsign hsign'
      · exact .signedPayloads hv hw hsign hsign' (by omega)

/-- Sorting by keys is sorting by the total order. -/
theorem orderKey_le_iff (v w : UInt64) : orderKey v ≤ orderKey w ↔ TotalOrder v w :=
  ⟨totalOrder_of_orderKey_le, orderKey_le_of_totalOrder⟩

instance : DecidableRel TotalOrder := fun v w => decidable_of_iff _ (orderKey_le_iff v w)

theorem pairwise_sorted (words : List UInt64) : (sorted words).Pairwise TotalOrder := by
  have h : (sorted words).Pairwise fun v w => decide (orderKey v ≤ orderKey w) = true := by
    apply List.pairwise_mergeSort
    · intro u v w huv hvw
      rw [decide_eq_true_eq] at *
      exact Int.le_trans huv hvw
    · intro v w
      simpa using Int.le_total (orderKey v) (orderKey w)
  refine h.imp fun hle => ?_
  exact (orderKey_le_iff _ _).mp (of_decide_eq_true hle)

/-- A list has one ascending rearrangement. -/
theorem eq_of_pairwise_of_perm {r s : List UInt64} (hr : r.Pairwise TotalOrder)
    (hs : s.Pairwise TotalOrder) (h : r.Perm s) : r = s := by
  refine h.eq_of_pairwise (fun v w _ _ hvw hwv => ?_) hr hs
  rw [← orderKey_le_iff] at hvw hwv
  exact orderKey_injective (Int.le_antisymm hvw hwv)

theorem sorted_eq_of_perm {words others : List UInt64} (h : others.Perm words) :
    sorted others = sorted words := by
  refine eq_of_pairwise_of_perm (pairwise_sorted others) (pairwise_sorted words) ?_
  exact (List.mergeSort_perm others _).trans (h.trans (List.mergeSort_perm words _).symm)

theorem medianWord_eq (arithmetic : WordArithmetic) {words : List UInt64} (hwords : words ≠ []) :
    medianWord arithmetic words =
      if (sorted words).length % 2 = 1 then (sorted words).getD ((sorted words).length / 2) nan.toBits
      else arithmetic.divide
        (arithmetic.add ((sorted words).getD ((sorted words).length / 2 - 1) nan.toBits)
          ((sorted words).getD ((sorted words).length / 2) nan.toBits)) (2 : Float).toBits := by
  have hlength : (sorted words).length = words.length := List.length_mergeSort words
  have hsome : (sorted words).isEmpty = false := by
    rw [List.isEmpty_eq_false_iff, ← List.length_pos_iff, hlength]
    exact List.length_pos_iff.mpr hwords
  rw [medianWord, hsome]
  rfl

/-- The median of a list that is not empty is found in its ascending rearrangement, of which there
is one, and so it is the same for every rearrangement, bit for bit. This holds of all words, those
of any NaN among them, and however the machine adds and divides; the doubles that are computed with
have the median of their words. -/
theorem median_of_any_order (arithmetic : WordArithmetic) (words : List UInt64)
    (hwords : words ≠ []) :
    ∃ s : List UInt64, s.Perm words ∧ s.Pairwise TotalOrder ∧
      (∀ r : List UInt64, r.Perm words → r.Pairwise TotalOrder → r = s) ∧
      ∀ others : List UInt64, others.Perm words →
        sorted others = s ∧ medianWord arithmetic others = medianWord arithmetic words ∧
        (s.length % 2 = 1 →
          ∃ h : s.length / 2 < s.length, medianWord arithmetic others = s[s.length / 2]) ∧
        (s.length % 2 = 0 → 0 < s.length / 2 ∧
          ∃ (h₁ : s.length / 2 - 1 < s.length) (h₂ : s.length / 2 < s.length),
            medianWord arithmetic others =
              arithmetic.divide (arithmetic.add s[s.length / 2 - 1] s[s.length / 2])
                (2 : Float).toBits) ∧
        ∀ xs : List Float, xs.map Float.toBits = others →
          median xs = Float.ofBits (medianWord .standard words) := by
  have hperm : (sorted words).Perm words := List.mergeSort_perm words _
  have hpos : 0 < (sorted words).length := by
    rw [hperm.length_eq]
    exact List.length_pos_iff.mpr hwords
  refine ⟨sorted words, hperm, pairwise_sorted words, fun r hr hascending => ?_,
    fun others hothers => ?_⟩
  · exact eq_of_pairwise_of_perm hascending (pairwise_sorted words) (hr.trans hperm.symm)
  have hsorted : sorted others = sorted words := sorted_eq_of_perm hothers
  have hsame (machine : WordArithmetic) : medianWord machine others = medianWord machine words := by
    rw [medianWord, medianWord, hsorted]
  have hmedian := hsame arithmetic
  refine ⟨hsorted, hmedian, fun hodd => ?_, fun heven => ?_, fun xs hxs => ?_⟩
  · have hmiddle : (sorted words).length / 2 < (sorted words).length := by omega
    refine ⟨hmiddle, ?_⟩
    rw [hmedian, medianWord_eq arithmetic hwords, if_pos hodd, List.getD_eq_getElem _ _ hmiddle]
  · have hleft : (sorted words).length / 2 - 1 < (sorted words).length := by omega
    have hright : (sorted words).length / 2 < (sorted words).length := by omega
    refine ⟨by omega, hleft, hright, ?_⟩
    rw [hmedian, medianWord_eq arithmetic hwords, if_neg (by omega),
      List.getD_eq_getElem _ _ hleft, List.getD_eq_getElem _ _ hright]
  · rw [median, hxs, hsame]

/-- The two zeros stand in the middle, the negative one first, in whatever order they come: a NaN
with a sign stands before all numbers and one without it after them. -/
theorem median_of_any_order_zeros :
    let words : List UInt64 := [nan.toBits, 0, (-infinity).toBits, 0xfff8000000000001,
      (-0.0 : Float).toBits, 0x7ff0000000000001]
    let others : List UInt64 := [(-0.0 : Float).toBits, 0x7ff0000000000001, nan.toBits,
      0xfff8000000000001, 0, (-infinity).toBits]
    words ≠ [] ∧ others.Perm words ∧
      medianWord .standard others = medianWord .standard words ∧
      medianWord .standard others = 0 := by
  intro words others
  have hwords : words ≠ [] := List.cons_ne_nil _ _
  have hperm : others.Perm words := by decide +kernel
  obtain ⟨s, -, -, hunique, h⟩ := median_of_any_order .standard words hwords
  obtain rfl : [0xfff8000000000001, (-infinity).toBits, (-0.0 : Float).toBits, 0,
      0x7ff0000000000001, nan.toBits] = s := hunique _ (by decide +kernel) (by decide +kernel)
  obtain ⟨-, hsame, -, heven, -⟩ := h others hperm
  obtain ⟨-, _, _, hvalue⟩ := heven rfl
  refine ⟨hwords, hperm, hsame, ?_⟩
  rw [hvalue]
  exact (by decide +kernel : WordArithmetic.standard.divide
    (WordArithmetic.standard.add (-0.0 : Float).toBits 0) (2 : Float).toBits = 0)

end FormulaEngine.Arithmetic
