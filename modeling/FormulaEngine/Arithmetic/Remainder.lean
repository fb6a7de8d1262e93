import FormulaEngine.Binary64

/-!
The remainder of a division whose quotient is cut toward zero. It is exact: both
numbers are multiples of one power of two, and so is the remainder.
-/
namespace FormulaEngine.Arithmetic

open Binary64

/-- The remainder of two magnitudes, as a multiple of the smaller power of two. -/
def magnitudeRemainder (a b : Magnitude) : Magnitude :=
  let exponent := min a.exponent b.exponent
  let dividend := a.mantissa * Nat.pow 2 (a.exponent - exponent).toNat
  let divisor := b.mantissa * Nat.pow 2 (b.exponent - exponent).toNat
  ⟨dividend % divisor, exponent⟩

/-- The remainder has the sign of the dividend, also when it is zero. -/
def remainder (x y : Float) : Float :=
  if x.isNaN || x.isInf || y.isNaN || y == 0 then nan
  else if y.isInf then x
  else ofMagnitude (isNegative x) (magnitudeRemainder (magnitude x) (magnitude y))

example : (remainder 5.5 (-2)).toBits = (1.5 : Float).toBits := by decide +kernel
example : (remainder (-6) 3).toBits = (-0.0 : Float).toBits := by decide +kernel

end FormulaEngine.Arithmetic
