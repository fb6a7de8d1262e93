import FormulaEngine.Binary64

/-!
Rounding to whole numbers, with the sign kept also when the result is zero.
-/
namespace FormulaEngine.Arithmetic

open Binary64

inductive Rounding
  | down
  | up
  | towardZero
  /-- To the nearest whole number, and halfway between two of them to the even one. -/
  | halfEven
  deriving DecidableEq, Repr

namespace Rounding

/-- Whether the magnitude `quotient + rest / unit` is rounded away from zero. -/
def awayFromZero (rule : Rounding) (negative : Bool) (quotient rest unit : Nat) : Bool :=
  match rule with
  | down => negative && rest != 0
  | up => !negative && rest != 0
  | towardZero => false
  | halfEven => unit < 2 * rest || (unit == 2 * rest && quotient % 2 == 1)

def apply (rule : Rounding) (x : Float) : Float :=
  let m := magnitude x
  if x.isNaN || x.isInf || 0 ≤ m.exponent then x
  else
    let unit := Nat.pow 2 (-m.exponent).toNat
    let quotient := m.mantissa / unit
    let away := rule.awayFromZero (isNegative x) quotient (m.mantissa % unit) unit
    ofMagnitude (isNegative x) ⟨if away then quotient + 1 else quotient, 0⟩

end Rounding

example : (Rounding.halfEven.apply 2.5).toBits = (2 : Float).toBits := by decide +kernel
example : (Rounding.up.apply (-0.5)).toBits = (-0.0 : Float).toBits := by decide +kernel

end FormulaEngine.Arithmetic
