import FormulaEngine.Binary64

/-!
The shortest decimal that reads back as a given double. The numbers that round to
the double form an interval; of the decimal grids with one, two, three digits and so
on, the first with a point in the interval is taken, and on it the point nearest to
the double, the larger one at a tie.
-/
namespace FormulaEngine

open Binary64

/-- The number `significand * 10 ^ exponent`. -/
structure Decimal where
  significand : Nat
  exponent : Int
  deriving DecidableEq, Repr

namespace Decimal

/-- The numbers that round to a double, as multiples of a quarter unit of its mantissa. -/
structure RoundingInterval where
  low : Nat
  value : Nat
  high : Nat
  /-- Whether the end points round to the double as well. -/
  closed : Bool
  /-- The exponent of two that belongs to the multiples. -/
  exponent : Int

/-- Below a power of two the doubles are twice as dense, so the interval is shorter on that side;
end points go to the even mantissa. -/
def roundingInterval (m : Magnitude) : RoundingInterval where
  low := if m.mantissa = 2 ^ 52 ∧ -1074 < m.exponent then 4 * m.mantissa - 1
    else 4 * m.mantissa - 2
  value := 4 * m.mantissa
  high := 4 * m.mantissa + 2
  closed := m.mantissa % 2 = 0
  exponent := m.exponent - 2

def digitCount (n : Nat) : Nat := (Nat.toDigits 10 n).length

/-- The `k` with `10 ^ (k - 1) ≤ num / den < 10 ^ k`, for positive `num` and `den`. -/
def decimalMagnitude (num den : Nat) : Int :=
  if den ≤ num then digitCount (num / den)
  else 1 - (digitCount ((den + num - 1) / num - 1) : Int)

/-- A power with an integer exponent, as a fraction. -/
def powerFraction (base : Nat) (exponent : Int) : Nat × Nat :=
  if 0 ≤ exponent then (base.pow exponent.toNat, 1) else (1, base.pow (-exponent).toNat)

/-- The point of the grid of multiples of `10 ^ gridExponent` that the interval holds, if any. -/
def nearestInside? (interval : RoundingInterval) (gridExponent : Int) : Option Nat :=
  let unit := powerFraction 2 interval.exponent
  let step := powerFraction 10 gridExponent
  -- A grid point `c` stands for `c * scale` and a multiple `v` of the unit for `v * weight`.
  let scale := step.1 * unit.2
  let weight := unit.1 * step.2
  let low := interval.low * weight
  let value := interval.value * weight
  let high := interval.high * weight
  let below := value / scale
  let belowInside := if interval.closed then low ≤ below * scale else low < below * scale
  let aboveInside := if interval.closed then (below + 1) * scale ≤ high
    else (below + 1) * scale < high
  let aboveNearer := (below + 1) * scale - value ≤ value - below * scale
  if belowInside && !(aboveInside && aboveNearer) then some below
  else if aboveInside then some (below + 1)
  else none

/-- The first hit on the grids with `digits`, `digits + 1`, … digits. -/
def searchGrids (interval : RoundingInterval) (magnitude : Int) : Nat → Nat → Option Decimal
  | 0, _ => none
  | fuel + 1, digits =>
    match nearestInside? interval (magnitude - digits) with
    | some c =>
      if c = 10 ^ digits then some ⟨1, magnitude⟩ else some ⟨c, magnitude - digits⟩
    | none => searchGrids interval magnitude fuel (digits + 1)

/-- The shortest decimal that rounds to a positive magnitude. Seventeen digits always suffice. -/
def shortest (m : Magnitude) : Decimal :=
  let interval := roundingInterval m
  let unit := powerFraction 2 interval.exponent
  let magnitude := decimalMagnitude (interval.value * unit.1) unit.2
  (searchGrids interval magnitude 17 1).getD ⟨0, 0⟩

end Decimal

end FormulaEngine
