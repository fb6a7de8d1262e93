/-!
Doubles as exact binary fractions. A finite double is its sign and a natural
mantissa times a power of two; the exact operations of the library (decimal text,
remainders, orderings) decode it, compute on natural numbers and encode the result.
-/
-- Powers are those of the core library, whatever else is imported.
attribute [default_instance 20000] instPowNat

namespace FormulaEngine.Binary64

/-- A non-negative number `mantissa * 2 ^ exponent`. -/
structure Magnitude where
  mantissa : Nat
  exponent : Int
  deriving DecidableEq, Repr

def nan : Float := Float.ofBits 0x7ff8000000000000

def infinity : Float := Float.ofBits 0x7ff0000000000000

def isNegative (x : Float) : Bool := 2 ^ 63 ≤ x.toBits.toNat

def exponentField (x : Float) : Nat := x.toBits.toNat / 2 ^ 52 % 2 ^ 11

def fractionField (x : Float) : Nat := x.toBits.toNat % 2 ^ 52

/-- The absolute value of a finite double, without loss. -/
def magnitude (x : Float) : Magnitude :=
  if exponentField x = 0 then ⟨fractionField x, -1074⟩
  else ⟨fractionField x + 2 ^ 52, (exponentField x : Int) - 1075⟩

/-- The double of the given sign and magnitude, for a mantissa below `2 ^ 53` and an exponent
between -1074 and 971, where it is exact. -/
def ofMagnitude (negative : Bool) (m : Magnitude) : Float :=
  let sign := if negative then 2 ^ 63 else 0
  let shift := min (52 - m.mantissa.log2) (m.exponent + 1074).toNat
  let fraction := m.mantissa * Nat.pow 2 shift
  let field := (m.exponent - shift + 1074).toNat
  let normal := if 2 ^ 52 ≤ fraction then field * 2 ^ 52 + fraction else fraction
  Float.ofBits (UInt64.ofNat (sign + normal))

def negateIf (negative : Bool) (x : Float) : Float := if negative then -x else x

end FormulaEngine.Binary64
