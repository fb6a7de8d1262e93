import FormulaEngine.Arithmetic.Remainder
import FormulaEngine.Operator

/-!
What the operators compute. A truth value is one or zero, and every number but zero
counts as true; two numbers are equal if they differ by less than a fixed tolerance.
-/
namespace FormulaEngine

def tolerance : Float := 1e-9

def nearlyEqual (x y : Float) : Bool := (x - y).abs < tolerance

def isTrue (x : Float) : Bool := x != 0

def truthValue (b : Bool) : Float := if b then 1 else 0

def BinaryOperator.value (op : BinaryOperator) (x y : Float) : Float :=
  match op with
  | add => x + y
  | subtract => x - y
  | multiply => x * y
  | divide => x / y
  | modulo => Arithmetic.remainder x y
  | power => x.pow y
  | and => truthValue (isTrue x && isTrue y)
  | or => truthValue (isTrue x || isTrue y)
  | lessThan => truthValue (x < y)
  | lessOrEqual => truthValue (x ≤ y)
  | greaterThan => truthValue (y < x)
  | greaterOrEqual => truthValue (y ≤ x)
  | equal => truthValue (nearlyEqual x y)
  | notEqual => truthValue !(nearlyEqual x y)

end FormulaEngine
