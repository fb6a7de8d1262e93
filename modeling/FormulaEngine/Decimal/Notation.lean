import FormulaEngine.Decimal.Shortest

/-!
The two ways a number is written. Plain text never has an exponent and marks no
whole number; literal text keeps a mark or an exponent in every number, so that it
reads back as a number with a fraction, and changes to an exponent at both ends.
-/
namespace FormulaEngine.Decimal

open Binary64

/-- The decisions of a number format. -/
structure Notation where
  /-- The exponents of the leading digit that are written without an exponent; all if absent. -/
  positional : Option (Int × Int)
  /-- What follows a whole number that is written without an exponent. -/
  wholeMark : List Char

namespace Notation

def plain : Notation := ⟨none, []⟩

def literal : Notation := ⟨some (-4, 15), ['.', '0']⟩

def isPositional (format : Notation) (leading : Int) : Bool :=
  match format.positional with
  | none => true
  | some (lowest, highest) => lowest ≤ leading && leading ≤ highest

def zeros (count : Nat) : List Char := List.replicate count '0'

def integerText (n : Int) : List Char :=
  if n < 0 then '-' :: Nat.toDigits 10 n.natAbs else Nat.toDigits 10 n.natAbs

def positionalText (format : Notation) (d : Decimal) : List Char :=
  let digits := Nat.toDigits 10 d.significand
  if 0 ≤ d.exponent then digits ++ zeros d.exponent.toNat ++ format.wholeMark
  else
    let places := (-d.exponent).toNat
    if places < digits.length then
      digits.take (digits.length - places) ++ '.' :: digits.drop (digits.length - places)
    else ['0', '.'] ++ zeros (places - digits.length) ++ digits

def exponentText (d : Decimal) : List Char :=
  let digits := Nat.toDigits 10 d.significand
  let leading := d.exponent + digits.length - 1
  let fraction := digits.drop 1
  digits.take 1 ++ (if fraction.isEmpty then [] else '.' :: fraction) ++ 'e' :: integerText leading

def decimalText (format : Notation) (d : Decimal) : List Char :=
  if format.isPositional (d.exponent + digitCount d.significand - 1) then format.positionalText d
  else exponentText d

/-- The text of a finite double without its sign. -/
def unsignedText (format : Notation) (x : Float) : List Char :=
  let m := magnitude x
  if m.mantissa = 0 then '0' :: format.wholeMark else format.decimalText (shortest m)

def text (format : Notation) (x : Float) : List Char :=
  if x.isNaN then ['N', 'a', 'N']
  else
    let size := if x.isInf then ['i', 'n', 'f'] else format.unsignedText x
    if isNegative x then '-' :: size else size

end Notation

example : Notation.literal.text 1e16 = "1e16".toList := by decide +kernel
example : Notation.literal.text 1e15 = "1000000000000000.0".toList := by decide +kernel
example : Notation.literal.text 0.0001 = "0.0001".toList := by decide +kernel
example : Notation.literal.text 1.5e-7 = "1.5e-7".toList := by decide +kernel
example : Notation.plain.text 1e-7 = "0.0000001".toList := by decide +kernel
example : Notation.plain.text (-0.0) = "-0".toList := by decide +kernel

end FormulaEngine.Decimal
