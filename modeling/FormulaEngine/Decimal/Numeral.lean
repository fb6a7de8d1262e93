import FormulaEngine.Binary64

/-!
Numerals as a formula spells them: digits, perhaps a fraction, perhaps an exponent.
A numeral without a fraction and an exponent is an integer if it fits in 64 bits;
every other one is the double nearest to it.
-/
namespace FormulaEngine.Decimal

/-- The parts of an unsigned numeral; each list holds digits only. -/
structure Numeral where
  whole : List Char
  /-- The digits after the decimal mark, if there is one. -/
  fraction : Option (List Char)
  /-- The sign as written and the digits of the exponent, if there is one. -/
  exponent : Option (Option Char × List Char)

/-- The value of a number literal. -/
inductive Literal
  | integer (value : Int64)
  | float (value : Float)

namespace Numeral

/-- Exponent digits beyond this value are left out: it already decides between zero and
infinity. -/
def exponentLimit : Nat := 65536

def exponentValue (digits : List Char) : Nat :=
  digits.foldl (fun n c => if n < exponentLimit then 10 * n + (c.toNat - '0'.toNat) else n) 0

def signedExponent (n : Numeral) : Int :=
  match n.exponent with
  | none => 0
  | some (sign, digits) =>
    if sign = some '-' then -(exponentValue digits : Int) else exponentValue digits

/-- The double nearest to `significand * 10 ^ exponent`. -/
def nearestFloat (significand : Nat) (exponent : Int) : Float :=
  if exponent < 0 then Float.ofScientific significand true exponent.natAbs
  else Float.ofScientific significand false exponent.natAbs

def mantissaDigits (n : Numeral) : List Char := n.whole ++ n.fraction.getD []

/-- The power of ten that the last digit before the exponent counts. -/
def lastPlace (n : Numeral) : Int := n.signedExponent - (n.fraction.getD []).length

def significantDigits (n : Numeral) : List Char := n.mantissaDigits.dropWhile (· == '0')

/-- Whether the value is at least `10 ^ 309`, which is beyond every finite double. -/
def isHuge (n : Numeral) : Bool :=
  !n.significantDigits.isEmpty && 309 < n.significantDigits.length + n.lastPlace

def floatValue (n : Numeral) : Float :=
  if n.isHuge then Binary64.infinity
  else nearestFloat (Nat.ofDigitChars 10 n.significantDigits 0) n.lastPlace

/-- A numeral needs a digit before its exponent. -/
def value? (n : Numeral) : Option Literal :=
  if n.mantissaDigits.isEmpty then none
  else if n.fraction.isSome || n.exponent.isSome then some (.float n.floatValue)
  else
    let v := Nat.ofDigitChars 10 n.whole 0
    if v < 2 ^ 63 then some (.integer (Int64.ofNat v)) else some (.float n.floatValue)

/-- The numeral with a point as its mark and a small `e`. -/
def text (n : Numeral) : List Char :=
  n.whole ++
    (match n.fraction with
      | none => []
      | some digits => '.' :: digits) ++
    (match n.exponent with
      | none => []
      | some (sign, digits) => 'e' :: (sign.toList ++ digits))

end Numeral

end FormulaEngine.Decimal
