import FormulaEngine.Decimal.Numeral
import FormulaEngine.ParseError

/-!
Numerals at the start of a text. A numeral is as long as possible: digits, a decimal
mark and digits, an exponent.
-/
namespace FormulaEngine.Decimal.Numeral

def fractionPart? (mark : Char) : List Char → Option (List Char)
  | [] => none
  | c :: rest => if c = mark then some (rest.takeWhile Char.isDigit) else none

def isExponentMark (c : Char) : Bool := c == 'e' || c == 'E'

def signPart? (text : List Char) : Option Char :=
  text.head?.filter fun c => c == '+' || c == '-'

/-- An exponent needs a digit; without one its mark belongs to the next token. -/
def exponentPart? : List Char → Option (Option Char × List Char)
  | [] => none
  | c :: rest =>
    let sign := signPart? rest
    let digits := (rest.drop sign.toList.length).takeWhile Char.isDigit
    if isExponentMark c && !digits.isEmpty then some (sign, digits) else none

/-- The numeral up to its exponent at the start of a text. -/
def mantissa (mark : Char) (text : List Char) : Numeral where
  whole := text.takeWhile Char.isDigit
  fraction := fractionPart? mark (text.dropWhile Char.isDigit)
  exponent := none

def length (n : Numeral) : Nat := n.text.length

/-- The numeral at the start of a text. A second decimal mark, a decimal mark in an exponent and a
second exponent are errors, not the start of another token. -/
def scan (mark : Char) (start : Nat) (text : List Char) : Except ParseError Numeral :=
  let mantissa := mantissa mark text
  let rest := text.drop mantissa.length
  if rest.head? = some mark then
    .error ⟨.unexpectedCharacter mark, Span.point (start + mantissa.length)⟩
  else
    let numeral := { mantissa with exponent := exponentPart? rest }
    match numeral.exponent, (text.drop numeral.length).head? with
    | some _, some c =>
      if c = mark then .error ⟨.unexpectedCharacter c, Span.point (start + numeral.length)⟩
      else if isExponentMark c then
        .error ⟨.secondExponent c, Span.point (start + numeral.length)⟩
      else .ok numeral
    | _, _ => .ok numeral

end FormulaEngine.Decimal.Numeral
