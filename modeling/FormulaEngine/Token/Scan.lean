import FormulaEngine.Locale
import FormulaEngine.Text.Blank
import FormulaEngine.Text.Name
import FormulaEngine.Token
import FormulaEngine.Token.Numeral

/-!
From text to tokens. Every token is the longest that starts where it starts, and
blanks may stand between any two. A minus sign is unary where an operand must come
next: at the start and after an operator, a left bracket or a separator.
-/
namespace FormulaEngine

open Decimal

namespace TokenKind

def ofLiteral : Literal → TokenKind
  | .integer value => integer value
  | .float value => float value

/-- A token and the number of characters it takes. -/
abbrev Lexeme := TokenKind × Nat

def scanNumber (mark : Char) (start : Nat) (text : List Char) : Except ParseError Lexeme :=
  match Numeral.scan mark start text with
  | .error e => .error e
  | .ok numeral =>
    match numeral.value? with
    | some value => .ok (ofLiteral value, numeral.length)
    | none =>
      .error ⟨.badNumeral (String.ofList numeral.text), ⟨start, start + numeral.length⟩⟩

def scanName (text : List Char) : Lexeme :=
  let spelling := text.takeWhile Text.isNamePart
  (name (String.ofList spelling), spelling.length)

def binary (op : BinaryOperator) : TokenKind := operator (.binary op)

/-- An operator of one character or of a character and the equality sign. -/
def scanComparison (plain orEqual : BinaryOperator) (rest : List Char) : Lexeme :=
  if rest.head? = some '=' then (binary orEqual, 2) else (binary plain, 1)

/-- An operator whose first character means nothing without the second. -/
def scanPair (start : Nat) (first second : Char) (op : BinaryOperator) (rest : List Char) :
    Except ParseError Lexeme :=
  if rest.head? = some second then .ok (binary op, 2)
  else .error ⟨.incompleteOperator first second, Span.point start⟩

def scanSymbol (operandExpected : Bool) (start : Nat) (c : Char) (rest : List Char) :
    Except ParseError Lexeme :=
  match c with
  | '(' => .ok (leftBracket, 1)
  | ')' => .ok (rightBracket, 1)
  | '-' => .ok (if operandExpected then operator .unaryMinus else binary .subtract, 1)
  | '+' => .ok (binary .add, 1)
  | '*' => .ok (binary .multiply, 1)
  | '/' => .ok (binary .divide, 1)
  | '%' => .ok (binary .modulo, 1)
  | '^' => .ok (binary .power, 1)
  | '≤' => .ok (binary .lessOrEqual, 1)
  | '≥' => .ok (binary .greaterOrEqual, 1)
  | '≠' => .ok (binary .notEqual, 1)
  | '<' => .ok (scanComparison .lessThan .lessOrEqual rest)
  | '>' => .ok (scanComparison .greaterThan .greaterOrEqual rest)
  | '!' => scanPair start '!' '=' .notEqual rest
  | '=' => scanPair start '=' '=' .equal rest
  | '&' => scanPair start '&' '&' .and rest
  | '|' => scanPair start '|' '|' .or rest
  | _ => .error ⟨.unexpectedCharacter c, Span.point start⟩

/-- The token that starts with the character `c`, which is not blank. The decimal mark comes before
letters and the separator after them, whatever characters a locale chooses. -/
def scan (locale : Locale) (operandExpected : Bool) (start : Nat) (c : Char) (rest : List Char) :
    Except ParseError Lexeme :=
  if c.isDigit || c == locale.decimalSeparator then
    scanNumber locale.decimalSeparator start (c :: rest)
  else if Text.isNameStart c then .ok (scanName (c :: rest))
  else if c == locale.argumentSeparator then .ok (separator, 1)
  else scanSymbol operandExpected start c rest

end TokenKind

namespace Token

/-- Scans the characters from `position` on, after the tokens `done`, latest first. -/
def scanFrom (locale : Locale) (position : Nat) (operandExpected : Bool) (done : List Token) :
    List Char → Except ParseError (List Token)
  | [] => .ok done.reverse
  | c :: rest =>
    if Text.isBlank c then scanFrom locale (position + 1) operandExpected done rest
    else
      match TokenKind.scan locale operandExpected position c rest with
      | .error e => .error e
      | .ok (kind, length) =>
        scanFrom locale (position + length) kind.expectsOperand
          (⟨kind, ⟨position, position + length⟩⟩ :: done) (rest.drop (length - 1))
  termination_by text => text.length
  decreasing_by
    · simp only [List.length_cons]
      omega
    · simp only [List.length_drop, List.length_cons]
      omega

def scan (locale : Locale) (text : List Char) : Except ParseError (List Token) :=
  scanFrom locale 0 true [] text

end Token

end FormulaEngine
