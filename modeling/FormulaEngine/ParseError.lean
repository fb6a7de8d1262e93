import FormulaEngine.Span
import FormulaEngine.Decimal.Notation

/-!
What can be wrong with a formula text. An error is a cause and the stretch of text
it concerns; a message that names a position names the start of that stretch.
-/
namespace FormulaEngine

inductive ParseError.Cause
  | emptyFormula
  | unexpectedCharacter (c : Char)
  /-- The first character of an operator, without the second. -/
  | incompleteOperator (c expected : Char)
  | secondExponent (c : Char)
  | badNumeral (text : String)
  | functionWithoutArguments (name : String)
  | emptyBrackets
  | unexpectedSeparator
  | missingLeftBracket
  | missingRightBracket
  | missingOperand (symbol : Char)
  | argumentCount (name : String) (arity supplied : Nat)
  | missingArgument (name : String)
  /-- The operands of a call are gone. This is no complaint: reading ends without one. -/
  | breakdown (name : String)
  | noArgumentList (name : String)
  | leftoverInteger (value : Int64)
  | leftoverFloat (value : Float)
  | leftoverOperand
  | noOperands

structure ParseError where
  cause : ParseError.Cause
  span : Span

namespace ParseError

def Cause.message (position : Nat) : Cause → String
  | emptyFormula => "The formula is empty"
  | unexpectedCharacter c => s!"Invalid token \"{c}\" detected at position {position}"
  | incompleteOperator c expected =>
    s!"Invalid token \"{c}\" detected at position {position}; expected \"{c}{expected}\""
  | secondExponent c =>
    s!"Invalid token \"{c}\" detected at position {position}; " ++
      "a number may only have one exponent"
  | badNumeral text => s!"Invalid numeric literal \"{text}\" at position {position}"
  | functionWithoutArguments name =>
    s!"The function \"{name}\" at position {position} must be followed by an argument list"
  | emptyBrackets => s!"Empty brackets at position {position}"
  | unexpectedSeparator =>
    s!"Unexpected argument separator at position {position}; " ++
      "separators are only valid inside a function call"
  | missingLeftBracket =>
    s!"No matching left bracket found for the right bracket at position {position}"
  | missingRightBracket =>
    s!"No matching right bracket found for the left bracket at position {position}"
  | missingOperand symbol =>
    s!"The operator \"{symbol}\" at position {position} is missing an operand"
  | argumentCount name arity supplied =>
    s!"The function \"{name}\" at position {position} expects {arity} argument(s) " ++
      s!"but {supplied} were supplied"
  | missingArgument name =>
    s!"The function \"{name}\" at position {position} is missing an argument"
  | breakdown name => s!"The function \"{name}\" at position {position} has lost its operands"
  | noArgumentList name => s!"The function \"{name}\" at position {position} has no argument list"
  | leftoverInteger value =>
    s!"Unexpected integer constant \"{value.toInt}\" found at position {position}"
  | leftoverFloat value =>
    let text := String.ofList (Decimal.Notation.plain.text value)
    s!"Unexpected floating point constant \"{text}\" found at position {position}"
  | leftoverOperand =>
    s!"The syntax of the provided formula is not valid; unexpected operand at position {position}"
  | noOperands => "The formula has no operands"

def message (e : ParseError) : String :=
  s!"{e.cause.message e.span.start} (at {e.span.start}..{e.span.stop})"

end ParseError

end FormulaEngine
