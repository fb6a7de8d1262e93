import FormulaEngine.Operator
import FormulaEngine.Span

/-!
Tokens of a formula text.
-/
namespace FormulaEngine

inductive TokenKind
  | integer (value : Int64)
  | float (value : Float)
  | name (text : String)
  | operator (op : Operator)
  | leftBracket
  | rightBracket
  | separator

structure Token where
  kind : TokenKind
  span : Span

/-- Whether an operand must come next, so that a minus sign there is a sign of its operand. -/
def TokenKind.expectsOperand : TokenKind → Bool
  | operator _ | leftBracket | separator => true
  | integer _ | float _ | name _ | rightBracket => false

end FormulaEngine
