/-!
The operators of formulas, how tightly they bind and how they are written. Of the
binary operators only addition, subtraction, multiplication and division group from
the left; a chain of any other groups from the right.
-/
namespace FormulaEngine

inductive BinaryOperator
  | add
  | subtract
  | multiply
  | divide
  | modulo
  | power
  | and
  | or
  | lessThan
  | lessOrEqual
  | greaterThan
  | greaterOrEqual
  | equal
  | notEqual
  deriving DecidableEq, Repr

namespace BinaryOperator

/-- The name of the operator in lists of tokens. -/
def name : BinaryOperator → String
  | add => "Add"
  | subtract => "Subtract"
  | multiply => "Multiply"
  | divide => "Divide"
  | modulo => "Modulo"
  | power => "Power"
  | and => "And"
  | or => "Or"
  | lessThan => "LessThan"
  | lessOrEqual => "LessOrEqual"
  | greaterThan => "GreaterThan"
  | greaterOrEqual => "GreaterOrEqual"
  | equal => "Equal"
  | notEqual => "NotEqual"

/-- The single character that stands for the operator in messages. -/
def symbol : BinaryOperator → Char
  | add => '+'
  | subtract => '-'
  | multiply => '*'
  | divide => '/'
  | modulo => '%'
  | power => '^'
  | and => '&'
  | or => '|'
  | lessThan => '<'
  | lessOrEqual => '≤'
  | greaterThan => '>'
  | greaterOrEqual => '≥'
  | equal => '='
  | notEqual => '≠'

/-- The spelling of the operator in a printed formula. -/
def spelling : BinaryOperator → String
  | and => "&&"
  | or => "||"
  | lessOrEqual => "<="
  | greaterOrEqual => ">="
  | equal => "=="
  | notEqual => "!="
  | op => op.symbol.toString

def all : List BinaryOperator :=
  [add, subtract, multiply, divide, modulo, power, and, or, lessThan, lessOrEqual, greaterThan,
    greaterOrEqual, equal, notEqual]

def ofSpelling? (spelling : String) : Option BinaryOperator :=
  all.find? fun op => op.spelling == spelling

def precedence : BinaryOperator → Nat
  | and | or => 1
  | lessThan | lessOrEqual | greaterThan | greaterOrEqual | equal | notEqual => 2
  | add | subtract => 3
  | multiply | divide | modulo => 4
  | power => 5

def groupsLeft : BinaryOperator → Bool
  | add | subtract | multiply | divide => true
  | _ => false

theorem mem_all (op : BinaryOperator) : op ∈ all := by cases op <;> decide

theorem ofSpelling?_spelling (op : BinaryOperator) : ofSpelling? op.spelling = some op := by
  cases op <;> decide

end BinaryOperator

inductive Operator
  | unaryMinus
  | binary (op : BinaryOperator)
  deriving DecidableEq, Repr

namespace Operator

def name : Operator → String
  | unaryMinus => "UnaryMinus"
  | binary op => op.name

def symbol : Operator → Char
  | unaryMinus => '_'
  | binary op => op.symbol

def precedence : Operator → Nat
  | unaryMinus => 6
  | binary op => op.precedence

def groupsLeft : Operator → Bool
  | unaryMinus => false
  | binary op => op.groupsLeft

/-- Whether an operator `stacked` whose right operand is complete takes its operands before the
operator `next` that follows. -/
def pops (next stacked : Operator) : Bool :=
  next.precedence < stacked.precedence ||
    (next.groupsLeft && next.precedence == stacked.precedence)

end Operator

end FormulaEngine
