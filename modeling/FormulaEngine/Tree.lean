import FormulaEngine.Operator

/-!
Formulas as trees. A call carries the idempotence of its function as it was when the
tree was made.
-/
namespace FormulaEngine

inductive Tree
  | integer (value : Int64)
  | float (value : Float)
  | var (name : String)
  | negate (argument : Tree)
  | binary (op : BinaryOperator) (left right : Tree)
  | call (name : String) (arguments : List Tree) (idempotent : Bool)

/-- The double that an integer literal stands for. -/
def integerValue (n : Int64) : Float := Float.ofInt n.toInt

/-- The value of a tree that is a literal. -/
def Tree.literal? : Tree → Option Float
  | integer value => some (integerValue value)
  | float value => some value
  | _ => none

def Tree.isLiteral (t : Tree) : Bool := t.literal?.isSome

/-- The forms of trees. A form has a way to make each kind of node, which may note more in it than a
`Tree` holds; without what is noted a tree is left. -/
class TreeForm (τ : Type) where
  integer (value : Int64) : τ
  float (value : Float) : τ
  var (name : String) : τ
  negate (argument : τ) : τ
  binary (op : BinaryOperator) (left right : τ) : τ
  call (name : String) (arguments : List τ) (idempotent : Bool) : τ
  bare (t : τ) : Tree

instance : TreeForm Tree where
  integer := .integer
  float := .float
  var := .var
  negate := .negate
  binary := .binary
  call := .call
  bare t := t

namespace TreeForm

@[simp]
theorem integer_tree (value : Int64) : integer value = Tree.integer value := rfl

@[simp]
theorem float_tree (value : Float) : float value = Tree.float value := rfl

@[simp]
theorem var_tree (name : String) : var name = Tree.var name := rfl

@[simp]
theorem negate_tree (argument : Tree) : negate argument = .negate argument := rfl

@[simp]
theorem binary_tree (op : BinaryOperator) (left right : Tree) :
    binary op left right = .binary op left right := rfl

@[simp]
theorem call_tree (name : String) (arguments : List Tree) (idempotent : Bool) :
    call name arguments idempotent = .call name arguments idempotent := rfl

@[simp]
theorem bare_tree (t : Tree) : bare t = t := rfl

end TreeForm

end FormulaEngine
