import FormulaEngine.Operator.Value
import FormulaEngine.Table
import FormulaEngine.Tree.Postorder

/-!
Evaluation of trees, node by node in post-order. Both operands of an operator are
always evaluated, and a function is looked up after its arguments are evaluated, in
the table as it is then. The first failure ends the evaluation.
-/
namespace FormulaEngine

inductive EvaluationError
  | variableNotDefined (name : String)
  | unknownFunction (name : String)
  deriving DecidableEq, Repr

def EvaluationError.message : EvaluationError → String
  | variableNotDefined name => s!"the variable \"{name}\" used is not defined"
  | unknownFunction name => s!"the function \"{name}\" is not defined"

/-- Values of variables, in the order in which they are found. -/
abbrev Bindings := List (String × Float)

/-- What the names of a tree refer to. -/
structure Scope (σ : Type) where
  functions : Table (Function σ)
  constants : Table Constant
  bindings : Bindings

/-- A computation that may call functions and may fail; the calls made before a failure remain. -/
abbrev Evaluation (σ : Type) := ExceptT EvaluationError (StateM (CallState σ))

variable {σ : Type}

/-- A variable without a binding may still be a constant, registered after the tree was made. -/
def Scope.variable (scope : Scope σ) (name : String) : Except EvaluationError Float :=
  match scope.bindings.lookup name with
  | some value => .ok value
  | none =>
    match scope.constants.get? name with
    | some constant => .ok constant.value
    | none => .error (.variableNotDefined name)

def Function.call (f : Function σ) (arguments : List Float) : Evaluation σ Float :=
  fun s => let result := f.invoke arguments s; (.ok result.1, result.2)

/-- The function of a name in a table, called with the given arguments. -/
def Table.call (functions : Table (Function σ)) (name : String) (arguments : List Float) :
    Evaluation σ Float :=
  match functions.get? name with
  | some f => f.call arguments
  | none => throw (.unknownFunction name)

/-- The value of a node from those of its arguments. A node with a wrong number of them, which no
tree has, is not a number. -/
def Node.evaluate (scope : Scope σ) (node : Node) (arguments : List Float) : Evaluation σ Float :=
  match node, arguments with
  | integer value, _ => pure (integerValue value)
  | float value, _ => pure value
  | var name, _ => ExceptT.mk (pure (scope.variable name))
  | negate, [x] => pure (-x)
  | binary op, [x, y] => pure (op.value x y)
  | call name _ _, arguments => scope.functions.call name arguments
  | _, _ => pure Binary64.nan

def Tree.evaluate (t : Tree) (scope : Scope σ) : Evaluation σ Float := do
  let stack ← runNodes (Node.evaluate scope) t.postorder []
  pure (stack.headD Binary64.nan)

end FormulaEngine
