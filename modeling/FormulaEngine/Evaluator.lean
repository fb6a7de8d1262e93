import FormulaEngine.Machine
import FormulaEngine.Program.Compilation

/-!
The two ways to evaluate a tree as often as needed: walking it every time, or
running the program made from it once.
-/
namespace FormulaEngine

inductive ExecutionMode
  | interpreted
  | compiled
  deriving DecidableEq, Repr

def ExecutionMode.name : ExecutionMode → String
  | interpreted => "Interpreted"
  | compiled => "Compiled"

/-- A tree made ready for evaluation. -/
inductive Evaluator (σ : Type)
  | interpreted (tree : Tree)
  | compiled (program : Program σ)

variable {σ : Type}

def Evaluator.evaluate (e : Evaluator σ) (scope : Scope σ) : Evaluation σ Float :=
  match e with
  | interpreted tree => tree.evaluate scope
  | compiled program => program.evaluate scope

namespace ExecutionMode

def prepare (mode : ExecutionMode) (t : Tree) (functions : Table (Function σ)) : Evaluator σ :=
  match mode with
  | interpreted => .interpreted t
  | compiled => .compiled (t.compile functions)

def execute (mode : ExecutionMode) (t : Tree) (scope : Scope σ) : Evaluation σ Float :=
  (mode.prepare t scope.functions).evaluate scope

end ExecutionMode

end FormulaEngine
