import FormulaEngine.Evaluation
import FormulaEngine.Program

/-!
The machine that runs programs. A run first finds the value of every variable of the
program, then executes the instructions in order. What a run leaves behind on the
machine is cleared by the next.
-/
namespace FormulaEngine

structure Machine where
  /-- The numbers on the stack, the top first. -/
  stack : List Float
  /-- The values of the variables of the program. -/
  slots : Array Float

namespace Machine

variable {σ : Type}

def fresh : Machine := ⟨[], #[]⟩

/-- Fills the slots in order, up to the first name without a value. -/
def resolve (scope : Scope σ) :
    List String → Array Float → Except EvaluationError Unit × Array Float
  | [], slots => (.ok (), slots)
  | name :: names, slots =>
    match scope.variable name with
    | .ok value => resolve scope names (slots.push value)
    | .error e => (.error e, slots)

def callTarget (functions : Table (Function σ)) (target : CallTarget σ) (arguments : List Float) :
    Evaluation σ Float :=
  match target with
  | .bound f => f.call arguments
  | .byName name => functions.call name arguments

/-- The stack after an instruction. An operand that is not there is not a number. -/
def execute (program : Program σ) (functions : Table (Function σ)) (slots : Array Float)
    (i : Instruction) (stack : List Float) : Evaluation σ (List Float) :=
  match i.opcode? with
  | some .pushConstant => pure (program.constants.getD i.a Binary64.nan :: stack)
  | some .loadVariable => pure (slots.getD i.a Binary64.nan :: stack)
  | some .negate => pure (-(stack.headD Binary64.nan) :: stack.drop 1)
  | some (.binary op) =>
    pure (op.value ((stack.drop 1).headD Binary64.nan) (stack.headD Binary64.nan) :: stack.drop 2)
  | some .call => do
    let target := program.targets.getD i.a (.byName "")
    let result ← callTarget functions target (stack.take i.b).reverse
    pure (result :: stack.drop i.b)
  | none => pure stack

/-- Executes instructions up to the first failure, and leaves the stack as it is then. -/
def executeAll (program : Program σ) (functions : Table (Function σ)) (slots : Array Float) :
    List Instruction → List Float → CallState σ →
      Except EvaluationError Unit × List Float × CallState σ
  | [], stack, s => (.ok (), stack, s)
  | i :: rest, stack, s =>
    match execute program functions slots i stack s with
    | (.ok stack, s) => executeAll program functions slots rest stack s
    | (.error e, s) => (.error e, stack, s)

/-- Runs a program. The result is the number on top of the stack in the end. -/
def run (m : Machine) (program : Program σ) (scope : Scope σ) (s : CallState σ) :
    Except EvaluationError Float × Machine × CallState σ :=
  match resolve scope program.variableNames.toList #[] with
  | (.error e, slots) => (.error e, { m with slots }, s)
  | (.ok (), slots) =>
    match executeAll program scope.functions slots program.code.toList [] s with
    | (.error e, stack, s) => (.error e, ⟨stack, slots⟩, s)
    | (.ok (), stack, s) => (.ok (stack.headD Binary64.nan), ⟨stack.drop 1, slots⟩, s)

end Machine

/-- A run on a machine of its own. -/
def Program.evaluate {σ : Type} (program : Program σ) (scope : Scope σ) : Evaluation σ Float :=
  fun s => let result := Machine.fresh.run program scope s; (result.1, result.2.2)

end FormulaEngine
