import FormulaEngine.Program
import FormulaEngine.Table
import FormulaEngine.Tree.Postorder

/-!
From trees to programs: one instruction for each node, in post-order. Every literal
and every call has a pool element of its own, while a variable has one slot however
often it is used.
-/
namespace FormulaEngine

/-- A program for the nodes so far, and the height of the stack after it. -/
structure Compilation (σ : Type) where
  program : Program σ
  depth : Nat

namespace Compilation

variable {σ : Type}

def start : Compilation σ := ⟨.empty, 0⟩

/-- Adds an instruction that takes `pops` numbers off the stack and leaves one. -/
def emit (op : Opcode) (a b pops : Nat) : Compilation σ → Compilation σ
  | ⟨⟨code, constants, variableNames, targets, maxStack⟩, depth⟩ =>
    let depth := depth - pops + 1
    ⟨⟨code.push (.pack op a b), constants, variableNames, targets, max maxStack depth⟩, depth⟩

def pushConstant (value : Float) : Compilation σ → Compilation σ
  | ⟨⟨code, constants, variableNames, targets, maxStack⟩, depth⟩ =>
    let index := constants.size
    emit .pushConstant index 0 0
      ⟨⟨code, constants.push value, variableNames, targets, maxStack⟩, depth⟩

def loadVariable (name : String) (c : Compilation σ) : Compilation σ :=
  match c.program.variableNames.idxOf? name with
  | some slot => c.emit .loadVariable slot 0 0
  | none =>
    let slot := c.program.variableNames.size
    let program := { c.program with variableNames := c.program.variableNames.push name }
    { c with program }.emit .loadVariable slot 0 0

def target (functions : Table (Function σ)) (name : String) : CallTarget σ :=
  match functions.get? name with
  | some f => if f.overwritable then .byName name else .bound f
  | none => .byName name

def call (functions : Table (Function σ)) (name : String) (argumentCount : Nat) :
    Compilation σ → Compilation σ
  | ⟨⟨code, constants, variableNames, targets, maxStack⟩, depth⟩ =>
    let index := targets.size
    emit .call index argumentCount argumentCount
      ⟨⟨code, constants, variableNames, targets.push (target functions name), maxStack⟩, depth⟩

def addNode (functions : Table (Function σ)) (c : Compilation σ) : Node → Compilation σ
  | .integer value => c.pushConstant (integerValue value)
  | .float value => c.pushConstant value
  | .var name => c.loadVariable name
  | .negate => c.emit .negate 0 0 1
  | .binary op => c.emit (.binary op) 0 0 2
  | .call name argumentCount _ => c.call functions name argumentCount

end Compilation

def Tree.compile {σ : Type} (t : Tree) (functions : Table (Function σ)) : Program σ :=
  (t.postorder.foldl (Compilation.addNode functions) .start).program

end FormulaEngine
