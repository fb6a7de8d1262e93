import FormulaEngine.Function
import FormulaEngine.Operator

/-!
Programs for a machine with a stack of numbers. An instruction is one word: an
operation code in the upper 8 bits and two operands of 28 bits below it. Operands
point into the pools of the program.
-/
namespace FormulaEngine

inductive Opcode
  | pushConstant
  | loadVariable
  | negate
  | binary (op : BinaryOperator)
  | call
  deriving DecidableEq, Repr

namespace Opcode

/-- All operations, in the order of their codes. -/
def all : List Opcode :=
  [pushConstant, loadVariable, negate] ++ BinaryOperator.all.map binary ++ [call]

def code : Opcode → Nat
  | pushConstant => 0
  | loadVariable => 1
  | negate => 2
  | binary .add => 3
  | binary .subtract => 4
  | binary .multiply => 5
  | binary .divide => 6
  | binary .modulo => 7
  | binary .power => 8
  | binary .and => 9
  | binary .or => 10
  | binary .lessThan => 11
  | binary .lessOrEqual => 12
  | binary .greaterThan => 13
  | binary .greaterOrEqual => 14
  | binary .equal => 15
  | binary .notEqual => 16
  | call => 17

def ofCode? (code : Nat) : Option Opcode := all[code]?

def mnemonic : Opcode → String
  | pushConstant => "PushConst"
  | loadVariable => "LoadVar"
  | negate => "Neg"
  | binary .add => "Add"
  | binary .subtract => "Sub"
  | binary .multiply => "Mul"
  | binary .divide => "Div"
  | binary .modulo => "Mod"
  | binary .power => "Pow"
  | binary .and => "And"
  | binary .or => "Or"
  | binary .lessThan => "Lt"
  | binary .lessOrEqual => "Le"
  | binary .greaterThan => "Gt"
  | binary .greaterOrEqual => "Ge"
  | binary .equal => "Eq"
  | binary .notEqual => "Ne"
  | call => "CallFunc"

theorem ofCode?_code (op : Opcode) : ofCode? op.code = some op := by
  cases op with
  | binary op => cases op <;> rfl
  | _ => rfl

end Opcode

structure Instruction where
  word : UInt64
  deriving DecidableEq, Repr

namespace Instruction

def pack (op : Opcode) (a b : Nat) : Instruction :=
  ⟨UInt64.ofNat (op.code * 2 ^ 56 + a * 2 ^ 28 + b)⟩

def opcode? (i : Instruction) : Option Opcode := Opcode.ofCode? (i.word.toNat / 2 ^ 56)

def a (i : Instruction) : Nat := i.word.toNat / 2 ^ 28 % 2 ^ 28

def b (i : Instruction) : Nat := i.word.toNat % 2 ^ 28

private theorem toNat_pack {op : Opcode} {a b : Nat} (ha : a < 2 ^ 28) (hb : b < 2 ^ 28) :
    (pack op a b).word.toNat = op.code * 2 ^ 56 + a * 2 ^ 28 + b := by
  have hc : op.code ≤ 17 := by
    cases op with
    | binary op => cases op <;> decide
    | _ => decide
  simp only [pack, UInt64.toNat_ofNat']
  omega

theorem opcode?_pack {op : Opcode} {a b : Nat} (ha : a < 2 ^ 28) (hb : b < 2 ^ 28) :
    (pack op a b).opcode? = some op := by
  have h : (pack op a b).word.toNat / 2 ^ 56 = op.code := by rw [toNat_pack ha hb]; omega
  rw [opcode?, h, Opcode.ofCode?_code]

theorem a_pack {op : Opcode} {a b : Nat} (ha : a < 2 ^ 28) (hb : b < 2 ^ 28) :
    (pack op a b).a = a := by
  rw [Instruction.a, toNat_pack ha hb]; omega

theorem b_pack {op : Opcode} {a b : Nat} (ha : a < 2 ^ 28) (hb : b < 2 ^ 28) :
    (pack op a b).b = b := by
  rw [Instruction.b, toNat_pack ha hb]; omega

end Instruction

/-- What a call instruction calls. A function that cannot be overwritten is bound when the program
is made; any other is looked up by its name at every call. -/
inductive CallTarget (σ : Type)
  | bound (f : Function σ)
  | byName (name : String)

structure Program (σ : Type) where
  code : Array Instruction
  constants : Array Float
  /-- The names of the variables; each run gives every one of them a slot. -/
  variableNames : Array String
  targets : Array (CallTarget σ)
  /-- The greatest height of the stack. -/
  maxStack : Nat

namespace Program

def empty {σ : Type} : Program σ := ⟨#[], #[], #[], #[], 0⟩

end Program

end FormulaEngine
