import FormulaEngine.Folding
import FormulaEngine.Tree.Assembly
import FormulaEngine.Tree.Flags

/-!
Operations: trees whose nodes store their flags. They are read and folded as bare
trees are, and every node that is made on the way stores its flags. A walk with a
stack of its own finds the variables.
-/
namespace FormulaEngine

namespace Operation

/-- The arguments of the root, from left to right. -/
def children : Operation → List Operation
  | integer _ _ | float _ _ | var _ _ => []
  | negate _ argument => [argument]
  | binary _ _ left right => [left, right]
  | call _ _ arguments _ => arguments

theorem sizeOf_append (os rest : List Operation) :
    sizeOf (os ++ rest) + 1 = sizeOf os + sizeOf rest := by
  induction os with
  | nil => rw [List.nil_append, List.nil.sizeOf_spec, Nat.add_comm]
  | cons o os ih =>
    rw [List.cons_append, List.cons.sizeOf_spec, List.cons.sizeOf_spec]
    omega

theorem one_lt_sizeOf_flags (flags : Flags) : 1 < sizeOf flags := by
  obtain ⟨kind, dependsOnVariables, idempotent⟩ := flags
  rw [Flags.mk.sizeOf_spec]
  cases idempotent with
  | false => rw [Bool.false.sizeOf_spec]; omega
  | true => rw [Bool.true.sizeOf_spec]; omega

theorem sizeOf_children_le (o : Operation) : sizeOf o.children ≤ sizeOf o := by
  have hflags := one_lt_sizeOf_flags o.flags
  cases o with
  | call flags name arguments idempotent =>
    rw [children, call.sizeOf_spec]
    omega
  | binary flags op left right =>
    rw [Operation.flags] at hflags
    rw [children, binary.sizeOf_spec, List.cons.sizeOf_spec, List.cons.sizeOf_spec,
      List.nil.sizeOf_spec]
    omega
  | negate flags argument =>
    rw [Operation.flags] at hflags
    rw [children, negate.sizeOf_spec, List.cons.sizeOf_spec, List.nil.sizeOf_spec]
    omega
  | integer flags value =>
    rw [children, List.nil.sizeOf_spec, integer.sizeOf_spec]
    omega
  | float flags value =>
    rw [children, List.nil.sizeOf_spec, float.sizeOf_spec]
    omega
  | var flags name =>
    rw [children, List.nil.sizeOf_spec, var.sizeOf_spec]
    omega

def noteUse (names : List String) (name : String) : List String :=
  if names.contains name then names else names ++ [name]

/-- Goes through the operations on a stack and adds the variables that are met for the first time to
those already met. -/
def walk : List Operation → List String → List String
  | [], names => names
  | var _ name :: rest, names => walk rest (noteUse names name)
  | o :: rest, names => walk (o.children ++ rest) names
termination_by stack => sizeOf stack
decreasing_by
  · rw [List.cons.sizeOf_spec]
    omega
  -- the arguments that take the place of an operation count for no more than the operation
  · have happend := sizeOf_append o.children rest
    have hchildren := o.sizeOf_children_le
    rw [List.cons.sizeOf_spec]
    omega

/-- The variables of an operation, each once, in the order of their first use. -/
def variableNames (o : Operation) : List String := walk [o] []

def parse (locale : Locale) (vocabulary : Vocabulary) (text : String) :
    Except ParseError Operation :=
  readFormula Operation locale vocabulary text

def fold {σ : Type} (mode : ExecutionMode) (functions : Table (Function σ))
    (constants : Table Constant) (o : Operation) : Folding σ Operation :=
  TreeForm.fold mode functions constants o

end Operation

end FormulaEngine
