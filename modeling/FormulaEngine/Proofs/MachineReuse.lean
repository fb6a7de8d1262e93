import FormulaEngine.Evaluator

/-!
One machine for many runs. A run that fails leaves numbers on the stack and in some of the slots, and
the next run starts on the same machine. It finds nothing of them: the slots are filled anew before
the first instruction, and the stack is empty then.
-/
namespace FormulaEngine

variable {σ : Type}

namespace Machine

/-- All that a run can do. Before the first instruction it may fail, and the stack stays as it was;
from then on nothing depends on the machine. -/
theorem run_cases (program : Program σ) (scope : Scope σ) (s : CallState σ) :
    (∃ e slots, ∀ m : Machine, m.run program scope s = (.error e, { m with slots }, s)) ∨
      ∃ result left s', ∀ m : Machine, m.run program scope s = (result, left, s') := by
  unfold run
  rcases resolve scope program.variableNames.toList #[] with ⟨e | ⟨⟩, slots⟩
  · exact .inl ⟨e, slots, fun _ => rfl⟩
  · right
    dsimp only
    rcases executeAll program scope.functions slots program.code.toList [] s with
      ⟨e | ⟨⟩, stack, s'⟩
    · exact ⟨_, _, _, fun _ => rfl⟩
    · exact ⟨_, _, _, fun _ => rfl⟩

theorem run_eq_evaluate (m : Machine) (program : Program σ) (scope : Scope σ) (s : CallState σ) :
    ((m.run program scope s).1, (m.run program scope s).2.2) = program.evaluate scope s := by
  rcases run_cases program scope s with ⟨e, slots, hrun⟩ | ⟨result, left, s', hrun⟩
  · rw [Program.evaluate, hrun, hrun]
  · rw [Program.evaluate, hrun, hrun]

/-- A run of the program made from a tree, with what functions there were when it was made and what
its names refer to when it runs. -/
structure Task (σ : Type) where
  tree : Tree
  madeWith : Table (Function σ)
  scope : Scope σ

def Task.program (task : Task σ) : Program σ := task.tree.compile task.madeWith

/-- The result of a run, and what functions see after it with the calls made so far. -/
abbrev Outcome (σ : Type) := Except EvaluationError Float × CallState σ

/-- Runs one after another, each on the machine as the run before has left it. -/
def runAll (m : Machine) : List (Task σ) → CallState σ → List (Outcome σ)
  | [], _ => []
  | task :: tasks, s =>
    let (result, left, s) := m.run task.program task.scope s
    (result, s) :: left.runAll tasks s

/-- The same runs, each on a machine of its own. -/
def runApart : List (Task σ) → CallState σ → List (Outcome σ)
  | [], _ => []
  | task :: tasks, s =>
    let (result, s) := task.program.evaluate task.scope s
    (result, s) :: runApart tasks s

/-- Whatever was run on a machine before, and however it ended, every run comes to the result and
makes the calls that it would on a machine of its own. -/
theorem reuse_invisible (m : Machine) (tasks : List (Task σ)) (s : CallState σ) :
    m.runAll tasks s = runApart tasks s := by
  induction tasks generalizing m s with
  | nil => rfl
  | cons task tasks ih =>
    have hrun := m.run_eq_evaluate task.program task.scope s
    rw [runAll, runApart, ← hrun]
    exact congrArg _ (ih _ _)

/-- The first run fails with a number on the stack, the second with a value in a slot and that number
still on the stack; the third finds neither. -/
example :
    let functions : Table (Function Unit) := .empty true
    let scope (bindings : Bindings) : Scope Unit := ⟨functions, .empty true, bindings⟩
    let program (t : Tree) : Program Unit := t.compile functions
    let s : CallState Unit := ⟨(), ⟨[], 0⟩, []⟩
    let first := fresh.run (program (.binary .add (.integer 1) (.call "f" [] true))) (scope []) s
    let second := first.2.1.run (program (.binary .add (.var "x") (.var "y")))
      (scope [("x", 2)]) first.2.2
    let third := second.2.1.run (program (.negate (.var "y"))) (scope [("y", 3)]) second.2.2
    (first.2.1.stack, second.2.1.stack, second.2.1.slots.toList, third.2.1.stack) =
      ([1], [1], [2], []) ∧
      (first.1.toOption, second.1.toOption, third.1.toOption) = (none, none, some (-3)) := by
  decide +kernel

end Machine

end FormulaEngine
