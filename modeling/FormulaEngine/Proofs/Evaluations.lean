import FormulaEngine.Evaluation
import FormulaEngine.Proofs.TreePasses

/-!
Evaluation as a recursion over trees. The arguments of a node are evaluated from left to
right and then the node; a computation maps the calls made so far to its result and the
calls made after it, and one that fails leaves out what would follow.
-/
namespace FormulaEngine

namespace Evaluation

variable {ε τ α β : Type}

theorem pure_apply (x : α) (s : τ) : (pure x : ExceptT ε (StateM τ) α) s = (.ok x, s) := rfl

theorem bind_apply (x : ExceptT ε (StateM τ) α) (f : α → ExceptT ε (StateM τ) β) (s : τ) :
    (x >>= f) s =
      match x s with
      | (.ok a, s) => f a s
      | (.error e, s) => (.error e, s) := by
  change (match x s with | (r, s) => ExceptT.bindCont f r s) = _
  rcases x s with ⟨r, s⟩
  cases r <;> rfl

end Evaluation

variable {σ : Type}

namespace Tree

theorem evaluate_eq_passM (t : Tree) (scope : Scope σ) :
    t.evaluate scope = t.passM (Node.evaluate scope) := by
  unfold evaluate
  rw [runNodes_postorder]
  simp

theorem evaluate_eq (t : Tree) (scope : Scope σ) :
    t.evaluate scope =
      t.children.mapM (fun child => child.evaluate scope) >>= t.root.evaluate scope := by
  simp only [evaluate_eq_passM]
  exact t.passM_eq _

theorem evaluate_of_literal? {t : Tree} {x : Float} (h : t.literal? = some x)
    (scope : Scope σ) : t.evaluate scope = pure x := by
  cases t <;> simp only [literal?, Option.some.injEq, reduceCtorEq] at h
  all_goals
    subst h
    rfl

/-- The values of literals. -/
def literalValues (ts : List Tree) : List Float := ts.filterMap literal?

theorem mapM_evaluate_of_literals {ts : List Tree} (h : ts.all isLiteral = true)
    (scope : Scope σ) :
    ts.mapM (fun t => t.evaluate scope) = pure (literalValues ts) := by
  induction ts with
  | nil => rfl
  | cons t ts ih =>
    simp only [List.all_cons, Bool.and_eq_true, isLiteral] at h
    obtain ⟨x, hx⟩ := Option.isSome_iff_exists.mp h.1
    have hvalues : literalValues (t :: ts) = x :: literalValues ts := by
      simp [literalValues, hx]
    rw [hvalues, List.mapM_cons, ih h.2, evaluate_of_literal? hx scope]
    rfl

/-- A node with literals for arguments has its value from theirs. -/
theorem evaluate_of_literals {t : Tree} (h : t.children.all isLiteral = true) (scope : Scope σ) :
    t.evaluate scope = t.root.evaluate scope (literalValues t.children) := by
  rw [evaluate_eq, mapM_evaluate_of_literals h, pure_bind]

end Tree

namespace Scope

/-- Whether a name has a value, as a variable or as a constant. -/
def defines (scope : Scope σ) (name : String) : Bool :=
  (scope.bindings.lookup name).isSome || scope.constants.contains name

theorem variable_of_defines {scope : Scope σ} {name : String} (h : scope.defines name = true) :
    ∃ value, scope.variable name = .ok value := by
  unfold defines Table.contains at h
  unfold Scope.variable
  cases hbinding : scope.bindings.lookup name with
  | some value => exact ⟨value, rfl⟩
  | none =>
    cases hconstant : scope.constants.get? name with
    | some constant => exact ⟨constant.value, rfl⟩
    | none => simp [hbinding, hconstant] at h

theorem variable_of_not_defines {scope : Scope σ} {name : String}
    (h : scope.defines name = false) :
    scope.variable name = .error (.variableNotDefined name) := by
  simp only [defines, Table.contains, Bool.or_eq_false_iff, Option.isSome_eq_false_iff,
    Option.isNone_iff_eq_none] at h
  simp [Scope.variable, h.1, h.2]

end Scope

namespace Node

/-- The name of a node that is a variable. -/
def variableName? : Node → Option String
  | var name => some name
  | _ => none

/-- The name of the function that a node calls. -/
def calleeName? : Node → Option String
  | call name _ _ => some name
  | _ => none

/-- A node without a name has a value that follows from its arguments. -/
theorem exists_value {node : Node} (hvar : node.variableName? = none)
    (hcall : node.calleeName? = none) (arguments : List Float) :
    ∃ value, ∀ scope : Scope σ, node.evaluate scope arguments = pure value := by
  cases node with
  | integer value => exact ⟨_, fun _ => rfl⟩
  | float value => exact ⟨_, fun _ => rfl⟩
  | var name => cases hvar
  | negate => rcases arguments with _ | ⟨x, _ | ⟨y, rest⟩⟩ <;> exact ⟨_, fun _ => rfl⟩
  | binary op =>
    rcases arguments with _ | ⟨x, _ | ⟨y, _ | ⟨z, rest⟩⟩⟩ <;> exact ⟨_, fun _ => rfl⟩
  | call name argumentCount idempotent => cases hcall

/-- A node fails for a variable without a value and for a function that is not there; nothing
else does. -/
theorem evaluate_cases (scope : Scope σ) (node : Node) (arguments : List Float)
    (s : CallState σ) :
    (∃ name, node.variableName? = some name ∧ scope.defines name = false ∧
      node.evaluate scope arguments s = (.error (.variableNotDefined name), s)) ∨
    ((∀ name, node.variableName? = some name → scope.defines name = true) ∧
      ((∃ name, node.calleeName? = some name ∧ scope.functions.contains name = false ∧
        node.evaluate scope arguments s = (.error (.unknownFunction name), s)) ∨
      ∃ value s', node.evaluate scope arguments s = (.ok value, s'))) := by
  cases hvar : node.variableName? with
  | some name =>
    obtain rfl : node = var name := by
      cases node <;> simp_all [variableName?]
    by_cases h : scope.defines name = true
    · obtain ⟨value, hvalue⟩ := Scope.variable_of_defines h
      refine Or.inr ⟨fun other hother => ?_, Or.inr ⟨value, s, ?_⟩⟩
      · cases hother
        exact h
      · simp only [Node.evaluate, hvalue]
        rfl
    · have hnot : scope.defines name = false := by simpa using h
      refine Or.inl ⟨name, rfl, hnot, ?_⟩
      simp only [Node.evaluate, Scope.variable_of_not_defines hnot]
      rfl
  | none =>
    refine Or.inr ⟨fun other hother => (Option.some_ne_none other hother.symm).elim, ?_⟩
    cases hcall : node.calleeName? with
    | none =>
      obtain ⟨value, hvalue⟩ := exists_value (σ := σ) hvar hcall arguments
      exact Or.inr ⟨value, s, by rw [hvalue]; rfl⟩
    | some name =>
      obtain ⟨argumentCount, idempotent, rfl⟩ : ∃ n i, node = call name n i := by
        cases node <;> simp_all [calleeName?]
      cases h : scope.functions.get? name with
      | none =>
        refine Or.inl ⟨name, rfl, by simp [Table.contains, h], ?_⟩
        simp only [Node.evaluate, Table.call, h]
        rfl
      | some f =>
        refine Or.inr ⟨(f.invoke arguments s).1, (f.invoke arguments s).2, ?_⟩
        simp only [Node.evaluate, Table.call, h]
        rfl

end Node

end FormulaEngine
