import FormulaEngine.Proofs.FormulaOrigins

/-!
One computation in two states that functions cannot tell apart. Folding gives the same tree in
both. Evaluating a tree in one and its program in the other gives the same result; the two leave
such states behind again, unless the walk called functions before it failed for a variable without
a value, since a program finds all values before it calls anything.
-/
namespace FormulaEngine

variable {σ : Type}

section Respects

variable {ε τ α β : Type} {R : τ → τ → Prop}

/-- Whether a computation has the same result in related states and leads to related states. -/
def Evaluation.Respects (R : τ → τ → Prop) (c : ExceptT ε (StateM τ) α) : Prop :=
  ∀ s s', R s s' → (c s).1 = (c s').1 ∧ R (c s).2 (c s').2

namespace Evaluation

theorem Respects.pure (x : α) : Respects (ε := ε) R (Pure.pure x) := fun _ _ h => ⟨rfl, h⟩

theorem Respects.bind {c : ExceptT ε (StateM τ) α} {k : α → ExceptT ε (StateM τ) β}
    (h : Respects R c) (hk : ∀ x, Respects R (k x)) : Respects R (c >>= k) := by
  intro s s' hs
  have hc := h s s' hs
  rw [bind_apply, bind_apply]
  revert hc
  rcases c s with ⟨r, t⟩
  rcases c s' with ⟨r', t'⟩
  rintro ⟨rfl : r = r', ht⟩
  cases r with
  | error e => exact ⟨rfl, ht⟩
  | ok x => exact hk x t t' ht

end Evaluation

theorem Tree.runNodes_respects {step : Node → List α → ExceptT ε (StateM τ) α}
    (hstep : ∀ node arguments, Evaluation.Respects R (step node arguments)) (nodes : List Node)
    (stack : List α) : Evaluation.Respects R (runNodes step nodes stack) := by
  induction nodes generalizing stack with
  | nil => exact .pure stack
  | cons node nodes ih => exact (hstep node _).bind fun x => ih _

end Respects

open Evaluation

/-- Folding looks only at what the functions see that it calls. -/
theorem Tree.fold_respects (mode : ExecutionMode) (functions : Table (Function σ))
    (constants : Table Constant) (t : Tree) :
    Respects (fun s s' : FoldingState σ => s.calls.Alike (· = ·) s'.calls)
      (t.fold mode functions constants) := by
  have hnote : ∀ replacement, Respects
      (fun s s' : FoldingState σ => s.calls.Alike (· = ·) s'.calls) (noteReplacement replacement) :=
    fun _ _ _ h => ⟨rfl, h⟩
  have hstep : ∀ node arguments, Respects
      (fun s s' : FoldingState σ => s.calls.Alike (· = ·) s'.calls)
      (foldNode mode functions constants node arguments) := by
    intro node arguments
    unfold foldNode TreeForm.foldNode
    dsimp only
    split
    · refine Respects.bind (fun s s' h => ?_) fun x => (hnote _).bind fun _ => .pure _
      exact Evaluator.evaluate_same (mode.prepare _ functions) ⟨functions, constants, []⟩ h
    · split
      · exact (hnote _).bind fun _ => .pure _
      · exact .pure _
  exact (runNodes_respects hstep t.postorder []).bind fun stack => .pure _

/-- A tree and the program made from it have the same result. -/
theorem Tree.evaluate_compile (t : Tree) {earlier : Table (Function σ)} (scope : Scope σ)
    (hsize : t.postorder.length < 2 ^ 28) (hfollows : scope.functions.Follows earlier)
    (hcallees : ∀ name ∈ t.callees, scope.functions.contains name = true) {s s' : CallState σ}
    (h : s.Alike (· = ·) s') :
    (t.evaluate scope s).1 = ((t.compile earlier).evaluate scope s').1 ∧
      ((∀ name, (t.evaluate scope s).1 = .error (.variableNotDefined name) →
          (t.evaluate scope s).2.Alike (· = ·) s) →
        (t.evaluate scope s).2.Alike (· = ·) ((t.compile earlier).evaluate scope s').2) := by
  have hprogram : (t.compile earlier).evaluate scope s' =
      ((Machine.fresh.run (t.compile earlier) scope s').1,
        (Machine.fresh.run (t.compile earlier) scope s').2.2) := rfl
  cases hfind : t.variableNames.find? fun name => !scope.defines name with
  | none =>
    have hdefined : ∀ name ∈ t.variableNames, scope.defines name = true := by
      simpa using List.find?_eq_none.mp hfind
    rw [hprogram, Machine.run_compile_of_defined hsize hfollows hdefined]
    obtain ⟨hresult, halike, -⟩ := t.evaluate_same scope s s' h
    exact ⟨hresult, fun _ => halike⟩
  | some name =>
    obtain ⟨hran, hleft⟩ := Machine.run_compile_of_undefined hsize earlier hfind .fresh s'
    have hnodes := (Node.find?_firstUses _ t.postorder).symm.trans hfind
    obtain ⟨e, left, hwalk, hsame⟩ := Tree.runNodes_evaluate_of_undefined hnodes [] s
    have hresult : t.evaluate scope s = (.error (.variableNotDefined name), left) := by
      rw [Tree.evaluate, bind_apply, hwalk, hsame hcallees]
    rw [hprogram, hran, hleft, hresult]
    -- The program has called nothing. The walk may have, so that it did not show is assumed.
    refine ⟨rfl, fun hkept => ?_⟩
    have hs := hkept name rfl
    exact ⟨hs.memory.trans h.memory, hs.generator.trans h.generator⟩

end FormulaEngine
