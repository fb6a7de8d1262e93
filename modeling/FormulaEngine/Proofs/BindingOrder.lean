import FormulaEngine.Proofs.DeterminateEvaluation
import FormulaEngine.Proofs.LetterCase

/-!
Bindings come without an order. An engine goes through those that it is given in the one in which it
happens to find them, and it may be another one the next time, and in another engine. As long as no
two names come to the same and one of them at most is forbidden, this shows in no answer.
-/
namespace FormulaEngine

variable {σ : Type}

section Evaluations

variable {scope scope' : Scope σ} (hfunctions : scope'.functions = scope.functions)
  (hvariable : ∀ name, scope'.variable name = scope.variable name)
include hfunctions hvariable

theorem Node.evaluate_congr : Node.evaluate scope' = Node.evaluate scope := by
  funext node arguments
  unfold Node.evaluate
  rw [hfunctions]
  split <;> first | rfl | rw [hvariable]

/-- An evaluation looks at bindings and constants for the values of variables only. -/
theorem Evaluator.evaluate_congr (e : Evaluator σ) : e.evaluate scope' = e.evaluate scope := by
  cases e with
  | interpreted t =>
    unfold Evaluator.evaluate Tree.evaluate
    dsimp only
    rw [Node.evaluate_congr hfunctions hvariable]
  | compiled program =>
    unfold Evaluator.evaluate Program.evaluate Machine.run
    dsimp only
    rw [Machine.resolve_congr fun name _ => hvariable name, hfunctions]

end Evaluations

namespace Engine

theorem evaluateNormalized_congr {bindings bindings' : Bindings}
    (hlookup : ∀ name, bindings'.lookup name = bindings.lookup name) (φ : Formula σ) :
    evaluateNormalized φ bindings' = evaluateNormalized φ bindings := by
  funext s
  have hevaluate : φ.evaluator.evaluate
      ⟨s.engine.functions, φ.ownConstants.getD s.engine.constants, bindings'⟩ =
      φ.evaluator.evaluate
        ⟨s.engine.functions, φ.ownConstants.getD s.engine.constants, bindings⟩ := by
    refine Evaluator.evaluate_congr ?_ (fun name => ?_) φ.evaluator
    · rfl
    · rw [Scope.variable, Scope.variable, hlookup]
  unfold evaluateNormalized
  dsimp only
  rw [hevaluate]

/-- Whether a request is another one but for the order of bindings. Where that is not the same, the
names of the bindings differ, as the engine knows them, and one of them at most is forbidden if the
engine looks for such names. -/
inductive Reordered (e : Engine σ) : Request σ → Request σ → Prop
  | same (request : Request σ) : Reordered e request request
  | calculate (formula : String) {bindings bindings' : Bindings} (hperm : bindings'.Perm bindings)
      (hnodup : ((e.normalize bindings).map Prod.fst).Nodup)
      (hone : (e.complaints (e.normalize bindings)).length ≤ 1) :
      Reordered e (.calculate formula bindings) (.calculate formula bindings')
  | evaluate (handle : Nat) {bindings bindings' : Bindings} (hperm : bindings'.Perm bindings)
      (hnodup : ((e.normalize bindings).map Prod.fst).Nodup) :
      Reordered e (.evaluate handle bindings) (.evaluate handle bindings')

section Actions

variable {s : EngineState σ} {bindings bindings' : Bindings} (hperm : bindings'.Perm bindings)
  (hnodup : ((s.engine.normalize bindings).map Prod.fst).Nodup)
include hperm hnodup

theorem evaluate_of_perm (φ : Formula σ) : evaluate φ bindings' s = evaluate φ bindings s := by
  have hnormalized : (s.engine.normalize bindings').Perm (s.engine.normalize bindings) :=
    hperm.map _
  rw [evaluate, evaluate, evaluateNormalized_congr (lookup_eq_of_perm hnormalized hnodup)]

theorem calculate_of_perm (hone : (s.engine.complaints (s.engine.normalize bindings)).length ≤ 1)
    (formula : String) : calculate formula bindings' s = calculate formula bindings s := by
  have hnormalized : (s.engine.normalize bindings').Perm (s.engine.normalize bindings) :=
    hperm.map _
  unfold calculate
  dsimp only
  rw [s.engine.nameError?_eq_of_perm hnormalized hone,
    funext (evaluateNormalized_congr (lookup_eq_of_perm hnormalized hnodup))]

end Actions

end Engine

namespace Session

open Engine

variable {s : Session σ} {request request' : Request σ} {requests requests' : List (Request σ)}

/-- An engine does not tell the order of bindings. -/
theorem handle_of_reordered (h : s.state.engine.Reordered request request') :
    s.handle request' = s.handle request := by
  cases h with
  | same => rfl
  | calculate formula hperm hnodup hone =>
    simp only [Session.handle, perform, calculate_of_perm hperm hnodup hone]
  | evaluate handle hperm hnodup =>
    simp only [Session.handle, perform, evaluate_of_perm hperm hnodup]

/-- Whether requests are others but for the order of bindings, each for the engine that has answered
those before. -/
inductive Reordered : Session σ → List (Request σ) → List (Request σ) → Prop
  | nil (s : Session σ) : s.Reordered [] []
  | cons {s : Session σ} {request request' : Request σ} {requests requests' : List (Request σ)}
      (hrequest : s.state.engine.Reordered request request')
      (hrest : (s.handle request).2.Reordered requests requests') :
      s.Reordered (request :: requests) (request' :: requests')

theorem Reordered.refl (s : Session σ) (requests : List (Request σ)) :
    s.Reordered requests requests := by
  induction requests generalizing s with
  | nil => exact .nil s
  | cons request requests ih => exact .cons (.same request) (ih _)

namespace Reordered

theorem append (h : s.Reordered requests requests') {last last' : List (Request σ)}
    (hlast : (s.after requests).Reordered last last') :
    s.Reordered (requests ++ last) (requests' ++ last') := by
  induction h with
  | nil => exact hlast
  | cons hrequest _ ih => exact .cons hrequest (ih hlast)

theorem answers_eq (h : s.Reordered requests requests') :
    s.answers requests' = s.answers requests := by
  induction h with
  | nil => rfl
  | cons hrequest _ ih => rw [Session.answers, Session.answers, handle_of_reordered hrequest, ih]

theorem forall_mem {P : Request σ → Prop} (h : s.Reordered requests requests')
    (hP : ∀ {e : Engine σ} {request request' : Request σ}, e.Reordered request request' →
      P request → P request') (hrequests : ∀ request ∈ requests, P request) :
    ∀ request ∈ requests', P request := by
  induction h with
  | nil => exact hrequests
  | cons hrequest _ ih =>
    rw [List.forall_mem_cons] at hrequests ⊢
    exact ⟨hP hrequest hrequests.1, ih hrequests.2⟩

theorem along {P : Session σ → Request σ → Prop} (h : s.Reordered requests requests')
    (hP : ∀ {s : Session σ} {request request' : Request σ},
      s.state.engine.Reordered request request' → P s request → P s request')
    (hrequests : s.Along P requests) : s.Along P requests' := by
  induction h with
  | nil => trivial
  | cons hrequest _ ih =>
    rw [Along, handle_of_reordered hrequest]
    exact ⟨hP hrequest hrequests.1, ih hrequests.2⟩

end Reordered

end Session

end FormulaEngine
