import FormulaEngine.Proofs.Evaluations

/-!
Evaluation is a recursion from left to right. The walk over the nodes of a tree with a stack of
values comes to what the recursion over the tree comes to. Every node finds the values of its
arguments on the stack, one value is left in the end, and a walk that fails looks at nothing that
comes after the node where it fails.
-/
namespace FormulaEngine

variable {σ : Type}

namespace Tree

mutual

/-- The value of a tree by recursion, or the first failure on the way to it, and what is left by the
calls made for it. -/
def value (scope : Scope σ) : Tree → CallState σ → Except EvaluationError Float × CallState σ
  | integer n, s => (.ok (integerValue n), s)
  | float x, s => (.ok x, s)
  | var name, s =>
    match scope.bindings.lookup name with
    | some x => (.ok x, s)
    | none =>
      match scope.constants.get? name with
      | some constant => (.ok constant.value, s)
      | none => (.error (.variableNotDefined name), s)
  | negate argument, s =>
    match argument.value scope s with
    | (.ok x, s) => (.ok (-x), s)
    | (.error e, s) => (.error e, s)
  | binary op left right, s =>
    match left.value scope s with
    | (.ok x, s) =>
      match right.value scope s with
      | (.ok y, s) => (.ok (op.value x y), s)
      | (.error e, s) => (.error e, s)
    | (.error e, s) => (.error e, s)
  | call name arguments _, s =>
    match values scope arguments s with
    | (.ok xs, s) =>
      match scope.functions.get? name with
      | some f => (.ok (f.invoke xs s).1, (f.invoke xs s).2)
      | none => (.error (.unknownFunction name), s)
    | (.error e, s) => (.error e, s)

/-- The values of trees from left to right, up to the first failure. -/
def values (scope : Scope σ) :
    List Tree → CallState σ → Except EvaluationError (List Float) × CallState σ
  | [], s => (.ok [], s)
  | t :: ts, s =>
    match t.value scope s with
    | (.ok x, s) =>
      match values scope ts s with
      | (.ok xs, s) => (.ok (x :: xs), s)
      | (.error e, s) => (.error e, s)
    | (.error e, s) => (.error e, s)

end

theorem mapM_evaluate_eq_values {scope : Scope σ} {ts : List Tree}
    (h : ∀ t ∈ ts, ∀ s, t.evaluate scope s = t.value scope s) (s : CallState σ) :
    ts.mapM (fun t => t.evaluate scope) s = values scope ts s := by
  induction ts generalizing s with
  | nil => rw [values]; rfl
  | cons t ts ih =>
    rw [List.mapM_cons, Evaluation.bind_apply, h t List.mem_cons_self, values]
    rcases t.value scope s with ⟨e | x, s⟩
    · rfl
    · dsimp only
      rw [Evaluation.bind_apply, ih fun u hu => h u (List.mem_cons_of_mem t hu)]
      rcases values scope ts s with ⟨e | xs, s⟩ <;> rfl

theorem evaluate_eq_value (t : Tree) (scope : Scope σ) (s : CallState σ) :
    t.evaluate scope s = t.value scope s := by
  induction t using children_induction generalizing s with
  | step t ih =>
    rw [evaluate_eq, Evaluation.bind_apply, mapM_evaluate_eq_values ih]
    cases t with
    | integer n | float x =>
      simp only [children, values, value]
      rfl
    | var name =>
      simp only [children, values, value, root, Node.evaluate, Scope.variable]
      cases scope.bindings.lookup name with
      | some x => rfl
      | none => cases scope.constants.get? name <;> rfl
    | negate argument =>
      simp only [children, values, value]
      rcases argument.value scope s with ⟨e | x, s⟩ <;> rfl
    | binary op left right =>
      simp only [children, values, value]
      rcases left.value scope s with ⟨e | x, s⟩
      · rfl
      · dsimp only
        rcases right.value scope s with ⟨e | y, s⟩ <;> rfl
    | call name arguments idempotent =>
      simp only [children, value, root, Node.evaluate, Table.call]
      rcases values scope arguments s with ⟨e | xs, s⟩
      · rfl
      · dsimp only
        cases scope.functions.get? name <;> rfl

end Tree

section Walks

variable {ε τ α : Type} {step : Node → List α → ExceptT ε (StateM τ) α}

/-- Nodes that fit still fit after some of them. -/
theorem Node.Fit.of_runNodes {nodes rest : List Node} {stack left : List α} {s s' : τ}
    (h : Node.Fit stack.length (nodes ++ rest))
    (hrun : Tree.runNodes step nodes stack s = (.ok left, s')) : Node.Fit left.length rest := by
  induction nodes generalizing stack s with
  | nil =>
    cases hrun
    exact h
  | cons node nodes ih =>
    obtain ⟨-, hnodes⟩ := h
    rw [Tree.runNodes, Evaluation.bind_apply] at hrun
    revert hrun
    rcases step node (stack.take node.arity).reverse s with ⟨e | x, s₁⟩ <;> intro hrun
    · cases hrun
    · refine ih ?_ hrun
      rwa [List.length_cons, List.length_drop]

/-- A walk that fails does so at one of its nodes, after those before it went well. -/
theorem Tree.exists_failure {nodes : List Node} {stack : List α} {s s' : τ} {e : ε}
    (h : runNodes step nodes stack s = (.error e, s')) :
    ∃ before node after left s₁, nodes = before ++ node :: after ∧
      runNodes step before stack s = (.ok left, s₁) ∧
      step node (left.take node.arity).reverse s₁ = (.error e, s') := by
  induction nodes generalizing stack s with
  | nil => cases h
  | cons node nodes ih =>
    rw [runNodes, Evaluation.bind_apply] at h
    cases hnode : step node (stack.take node.arity).reverse s with
    | mk result s₁ =>
      rw [hnode] at h
      cases result with
      | error e' =>
        cases h
        exact ⟨[], node, nodes, stack, s, rfl, rfl, hnode⟩
      | ok x =>
        obtain ⟨before, last, after, left, s₂, rfl, hbefore, hlast⟩ := ih h
        refine ⟨node :: before, last, after, left, s₂, rfl, ?_, hlast⟩
        rw [runNodes, Evaluation.bind_apply, hnode]
        exact hbefore

end Walks

/-- Whether two scopes mean the same by the names in some nodes. -/
structure Scope.AgreesOn (scope scope' : Scope σ) (nodes : List Node) : Prop where
  values : ∀ name, .var name ∈ nodes → scope.variable name = scope'.variable name
  callees : ∀ name n idempotent, .call name n idempotent ∈ nodes →
    scope.functions.get? name = scope'.functions.get? name

theorem Scope.AgreesOn.evaluate {scope scope' : Scope σ} {nodes : List Node}
    (h : scope.AgreesOn scope' nodes) {node : Node} (hnode : node ∈ nodes) :
    node.evaluate scope = node.evaluate scope' := by
  funext arguments
  have hplain : node.variableName? = none → node.calleeName? = none →
      node.evaluate scope arguments = node.evaluate scope' arguments := by
    intro hvar hcallee
    obtain ⟨value, hvalue⟩ := Node.exists_value (σ := σ) hvar hcallee arguments
    rw [hvalue, hvalue]
  cases node with
  | var name => simp only [Node.evaluate, h.values name hnode]
  | call name n idempotent =>
    simp only [Node.evaluate, Table.call, h.callees name n idempotent hnode]
  | _ => exact hplain rfl rfl

theorem Scope.AgreesOn.evaluate_tree {scope scope' : Scope σ} {t : Tree}
    (h : scope.AgreesOn scope' t.postorder) : t.evaluate scope = t.evaluate scope' := by
  unfold Tree.evaluate
  rw [Tree.runNodes_congr fun node hnode => h.evaluate hnode]

/-- A node that fails calls nothing. -/
theorem Node.evaluate_error {scope : Scope σ} {node : Node} {arguments : List Float}
    {s s' : CallState σ} {e : EvaluationError}
    (h : node.evaluate scope arguments s = (.error e, s')) : s' = s := by
  rcases node.evaluate_cases scope arguments s with
    ⟨name, -, -, hresult⟩ | ⟨-, ⟨name, -, -, hresult⟩ | ⟨value, s₁, hresult⟩⟩
  · exact (congrArg Prod.snd (h.symm.trans hresult))
  · exact (congrArg Prod.snd (h.symm.trans hresult))
  · cases h.symm.trans hresult

theorem Tree.runNodes_evaluate_postorder (t : Tree) (scope : Scope σ) :
    runNodes (Node.evaluate scope) t.postorder [] = t.evaluate scope >>= fun x => pure [x] := by
  rw [runNodes_postorder, ← evaluate_eq_passM, map_eq_pure_bind]

theorem Tree.evaluate_of_failure {t : Tree} {scope : Scope σ} {before after : List Node}
    {node : Node} {stack : List Float} {s s₁ s' : CallState σ} {e : EvaluationError}
    (hnodes : t.postorder = before ++ node :: after)
    (hbefore : runNodes (Node.evaluate scope) before [] s = (.ok stack, s₁))
    (hnode : node.evaluate scope (stack.take node.arity).reverse s₁ = (.error e, s')) :
    t.evaluate scope s = (.error e, s') := by
  rw [evaluate, hnodes, runNodes_append, bind_assoc, Evaluation.bind_apply, hbefore]
  dsimp only
  rw [runNodes, bind_assoc, Evaluation.bind_apply, hnode]

/-- The walk over a tree comes to the value that the recursion over the tree comes to, or to its
first failure, after the same calls. Every node finds its arguments on the stack, and in the end
there is one value on it. A walk that fails has made no call since its nodes before the failing one,
and what names mean that come later makes no difference to it. -/
theorem evaluate_left_to_right (t : Tree) (scope : Scope σ) (s : CallState σ) :
    let walk (nodes : List Node) : Except EvaluationError (List Float) × CallState σ :=
      Tree.runNodes (Node.evaluate scope) nodes [] s
    t.evaluate scope s = t.value scope s ∧
    (∀ before node after, t.postorder = before ++ node :: after →
      ∀ stack s', walk before = (.ok stack, s') → node.arity ≤ stack.length) ∧
    (∀ stack s', walk t.postorder = (.ok stack, s') →
      ∃ x, stack = [x] ∧ t.evaluate scope s = (.ok x, s')) ∧
    ∀ e s', t.evaluate scope s = (.error e, s') →
      ∃ before node after stack, t.postorder = before ++ node :: after ∧
        walk before = (.ok stack, s') ∧
        node.evaluate scope (stack.take node.arity).reverse s' = (.error e, s') ∧
        ∀ scope' : Scope σ, scope.AgreesOn scope' (before ++ [node]) →
          t.evaluate scope' s = (.error e, s') := by
  intro walk
  refine ⟨t.evaluate_eq_value scope s, fun before node after hnodes stack s' hwalk => ?_,
    fun stack s' hwalk => ?_, fun e s' herror => ?_⟩
  · have hfit : Node.Fit ([] : List Float).length (before ++ node :: after) :=
      hnodes ▸ t.fit_postorder
    exact (hfit.of_runNodes hwalk).1
  · dsimp only [walk] at hwalk
    rw [t.runNodes_evaluate_postorder, Evaluation.bind_apply] at hwalk
    revert hwalk
    rcases t.evaluate scope s with ⟨e | x, s₁⟩ <;> intro hwalk <;> cases hwalk
    exact ⟨x, rfl, rfl⟩
  · have hfailed : walk t.postorder = (.error e, s') := by
      dsimp only [walk]
      rw [t.runNodes_evaluate_postorder, Evaluation.bind_apply, herror]
    obtain ⟨before, node, after, stack, s₁, hnodes, hbefore, hnode⟩ := Tree.exists_failure hfailed
    obtain rfl := Node.evaluate_error hnode
    refine ⟨before, node, after, stack, hnodes, hbefore, hnode, fun scope' hagrees => ?_⟩
    rw [hagrees.evaluate (List.mem_append_right _ List.mem_cons_self)] at hnode
    refine Tree.evaluate_of_failure hnodes ?_ hnode
    rw [← hbefore]
    exact congrFun (Tree.runNodes_congr (fun other hother =>
      (hagrees.evaluate (List.mem_append_left _ hother)).symm) []) s

/-- The right operand is evaluated although the left one alone tells the result. -/
example :
    let t : Tree := .binary .and (.integer 0) (.negate (.call "next" [.var "x"] true))
    let scope : Scope Unit := ⟨.empty false, .empty false, [("x", 1)]⟩
    (t.evaluate scope ⟨(), ⟨[], 0⟩, []⟩).1 = .error (.unknownFunction "next") := by
  decide +kernel

end FormulaEngine
