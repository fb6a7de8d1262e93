import FormulaEngine.Proofs.FittingCalls
import FormulaEngine.Proofs.FoldingSoundness

/-!
What folding leaves of a tree. It never fails, since it evaluates only nodes whose operands are
known and whose function is there; and each node of its result was a node of the tree already or
is a literal.
-/
namespace FormulaEngine

variable {σ : Type}

namespace Tree

variable {functions : Table (Function σ)} {t : Tree}

theorem fold_eq_passM (mode : ExecutionMode) (functions : Table (Function σ))
    (constants : Table Constant) (t : Tree) :
    t.fold mode functions constants = t.passM (foldNode mode functions constants) := by
  rw [fold_eq, runNodes_postorder, map_eq_pure_bind, bind_assoc]
  exact bind_pure _

/-- A node that can be folded has a value. -/
theorem exists_value_of_isFoldable (h : t.isFoldable functions = true) (constants : Table Constant)
    (s : CallState σ) :
    ∃ value s', t.root.evaluate ⟨functions, constants, []⟩ (literalValues t.children) s =
      (.ok value, s') := by
  obtain ⟨-, hvar, hcallee⟩ := foldable_cases h
  rcases t.root.evaluate_cases ⟨functions, constants, []⟩ (literalValues t.children) s with
    ⟨name, hname, -⟩ | ⟨-, ⟨name, hname, hmissing, -⟩ | hvalue⟩
  · cases hvar.symm.trans hname
  · rcases hcallee with hnone | ⟨callee, n, f, hroot, hget, -⟩
    · cases hnone.symm.trans hname
    · rw [hroot] at hname
      cases hname
      simp [Table.contains, hget] at hmissing
  · exact hvalue

/-- Folding a node leaves the node or a literal. -/
theorem foldNode_cases (mode : ExecutionMode) (functions : Table (Function σ))
    (constants : Table Constant) {node : Node} {arguments : List Tree}
    (hlength : arguments.length = node.arity) (hsmall : mode = .compiled → node.arity + 1 < 2 ^ 28)
    (s : FoldingState σ) :
    ∃ u s', foldNode mode functions constants node arguments s = (.ok u, s') ∧
      ((u.root = node ∧ u.children = arguments) ∨ ∃ x, u = .float x) := by
  obtain ⟨t, ht⟩ := exists_build? hlength
  obtain ⟨rfl, rfl⟩ := root_eq_of_build? ht
  rw [← hlength] at hsmall
  by_cases hfoldable : t.isFoldable functions = true
  · obtain ⟨value, calls, hvalue⟩ := exists_value_of_isFoldable hfoldable constants s.calls
    exact ⟨.float value, _, foldNode_of_isFoldable hsmall hfoldable hvalue, .inr ⟨value, rfl⟩⟩
  · rw [foldNode_of_not_isFoldable (Bool.eq_false_iff.mpr hfoldable)]
    by_cases hzero : t.isZeroProduct = true
    · rw [if_pos hzero]
      exact ⟨.float 0, ⟨s.calls, .zeroProduct :: s.replacements⟩, rfl, .inr ⟨0, rfl⟩⟩
    · rw [if_neg hzero]
      exact ⟨t, s, rfl, .inl ⟨rfl, rfl⟩⟩

/-- Whether all nodes of a tree are nodes of another tree or literals. -/
def LeftOf (t u : Tree) : Prop := ∀ node ∈ u.postorder, node ∈ t.postorder ∨ ∃ x, node = .float x

theorem leftOf_float (t : Tree) (x : Float) : t.LeftOf (.float x) :=
  forall_mem_postorder.mpr ⟨.inr ⟨x, rfl⟩, nofun⟩

/-- What holds while the nodes of a tree are folded: those to come are its own, what waits is left
of it, and is no larger than what was read for it. -/
structure Remains (t : Tree) (rest : List Node) (stack : List Tree) : Prop where
  nodes : ∀ node ∈ rest, node ∈ t.postorder
  leftOf : ∀ u ∈ stack, t.LeftOf u
  size : (stack.map fun u => u.postorder.length).sum + rest.length ≤ t.postorder.length

theorem Remains.foldNode {mode : ExecutionMode} {functions : Table (Function σ)}
    {constants : Table Constant} {node : Node} {rest : List Node} {stack : List Tree}
    (h : t.Remains (node :: rest) stack) (harity : node.arity ≤ stack.length)
    (hsmall : mode = .compiled → t.postorder.length < 2 ^ 28) (s : FoldingState σ) :
    Yields (fun u _ => t.Remains rest (u :: stack.drop node.arity)) (fun _ => False)
      (foldNode mode functions constants node (stack.take node.arity).reverse s) := by
  obtain ⟨hnodes, hstack, hsize⟩ := h
  rw [List.forall_mem_cons] at hnodes
  have hlt := arity_lt_of_mem_postorder hnodes.1
  obtain ⟨u, s', hfold, hu⟩ := foldNode_cases mode functions constants
    (length_reverse_take harity) (fun hmode => by have := hsmall hmode; omega) s
  rw [hfold]
  refine ⟨hnodes.2, List.forall_mem_cons.mpr ⟨?_, fun v hv => ?_⟩, ?_⟩
  · rcases hu with ⟨hroot, hchildren⟩ | ⟨x, rfl⟩
    · refine forall_mem_postorder.mpr ⟨.inl (hroot ▸ hnodes.1), fun child hchild => ?_⟩
      rw [hchildren, List.mem_reverse] at hchild
      exact hstack child (List.mem_of_mem_take hchild)
    · exact t.leftOf_float x
  · exact hstack v (List.mem_of_mem_drop hv)
  -- The node itself counts once, and its arguments leave the stack.
  · have hle : u.postorder.length ≤
        ((stack.take node.arity).reverse.map fun u => u.postorder.length).sum + 1 := by
      rcases hu with ⟨-, hchildren⟩ | ⟨x, rfl⟩
      · rw [postorder_eq, List.length_append, List.length_flatMap, hchildren]
        exact Nat.le_refl _
      · exact Nat.le_add_left 1 _
    have hsplit := sum_length_postorder_take_drop stack node.arity
    simp only [List.map_cons, List.sum_cons, List.length_cons] at hsize ⊢
    omega

/-- Folding succeeds, and adds nothing to a tree but literals in the place of other nodes. -/
theorem exists_fold (mode : ExecutionMode) (functions : Table (Function σ))
    (constants : Table Constant) (t : Tree)
    (hsmall : mode = .compiled → t.postorder.length < 2 ^ 28) (s : FoldingState σ) :
    ∃ u s', t.fold mode functions constants s = (.ok u, s') ∧ t.LeftOf u ∧
      u.postorder.length ≤ t.postorder.length := by
  have hstep : ∀ node rest stack (s : FoldingState σ), node.arity ≤ stack.length →
      t.Remains (node :: rest) stack →
      Yields (fun u _ => t.Remains rest (u :: stack.drop node.arity)) (fun _ => False)
        (foldNode mode functions constants node (stack.take node.arity).reverse s) :=
    fun _ _ _ s harity hremains => hremains.foldNode harity hsmall s
  have hfit : Node.Fit ([] : List Tree).length t.postorder := t.fit_postorder
  have hpass : Yields
      (fun u _ => t.LeftOf u ∧ u.postorder.length ≤ t.postorder.length) (fun _ => False)
      (t.fold mode functions constants s) := by
    refine (runNodes_invariant (I := fun rest stack _ => t.Remains rest stack) hstep hfit
      ⟨fun _ h => h, nofun, by simp⟩).bind ?_
    rintro stack s ⟨-, hstack, hsize⟩
    cases stack with
    | nil => exact ⟨t.leftOf_float _, List.length_pos_of_mem t.root_mem_postorder⟩
    | cons u stack =>
      simp only [List.map_cons, List.sum_cons, List.length_nil] at hsize
      have hle : u.postorder.length ≤ t.postorder.length := by omega
      exact ⟨hstack u List.mem_cons_self, hle⟩
  revert hpass
  rcases t.fold mode functions constants s with ⟨e | u, s'⟩ <;> intro hpass
  · exact hpass.elim
  · exact ⟨u, s', rfl, hpass⟩

end Tree

end FormulaEngine
