import FormulaEngine.Builtin
import FormulaEngine.Proofs.CrowdedCalls
import FormulaEngine.Proofs.DeterminateEvaluation
import FormulaEngine.Proofs.FoldedNodes
import FormulaEngine.Proofs.ReplacedFunctions

/-!
Formulas whose value is fixed when they are built. They have no variables and call only functions
that cannot be overwritten and whose results follow from their arguments. Folding leaves the literal
of their value, which is the value of every evaluation, and it gets there by evaluating every node:
a product with a zero is computed like any other.
-/
namespace FormulaEngine

variable {σ : Type}

/-- Whether the value of a node is fixed by those of its arguments. -/
def Node.Fixed (functions : Table (Function σ)) : Node → Prop
  | var _ => False
  | call name _ idempotent => idempotent = true ∧
      ∃ f, functions.get? name = some f ∧ f.overwritable = false ∧ f.Determinate
  | _ => True

namespace Evaluation

variable {α β : Type}

/-- Whether a computation always comes to the same result. -/
def Always (c : Evaluation σ α) (x : α) : Prop := ∀ s, (c s).1 = .ok x

theorem Always.bind {c : Evaluation σ α} {x : α} {k : α → Evaluation σ β} {y : β}
    (h : c.Always x) (hk : (k x).Always y) : (c >>= k).Always y := by
  intro s
  have hresult := h s
  rw [bind_apply]
  revert hresult
  rcases c s with ⟨r, s'⟩
  rintro (rfl : r = .ok x)
  exact hk s'

end Evaluation

variable {functions : Table (Function σ)}

theorem Node.Fixed.exists_value {node : Node} (h : node.Fixed functions) (arguments : List Float)
    (s₀ : CallState σ) :
    ∃ x, ∀ scope : Scope σ, scope.functions.Follows functions →
      Evaluation.Always (node.evaluate scope arguments) x := by
  cases hcallee : node.calleeName? with
  | none =>
    have hvar : node.variableName? = none := by
      cases node <;> first | rfl | exact h.elim
    obtain ⟨x, hx⟩ := Node.exists_value (σ := σ) hvar hcallee arguments
    refine ⟨x, fun scope _ s => ?_⟩
    rw [hx]
    rfl
  | some name =>
    obtain ⟨n, idempotent, rfl⟩ : ∃ n idempotent, node = .call name n idempotent := by
      cases node <;> simp_all [calleeName?]
    obtain ⟨-, f, hget, hprotected, hdeterminate⟩ := h
    refine ⟨(f.run arguments s₀).1, fun scope hfollows s => ?_⟩
    simp only [Node.evaluate, Table.call, hfollows name f hget hprotected, Function.call_apply]
    rw [hdeterminate arguments _ s₀]

namespace Tree

/-- Whether the value of a tree is fixed. -/
def Fixed (functions : Table (Function σ)) (t : Tree) : Prop :=
  ∀ node ∈ t.postorder, node.Fixed functions

theorem Fixed.variableNames_eq_nil {t : Tree} (h : t.Fixed functions) : t.variableNames = [] := by
  rw [List.eq_nil_iff_forall_not_mem]
  intro name hname
  obtain ⟨node, hnode, hvar⟩ := List.mem_filterMap.mp (Node.mem_firstUses.mp hname)
  have hfixed := h node hnode
  cases node with
  | var => exact hfixed
  | _ => cases hvar

/-- A node with literals for arguments is a literal itself, or it can be folded. -/
theorem isLiteral_or_isFoldable {t : Tree} (h : t.root.Fixed functions)
    (hliterals : t.children.all isLiteral = true) :
    t.isLiteral = true ∨ t.isFoldable functions = true := by
  cases t with
  | integer | float => exact .inl rfl
  | var => exact h.elim
  | negate argument => exact .inr (by simpa [children, isFoldable] using hliterals)
  | binary op left right => exact .inr (by simpa [children, isFoldable] using hliterals)
  | call name arguments idempotent =>
    obtain ⟨rfl, f, hget, hprotected, -⟩ := h
    refine .inr ?_
    rw [isFoldable, show arguments.all isLiteral = true from hliterals, isProtected, hget]
    simp [hprotected]

variable {mode : ExecutionMode} {constants : Table Constant}

/-- Whether folding came to the literal of a value and cut no product short on the way. -/
def FoldedTo (x : Float) (s : FoldingState σ) (u : Tree) (final : FoldingState σ) : Prop :=
  u.literal? = some x ∧
    (Replacement.zeroProduct ∈ final.replacements → Replacement.zeroProduct ∈ s.replacements)

/-- A node with literals for arguments gives way to its value, if it is not a literal already. -/
theorem foldNode_of_fixed {t : Tree} (h : t.root.Fixed functions)
    (hliterals : t.children.all isLiteral = true)
    (hsmall : mode = .compiled → t.children.length + 1 < 2 ^ 28) {x : Float}
    (hx : Evaluation.Always
      (t.root.evaluate ⟨functions, constants, []⟩ (literalValues t.children)) x)
    (s : FoldingState σ) :
    Yields (FoldedTo x s) (fun _ => False)
      (foldNode mode functions constants t.root t.children s) := by
  rcases isLiteral_or_isFoldable h hliterals with hliteral | hfoldable
  · obtain ⟨y, hy⟩ := Option.isSome_iff_exists.mp hliteral
    have hvalue := hx s.calls
    rw [← evaluate_of_literals hliterals, evaluate_of_literal? hy] at hvalue
    obtain rfl : y = x := Except.ok.inj hvalue
    have hleaf : t.isFoldable functions = false ∧ t.isZeroProduct = false := by
      cases t <;> first | exact ⟨rfl, rfl⟩ | cases hliteral
    rw [foldNode_of_not_isFoldable hleaf.1, hleaf.2, if_neg Bool.false_ne_true]
    exact ⟨hy, id⟩
  · have hvalue : t.root.evaluate ⟨functions, constants, []⟩ (literalValues t.children) s.calls =
        (.ok x, _) := Prod.ext (hx s.calls) rfl
    rw [foldNode_of_isFoldable hsmall hfoldable hvalue]
    refine ⟨rfl, fun hmem => ?_⟩
    exact (List.mem_cons.mp hmem).resolve_left nofun

/-- Whether a tree always has the same value, and is folded to it. -/
structure Settles (mode : ExecutionMode) (functions : Table (Function σ))
    (constants : Table Constant) (t : Tree) (x : Float) : Prop where
  evaluates : ∀ scope : Scope σ, scope.functions.Follows functions →
    Evaluation.Always (t.evaluate scope) x
  folds : ∀ s : FoldingState σ, Yields (FoldedTo x s) (fun _ => False)
    (t.passM (foldNode mode functions constants) s)

theorem mapM_settles {ts : List Tree} (h : ∀ t ∈ ts, ∃ x, t.Settles mode functions constants x) :
    ∃ xs : List Float,
      (∀ scope : Scope σ, scope.functions.Follows functions →
        Evaluation.Always (ts.mapM fun t => t.evaluate scope) xs) ∧
      ∀ s : FoldingState σ, Yields
        (fun us final => us.length = ts.length ∧ us.all isLiteral = true ∧ literalValues us = xs ∧
          (Replacement.zeroProduct ∈ final.replacements →
            Replacement.zeroProduct ∈ s.replacements))
        (fun _ => False) (ts.mapM (passM (foldNode mode functions constants)) s) := by
  induction ts with
  | nil => exact ⟨[], fun _ _ _ => rfl, fun s => ⟨rfl, rfl, rfl, id⟩⟩
  | cons t ts ih =>
    rw [List.forall_mem_cons] at h
    obtain ⟨⟨x, hx⟩, hall⟩ := h
    obtain ⟨xs, hevaluates, hfolds⟩ := ih hall
    refine ⟨x :: xs, fun scope hfollows => ?_, fun s => ?_⟩
    · rw [List.mapM_cons]
      exact (hx.evaluates scope hfollows).bind ((hevaluates scope hfollows).bind fun _ => rfl)
    · rw [List.mapM_cons]
      refine (hx.folds s).bind fun u s₁ hu => (hfolds s₁).bind fun us s₂ hus => ?_
      obtain ⟨hliteral, hzero⟩ := hu
      obtain ⟨hlength, hliterals, hvalues, hzeros⟩ := hus
      refine ⟨congrArg (· + 1) hlength, ?_, ?_, hzero ∘ hzeros⟩
      · rw [List.all_cons, hliterals, isLiteral, hliteral]
        rfl
      · rw [literalValues, List.filterMap_cons_some hliteral]
        exact congrArg _ hvalues

/-- A tree with a fixed value is folded to it. -/
theorem Fixed.settles {t : Tree} (h : t.Fixed functions) (constants : Table Constant)
    (hsize : mode = .compiled → t.postorder.length < 2 ^ 28) (s₀ : CallState σ) :
    ∃ x, t.Settles mode functions constants x := by
  induction t using children_induction with
  | step t ih =>
    obtain ⟨hroot, hchildren⟩ := forall_mem_postorder.mp h
    obtain ⟨xs, hevaluates, hfolds⟩ := mapM_settles fun child hchild =>
      ih child hchild (hchildren child hchild) fun hmode =>
        Nat.lt_of_le_of_lt (postorder_sublist_of_child hchild).length_le (hsize hmode)
    obtain ⟨x, hx⟩ := hroot.exists_value xs s₀
    refine ⟨x, fun scope hfollows => ?_, fun s => ?_⟩
    · rw [evaluate_eq]
      exact (hevaluates scope hfollows).bind (hx scope hfollows)
    · rw [passM_eq]
      refine (hfolds s).bind fun us s₁ ⟨hlength, hliterals, hvalues, hzeros⟩ => ?_
      obtain ⟨u, hu⟩ := exists_build? (hlength.trans t.length_children)
      obtain ⟨hroot', rfl⟩ := root_eq_of_build? hu
      rw [← hroot'] at hroot hx ⊢
      rw [← hvalues] at hx
      have hsmall : mode = .compiled → u.children.length + 1 < 2 ^ 28 := by
        intro hmode
        have := hsize hmode
        have := t.length_children_lt
        omega
      refine (foldNode_of_fixed hroot hliterals hsmall
        (hx ⟨functions, constants, []⟩ fun _ _ hget _ => hget) s₁).mono fun v final hv => ?_
      exact ⟨hv.1, hzeros ∘ hv.2⟩

end Tree

namespace Arithmetic

theorem maximum_replicate_one {count : Nat} (h : 0 < count) :
    maximum (List.replicate count 1) = 1 := by
  obtain ⟨count, rfl⟩ := Nat.exists_eq_add_of_lt h
  rw [Nat.zero_add, List.replicate_succ]
  change (List.replicate count 1).foldl larger 1 = 1
  have hlarger : larger 1 1 = 1 := by decide +kernel
  induction count with
  | zero => rfl
  | succ count ih => rw [List.replicate_succ, List.foldl_cons, hlarger, ih (Nat.succ_pos _)]

end Arithmetic

/-- A tree with a fixed value is folded to a literal of the value that the tree has in every
evaluation, in either way, whatever is registered in between and whatever the constants, bindings
and memories are. No product is cut short for a zero. A tree of which a program is made has fewer
nodes than instructions can tell apart. -/
theorem fold_of_fixed_value (mode : ExecutionMode) (functions : Table (Function σ))
    (constants : Table Constant) (t : Tree) (h : t.Fixed functions)
    (hsize : mode = .compiled → t.postorder.length < 2 ^ 28) (s : CallState σ) :
    ∃ u x final, t.fold mode functions constants ⟨s, []⟩ = (.ok u, final) ∧ u.literal? = some x ∧
      Replacement.zeroProduct ∉ final.replacements ∧
      ∀ (backend : ExecutionMode), (backend = .compiled → t.postorder.length < 2 ^ 28) →
        ∀ (registrations : List (Function σ)) (later : Table Constant) (bindings : Bindings)
          (s' : CallState σ),
          let scope : Scope σ := ⟨functions.attemptAll registrations, later, bindings⟩
          ((backend.prepare t functions).evaluate scope s').1 = .ok x := by
  obtain ⟨x, hevaluates, hfolds⟩ := h.settles constants hsize s
  have hpass : Yields (Tree.FoldedTo x ⟨s, []⟩) (fun _ => False)
      (t.fold mode functions constants ⟨s, []⟩) := by
    rw [Tree.fold_eq_passM]
    exact hfolds ⟨s, []⟩
  revert hpass
  rcases t.fold mode functions constants ⟨s, []⟩ with ⟨e | u, final⟩ <;> intro hpass
  · exact hpass.elim
  · refine ⟨u, x, final, rfl, hpass.1, fun hmem => List.not_mem_nil (hpass.2 hmem),
      fun backend hbackend registrations later bindings s' => ?_⟩
    intro scope
    have hfollows : scope.functions.Follows functions := functions.follows_attemptAll registrations
    have hdefined : ∀ name ∈ t.variableNames, scope.defines name = true := by
      rw [h.variableNames_eq_nil]
      exact List.forall_mem_nil _
    rw [backend.evaluate_prepare hbackend (fun name f => hfollows name f) hdefined]
    exact hevaluates scope hfollows s'

/-- A factor of zero does not hide that the other one is infinite. The function that is called
counts its calls, in a memory that its results do not depend on. -/
theorem fold_of_fixed_value_product :
    let twice : Function Nat :=
      ⟨⟨"twice", some 1, true, false⟩, .host fun xs calls => (2 * xs.headD 0, calls + 1)⟩
    let functions : Table (Function Nat) := ⟨false, [("twice", twice)]⟩
    let scope : Scope Nat := ⟨functions.attemptAll [⟨⟨"Twice", some 1, true, true⟩, .random⟩],
      .empty false, [("x", 1)]⟩
    let t : Tree := .binary .multiply (.call "twice" [.integer 0] true)
      (.binary .divide (.integer 1) (.integer 0))
    let s : CallState Nat := ⟨0, ⟨[], 0⟩, []⟩
    t.Fixed functions ∧ t.postorder.length < 2 ^ 28 ∧
      ∃ u final, t.fold .interpreted functions (.empty false) ⟨s, []⟩ = (.ok u, final) ∧
        u.literal? = some Binary64.nan ∧
        ((ExecutionMode.compiled.prepare t functions).evaluate scope s).1 = .ok Binary64.nan := by
  intro twice functions scope t s
  have hget : functions.get? "twice" = some twice := by
    have hlookup : functions.rows.lookup (functions.key "twice") = some twice := by
      have hkey : functions.key "twice" = "twice" := by decide +kernel
      rw [hkey]
      rfl
    exact hlookup
  have hfixed : t.Fixed functions := by
    have hcall : (Node.call "twice" 1 true).Fixed functions :=
      ⟨rfl, twice, hget, rfl, fun _ _ _ => rfl⟩
    simp only [Tree.Fixed, t, Tree.postorder, Tree.emit, Tree.emitAll, List.length_singleton,
      List.forall_mem_cons]
    exact ⟨trivial, hcall, trivial, trivial, trivial, trivial, List.forall_mem_nil _⟩
  have hsize : t.postorder.length < 2 ^ 28 := by decide
  obtain ⟨u, x, final, hfold, hliteral, -, hevaluates⟩ :=
    fold_of_fixed_value .interpreted functions (.empty false) t hfixed (absurd · (by decide)) s
  have hvalue : (t.fold .interpreted functions (.empty false) ⟨s, []⟩).1.toOption.bind
      Tree.literal? = some Binary64.nan := by
    decide +kernel
  rw [hfold] at hvalue
  obtain rfl : x = Binary64.nan := Option.some.inj (hliteral.symm.trans hvalue)
  exact ⟨hfixed, hsize, u, final, hfold, hliteral,
    hevaluates .compiled (fun _ => hsize) _ _ _ s⟩

/-- With `2 ^ 28` arguments, programs no longer do what the walk does: `max(1, …, 1) + sum()` is
one, but the program for it adds up two sums of nothing. -/
theorem fold_of_fixed_value_crowded :
    let max : Function Unit := ⟨⟨"max", none, true, false⟩, .pure Arithmetic.maximum⟩
    let sum : Function Unit := ⟨⟨"sum", none, true, false⟩, .pure Arithmetic.sum⟩
    let functions : Table (Function Unit) := ⟨false, [("max", max), ("sum", sum)]⟩
    let scope : Scope Unit := ⟨functions, .empty false, []⟩
    let t := Tree.crowded "max" "sum" (2 ^ 28) []
    let value (backend : ExecutionMode) (s : CallState Unit) :=
      ((backend.prepare t functions).evaluate scope s).1
    t.Fixed functions ∧ ∀ s, value .interpreted s = .ok 1 ∧ value .compiled s = .ok (-0.0) ∧
      ¬ ∃ x, ∀ backend, value backend s = .ok x := by
  intro max sum functions scope t value
  have hmax : scope.functions.get? "max" = some max := by
    rw [Table.get?, show scope.functions.key "max" = "max" by decide +kernel]
    rfl
  have hsum : scope.functions.get? "sum" = some sum := by
    rw [Table.get?, show scope.functions.key "sum" = "sum" by decide +kernel]
    rfl
  have hfixed : t.Fixed functions :=
    Tree.forall_mem_postorder_crowded trivial ⟨rfl, max, hmax, rfl, fun _ _ _ => rfl⟩
      (fun _ hname => absurd hname List.not_mem_nil) ⟨rfl, sum, hsum, rfl, fun _ _ _ => rfl⟩
      trivial
  have hlargest (xs : List Float) (s : CallState Unit) :
      (max.invoke xs s).1 = Arithmetic.maximum xs := rfl
  have hnothing (s : CallState Unit) : (sum.invoke [] s).1 = -0.0 := rfl
  have hinterpreted (s : CallState Unit) : value .interpreted s = .ok 1 := by
    have hvalue := congrArg Prod.fst (Tree.evaluate_crowded hsum .nil hmax (2 ^ 28) s)
    rw [hlargest, hnothing, Arithmetic.maximum_replicate_one (Nat.two_pow_pos 28)] at hvalue
    exact hvalue
  have hcompiled (s : CallState Unit) : value .compiled s = .ok (-0.0) := by
    have hvalue := congrArg Prod.fst
      (Tree.evaluate_compiled_crowded hsum .nil "max" rfl (by decide) (fun _ _ hget _ => hget) s)
    rw [hnothing, hnothing] at hvalue
    exact hvalue
  refine ⟨hfixed, fun s => ⟨hinterpreted s, hcompiled s, ?_⟩⟩
  rintro ⟨x, hx⟩
  have hone : x = 1 := Except.ok.inj ((hx _).symm.trans (hinterpreted s))
  have hzero : x = -0.0 := Except.ok.inj ((hx _).symm.trans (hcompiled s))
  exact absurd (hone.symm.trans hzero) (by decide +kernel)

end FormulaEngine
