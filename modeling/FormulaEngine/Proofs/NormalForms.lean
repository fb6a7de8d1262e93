import FormulaEngine.Proofs.KnownValues

/-!
Folding leaves nothing to fold. What it makes of a tree is in normal form, and a tree in normal form
stays as it is when it is folded again, without any call. So one pass from the leaves to the root is
enough, although what becomes a literal at one node can make the node above it foldable.
-/
namespace FormulaEngine

variable {σ : Type}

namespace Tree

/-- Trees in which nothing is left to fold. No operator has literals for all of its operands, and no
product a literal zero for a factor. A call that is marked idempotent and has literals for all of its
arguments calls a function that is not there or may be overwritten. -/
inductive Normal (functions : Table (Function σ)) : Tree → Prop
  | integer (value : Int64) : Normal functions (integer value)
  | float (value : Float) : Normal functions (float value)
  | var (name : String) : Normal functions (var name)
  | negate {argument : Tree} (normal : Normal functions argument)
      (unknown : argument.literal? = none) : Normal functions (negate argument)
  | binary {op : BinaryOperator} {left right : Tree} (normalLeft : Normal functions left)
      (normalRight : Normal functions right)
      (unknown : left.literal? = none ∨ right.literal? = none)
      (nonzero : op = .multiply → ∀ x, left.literal? = some x ∨ right.literal? = some x →
        (x == 0) = false) : Normal functions (binary op left right)
  | call {name : String} {arguments : List Tree} {idempotent : Bool}
      (normal : ∀ t ∈ arguments, Normal functions t)
      (unknown : idempotent = true → (∀ t ∈ arguments, t.literal? ≠ none) →
        ∀ f, functions.get? name = some f → f.overwritable = true) :
      Normal functions (call name arguments idempotent)

variable {functions : Table (Function σ)}

theorem isLiteral_eq_false_iff {t : Tree} : t.isLiteral = false ↔ t.literal? = none := by
  rw [isLiteral, Option.isSome_eq_false_iff, Option.isNone_iff_eq_none]

theorem isZero_eq_false_iff {t : Tree} :
    t.isZero = false ↔ ∀ x, t.literal? = some x → (x == 0) = false := by
  rw [isZero]
  cases t.literal? <;> simp

/-- Whether a call waits to be folded, in terms of its function. -/
theorem isFoldable_call_eq_false_iff {name : String} {arguments : List Tree} {idempotent : Bool} :
    (call name arguments idempotent).isFoldable functions = false ↔
      (idempotent = true → (∀ t ∈ arguments, t.literal? ≠ none) →
        ∀ f, functions.get? name = some f → f.overwritable = true) := by
  have hliterals : arguments.all isLiteral = true ↔ ∀ t ∈ arguments, t.literal? ≠ none := by
    simp only [List.all_eq_true, isLiteral, Option.isSome_iff_ne_none]
  have hprotected : isProtected functions name = false ↔
      ∀ f, functions.get? name = some f → f.overwritable = true := by
    rw [isProtected]
    cases functions.get? name <;> simp
  rw [isFoldable, Bool.and_eq_false_imp, Bool.and_eq_true, hliterals, hprotected, and_imp]

/-- Whether an operator waits to be folded, or to be cut short. -/
theorem isFoldable_binary_eq_false_iff {op : BinaryOperator} {left right : Tree} :
    (binary op left right).isFoldable functions = false ↔
      left.literal? = none ∨ right.literal? = none := by
  rw [isFoldable, Bool.and_eq_false_iff, isLiteral_eq_false_iff, isLiteral_eq_false_iff]

theorem isZeroProduct_binary_eq_false_iff {op : BinaryOperator} {left right : Tree} :
    (binary op left right).isZeroProduct = false ↔
      (op = .multiply → ∀ x, left.literal? = some x ∨ right.literal? = some x →
        (x == 0) = false) := by
  rw [isZeroProduct_binary, Bool.and_eq_false_imp, decide_eq_true_eq, Bool.or_eq_false_iff,
    isZero_eq_false_iff, isZero_eq_false_iff]
  simp only [or_imp, forall_and]

/-- A tree is in normal form if its arguments are and folding leaves its root alone. -/
theorem normal_iff {t : Tree} :
    t.Normal functions ↔ (∀ child ∈ t.children, child.Normal functions) ∧
      t.isFoldable functions = false ∧ t.isZeroProduct = false := by
  cases t with
  | integer value => exact ⟨fun _ => ⟨nofun, rfl, rfl⟩, fun _ => .integer value⟩
  | float value => exact ⟨fun _ => ⟨nofun, rfl, rfl⟩, fun _ => .float value⟩
  | var name => exact ⟨fun _ => ⟨nofun, rfl, rfl⟩, fun _ => .var name⟩
  | negate argument =>
    constructor
    · rintro (_ | _ | _ | ⟨normal, unknown⟩)
      exact ⟨List.forall_mem_singleton.mpr normal, isLiteral_eq_false_iff.mpr unknown, rfl⟩
    · rintro ⟨hchildren, hfoldable, -⟩
      exact .negate (List.forall_mem_singleton.mp hchildren)
        (isLiteral_eq_false_iff.mp hfoldable)
  | binary op left right =>
    constructor
    · rintro (_ | _ | _ | _ | ⟨normalLeft, normalRight, unknown, nonzero⟩)
      exact ⟨List.forall_mem_cons.mpr ⟨normalLeft, List.forall_mem_singleton.mpr normalRight⟩,
        isFoldable_binary_eq_false_iff.mpr unknown, isZeroProduct_binary_eq_false_iff.mpr nonzero⟩
    · rintro ⟨hchildren, hfoldable, hzero⟩
      obtain ⟨hleft, hright⟩ := List.forall_mem_cons.mp hchildren
      exact .binary hleft (List.forall_mem_singleton.mp hright)
        (isFoldable_binary_eq_false_iff.mp hfoldable) (isZeroProduct_binary_eq_false_iff.mp hzero)
  | call name arguments idempotent =>
    constructor
    · rintro (_ | _ | _ | _ | _ | ⟨normal, unknown⟩)
      exact ⟨normal, isFoldable_call_eq_false_iff.mpr unknown, rfl⟩
    · rintro ⟨hchildren, hfoldable, -⟩
      exact .call hchildren (isFoldable_call_eq_false_iff.mp hfoldable)

section Passes

variable {mode : ExecutionMode} {constants : Table Constant}

/-- Folding a node with arguments in normal form leaves a tree in normal form. -/
theorem foldNode_normal {node : Node} {arguments : List Tree}
    (hlength : arguments.length = node.arity) (h : ∀ t ∈ arguments, t.Normal functions)
    (s : FoldingState σ) :
    Yields (fun u _ => u.Normal functions) (fun _ => True)
      (foldNode mode functions constants node arguments s) := by
  obtain ⟨t, ht⟩ := exists_build? hlength
  obtain ⟨rfl, rfl⟩ := root_eq_of_build? ht
  rw [foldNode_eq _ _ _ ht]
  by_cases hfoldable : t.isFoldable functions = true
  · rw [if_pos hfoldable]
    exact Yields.bind (P := fun _ _ => True) (yields_state_iff.mpr trivial) fun x _ _ => .float x
  · rw [if_neg hfoldable]
    by_cases hzero : t.isZeroProduct = true
    · rw [if_pos hzero]
      exact .float 0
    · rw [if_neg hzero]
      exact normal_iff.mpr ⟨h, Bool.eq_false_iff.mpr hfoldable, Bool.eq_false_iff.mpr hzero⟩

/-- A tree that comes out of folding is in normal form. -/
theorem fold_normal {t u : Tree} {s s' : FoldingState σ}
    (h : t.fold mode functions constants s = (.ok u, s')) : u.Normal functions := by
  have hstep : ∀ (node : Node) (rest : List Node) (stack : List Tree) (s : FoldingState σ),
      node.arity ≤ stack.length → (∀ v ∈ stack, v.Normal functions) →
      Yields (fun v _ => ∀ w ∈ v :: stack.drop node.arity, w.Normal functions) (fun _ => True)
        (foldNode mode functions constants node (stack.take node.arity).reverse s) := by
    intro node _ stack s harity hstack
    have htaken : ∀ v ∈ (stack.take node.arity).reverse, v.Normal functions :=
      fun v hv => hstack v (List.mem_of_mem_take (List.mem_reverse.mp hv))
    refine (foldNode_normal (length_reverse_take harity) htaken s).mono fun v _ hv => ?_
    exact List.forall_mem_cons.mpr ⟨hv, fun w hw => hstack w (List.mem_of_mem_drop hw)⟩
  have hfit : Node.Fit ([] : List Tree).length t.postorder := t.fit_postorder
  have hnone : ∀ v ∈ ([] : List Tree), v.Normal functions := List.forall_mem_nil _
  have hpass : Yields (fun u _ => u.Normal functions) (fun _ => True)
      (t.fold mode functions constants s) := by
    refine (runNodes_invariant (I := fun _ stack _ => ∀ v ∈ stack, v.Normal functions) hstep hfit
      hnone).bind fun stack _ hstack => ?_
    cases stack with
    | nil => exact .float _
    | cons v stack => exact hstack v List.mem_cons_self
  rwa [h] at hpass

theorem mapM_of_unchanged {ε τ α : Type} {f : α → ExceptT ε (StateM τ) α} {xs : List α} {s : τ}
    (h : ∀ x ∈ xs, f x s = (.ok x, s)) : xs.mapM f s = (.ok xs, s) := by
  induction xs with
  | nil => rfl
  | cons x xs ih =>
    rw [List.forall_mem_cons] at h
    rw [List.mapM_cons, Evaluation.bind_apply, h.1]
    dsimp only
    rw [Evaluation.bind_apply, ih h.2]
    rfl

theorem Normal.passM_foldNode {u : Tree} (h : u.Normal functions) (s : FoldingState σ) :
    u.passM (foldNode mode functions constants) s = (.ok u, s) := by
  induction u using children_induction with
  | step u ih =>
    obtain ⟨hchildren, hfoldable, hzero⟩ := normal_iff.mp h
    have harguments := mapM_of_unchanged fun child hchild => ih child hchild (hchildren child hchild)
    rw [passM_eq, Evaluation.bind_apply, harguments]
    dsimp only
    rw [foldNode_of_not_isFoldable hfoldable, hzero, if_neg Bool.false_ne_true]

/-- Folding goes through a tree in normal form and does nothing. -/
theorem Normal.fold {u : Tree} (h : u.Normal functions) (mode : ExecutionMode)
    (constants : Table Constant) (s : FoldingState σ) :
    u.fold mode functions constants s = (.ok u, s) := by
  rw [fold_eq_passM, h.passM_foldNode]

end Passes

/-- What has a name in a tree that is left was there before. -/
theorem LeftOf.named {t u : Tree} (h : t.LeftOf u) {name? : Node → Option String}
    (hliteral : ∀ x, name? (.float x) = none) {name : String}
    (hname : name ∈ u.postorder.filterMap name?) : name ∈ t.postorder.filterMap name? := by
  obtain ⟨node, hnode, hnamed⟩ := List.mem_filterMap.mp hname
  rcases h node hnode with hmem | ⟨x, rfl⟩
  · exact List.mem_filterMap.mpr ⟨node, hmem, hnamed⟩
  · cases (hliteral x).symm.trans hnamed

end Tree

/-- Folding a tree succeeds and leaves a tree in normal form, whose variables and calls were there
before. Folding that again, in either way, gives the same tree; it calls nothing and replaces
nothing. -/
theorem fold_reaches_normal_form (mode : ExecutionMode) (functions : Table (Function σ))
    (constants : Table Constant) (t : Tree)
    (hsize : mode = .compiled → t.postorder.length < 2 ^ 28) (s : FoldingState σ) :
    ∃ u final, t.fold mode functions constants s = (.ok u, final) ∧ u.Normal functions ∧
      (∀ name ∈ u.variableNames, name ∈ t.variableNames) ∧
      (∀ name ∈ u.postorder.filterMap Node.calleeName?,
        name ∈ t.postorder.filterMap Node.calleeName?) ∧
      ∀ (again : ExecutionMode) (later : FoldingState σ),
        u.fold again functions constants later = (.ok u, later) := by
  obtain ⟨u, final, hfold, hleft, -⟩ := Tree.exists_fold mode functions constants t hsize s
  have hnormal : u.Normal functions := Tree.fold_normal hfold
  refine ⟨u, final, hfold, hnormal, fun name hname => ?_, fun name hname => ?_,
    fun again later => hnormal.fold again constants later⟩
  · exact Node.mem_firstUses.mpr (hleft.named (fun _ => rfl) (Node.mem_firstUses.mp hname))
  · exact hleft.named (fun _ => rfl) hname

/-- The product becomes zero, which takes a variable and a call out of the formula. The other call
gets a literal for its argument and stays, since its function may be overwritten. -/
theorem fold_reaches_normal_form_scale :
    let scale : Function Unit := ⟨⟨"scale", some 1, true, true⟩, .pure fun xs => 2 * xs.headD 0⟩
    let noise : Function Unit := ⟨⟨"noise", some 1, false, false⟩, .random⟩
    let functions : Table (Function Unit) := ⟨false, [("scale", scale), ("noise", noise)]⟩
    let t : Tree := .binary .add (.call "scale" [.binary .add (.integer 1) (.integer 2)] true)
      (.binary .multiply (.binary .subtract (.integer 2) (.integer 2))
        (.call "noise" [.var "x"] false))
    let s : FoldingState Unit := ⟨⟨(), ⟨[], 0⟩, []⟩, []⟩
    t.postorder.length < 2 ^ 28 ∧
      ∃ u final, t.fold .compiled functions (.empty false) s = (.ok u, final) ∧
        u.Normal functions ∧ u.variableNames = [] ∧
        u.postorder.filterMap Node.calleeName? = ["scale"] ∧
        u.fold .interpreted functions (.empty false) final = (.ok u, final) := by
  intro scale noise functions t s
  have hsize : t.postorder.length < 2 ^ 28 := by decide
  obtain ⟨u, final, hfold, hnormal, -, -, hagain⟩ :=
    fold_reaches_normal_form .compiled functions (.empty false) t (fun _ => hsize) s
  have hnames : (t.fold .compiled functions (.empty false) s).1.toOption.map
      (fun u => (u.variableNames, u.postorder.filterMap Node.calleeName?)) =
        some ([], ["scale"]) := by
    decide +kernel
  rw [hfold] at hnames
  obtain ⟨hvariables, hcallees⟩ := Prod.mk.inj (Option.some.inj hnames)
  exact ⟨hsize, u, final, hfold, hnormal, hvariables, hcallees, hagain .interpreted final⟩

end FormulaEngine
