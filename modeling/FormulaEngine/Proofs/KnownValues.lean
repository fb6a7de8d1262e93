import FormulaEngine.Proofs.FoldedNodes

/-!
What folding computes. The known value of a tree is defined by recursion, from what is known of its
arguments and what calls of protected functions come to; a folded tree has the known values of its
inner nodes in the place of these nodes. Folding never fails and gives this tree, with the same
calls in the same order, whichever way nodes are evaluated.
-/
namespace FormulaEngine

variable {σ : Type}

/-- What is known of the value of an operator. A known zero is enough for a product whose other
factor is not known. -/
def BinaryOperator.known (op : BinaryOperator) : Option Float → Option Float → Option Float
  | some x, some y => some (op.value x y)
  | some z, none | none, some z => if op = .multiply ∧ z == 0 then some 0 else none
  | none, none => none

/-- What is known of the value of a call with known arguments: the result if the call is marked
idempotent and its function is there and cannot be overwritten. -/
def Table.knownCall (functions : Table (Function σ)) (name : String) (idempotent : Bool)
    (arguments : List Float) (s : CallState σ) : Option Float × CallState σ :=
  match functions.get? name with
  | none => (none, s)
  | some f =>
    if idempotent = true ∧ f.overwritable = false then
      let result := f.invoke arguments s
      (some result.1, result.2)
    else (none, s)

namespace Tree

section Functions

variable (functions : Table (Function σ))

mutual

/-- The value of a tree as far as it is known, and what is left by the calls made for it. -/
def known : Tree → CallState σ → Option Float × CallState σ
  | integer value, s => (some (integerValue value), s)
  | float value, s => (some value, s)
  | var _, s => (none, s)
  | negate argument, s => ((argument.known s).1.map fun x => -x, (argument.known s).2)
  | binary op left right, s =>
    (op.known (left.known s).1 (right.known (left.known s).2).1, (right.known (left.known s).2).2)
  | call name arguments idempotent, s =>
    match (knownAll arguments s).1 with
    | some xs => functions.knownCall name idempotent xs (knownAll arguments s).2
    | none => (none, (knownAll arguments s).2)

/-- The values of trees in a row, if all of them are known. -/
def knownAll : List Tree → CallState σ → Option (List Float) × CallState σ
  | [], s => (some [], s)
  | t :: ts, s =>
    ((t.known s).1.bind fun x => (knownAll ts (t.known s).2).1.map (x :: ·),
      (knownAll ts (t.known s).2).2)

end

/-- The literal of a value, or the tree where it is not known. -/
def literalOr (value : Option Float) (t : Tree) : Tree := value.elim t .float

mutual

/-- A tree with the literals of all that is known in it. A leaf stays what it is. -/
def simplified : Tree → CallState σ → Tree
  | integer value, _ => integer value
  | float value, _ => float value
  | var name, _ => var name
  | negate argument, s =>
    literalOr ((negate argument).known functions s).1 (negate (argument.simplified s))
  | binary op left right, s =>
    literalOr ((binary op left right).known functions s).1
      (binary op (left.simplified s) (right.simplified (left.known functions s).2))
  | call name arguments idempotent, s =>
    literalOr ((call name arguments idempotent).known functions s).1
      (call name (simplifiedAll arguments s) idempotent)

def simplifiedAll : List Tree → CallState σ → List Tree
  | [], _ => []
  | t :: ts, s => t.simplified s :: simplifiedAll ts (t.known functions s).2

end

theorem literal?_literalOr {t : Tree} (h : t.literal? = none) (value : Option Float) :
    (literalOr value t).literal? = value := by
  cases value with
  | none => exact h
  | some x => rfl

/-- The literals of a simplified tree are its known values. -/
theorem literal?_simplified (t : Tree) (s : CallState σ) :
    (t.simplified functions s).literal? = (t.known functions s).1 := by
  cases t with
  | integer | float | var => simp only [simplified, known, literal?]
  | negate | binary | call =>
    rw [simplified]
    exact literal?_literalOr rfl _

end Functions

variable {functions : Table (Function σ)}

theorem isLiteral_simplified (t : Tree) (s : CallState σ) :
    (t.simplified functions s).isLiteral = (t.known functions s).1.isSome := by
  rw [isLiteral, literal?_simplified]

theorem length_simplifiedAll (ts : List Tree) (s : CallState σ) :
    (simplifiedAll functions ts s).length = ts.length := by
  induction ts generalizing s with
  | nil => rw [simplifiedAll]
  | cons t ts ih => rw [simplifiedAll, List.length_cons, ih, List.length_cons]

/-- All values in a row are known just if all simplified trees are literals. -/
theorem knownAll_eq (ts : List Tree) (s : CallState σ) :
    (knownAll functions ts s).1 =
      if (simplifiedAll functions ts s).all isLiteral = true then
        some (literalValues (simplifiedAll functions ts s)) else none := by
  induction ts generalizing s with
  | nil => rw [knownAll, simplifiedAll]; rfl
  | cons t ts ih =>
    rw [knownAll, simplifiedAll, ih, List.all_cons, isLiteral_simplified]
    have hvalue := literal?_simplified functions t s
    revert hvalue
    cases (t.known functions s).1 with
    | none => exact fun _ => rfl
    | some x =>
      intro hvalue
      have hvalues : literalValues (t.simplified functions s ::
          simplifiedAll functions ts (t.known functions s).2) =
          x :: literalValues (simplifiedAll functions ts (t.known functions s).2) := by
        simp [literalValues, hvalue]
      rw [hvalues]
      by_cases hall : (simplifiedAll functions ts (t.known functions s).2).all isLiteral = true
      · rw [if_pos hall, hall]
        rfl
      · rw [if_neg hall, Bool.eq_false_iff.mpr hall]
        rfl

theorem isZeroProduct_binary (op : BinaryOperator) (left right : Tree) :
    (binary op left right).isZeroProduct =
      (decide (op = .multiply) && (left.isZero || right.isZero)) := by
  cases op <;> rfl

section Nodes

variable (functions) (constants : Table Constant)

/-- The value of a call with known arguments is known if it is marked idempotent and its function
cannot be overwritten, and then it is the result of the call. -/
theorem knownCall_cases (name : String) (idempotent : Bool) (arguments : List Float)
    (s : CallState σ) :
    if (idempotent && isProtected functions name) = true then
      ∃ x, (functions.knownCall name idempotent arguments s).1 = some x ∧
        functions.call name arguments s =
          (.ok x, (functions.knownCall name idempotent arguments s).2)
    else functions.knownCall name idempotent arguments s = (none, s) := by
  rw [Table.knownCall, Table.call, isProtected]
  cases functions.get? name with
  | none => simp
  | some f =>
    dsimp only [Option.any_some]
    by_cases h : idempotent = true ∧ f.overwritable = false
    · rw [if_pos h, if_pos (by simp [h])]
      exact ⟨_, rfl, rfl⟩
    · rw [if_neg h, if_neg (by simpa using h)]

/-- Whether a value, and the state after the calls for it, are what is known of a node that has
simplified arguments. -/
def KnownFrom (u : Tree) (s : CallState σ) (result : Option Float × CallState σ) : Prop :=
  if u.isFoldable functions = true then
    ∃ x, result.1 = some x ∧ u.root.evaluate ⟨functions, constants, []⟩ (literalValues u.children) s =
      (.ok x, result.2)
  else result.2 = s ∧ result.1 = if u.isZeroProduct = true then some 0 else none

variable {functions constants}

theorem knownFrom_negate (argument : Tree) (s : CallState σ) :
    KnownFrom functions constants (negate (argument.simplified functions s))
      (argument.known functions s).2 ((negate argument).known functions s) := by
  have hliteral := argument.literal?_simplified functions s
  unfold KnownFrom
  rw [known, isFoldable, isLiteral, hliteral]
  cases hknown : (argument.known functions s).1 with
  | none => exact ⟨rfl, rfl⟩
  | some x =>
    have hvalues : literalValues [argument.simplified functions s] = [x] := by
      simp [literalValues, hliteral, hknown]
    refine ⟨-x, rfl, ?_⟩
    rw [children, hvalues]
    rfl

theorem knownFrom_binary (op : BinaryOperator) (left right : Tree) (s : CallState σ) :
    KnownFrom functions constants
      (binary op (left.simplified functions s) (right.simplified functions (left.known functions s).2))
      (right.known functions (left.known functions s).2).2
      ((binary op left right).known functions s) := by
  have hleft := left.literal?_simplified functions s
  have hright := right.literal?_simplified functions (left.known functions s).2
  unfold KnownFrom
  rw [known, isFoldable, isLiteral, isLiteral, isZeroProduct_binary, isZero, isZero, hleft, hright]
  cases hx : (left.known functions s).1 with
  | none =>
    cases hy : (right.known functions (left.known functions s).2).1 with
    | none => exact ⟨rfl, by cases op <;> rfl⟩
    | some y => exact ⟨rfl, by simp [BinaryOperator.known]⟩
  | some x =>
    cases hy : (right.known functions (left.known functions s).2).1 with
    | none => exact ⟨rfl, by simp [BinaryOperator.known]⟩
    | some y =>
      have hvalues : literalValues [left.simplified functions s,
          right.simplified functions (left.known functions s).2] = [x, y] := by
        simp [literalValues, hleft, hright, hx, hy]
      refine ⟨op.value x y, rfl, ?_⟩
      rw [children, hvalues]
      rfl

theorem knownFrom_call (name : String) (arguments : List Tree) (idempotent : Bool)
    (s : CallState σ) :
    KnownFrom functions constants (call name (simplifiedAll functions arguments s) idempotent)
      (knownAll functions arguments s).2 ((call name arguments idempotent).known functions s) := by
  unfold KnownFrom
  rw [known, isFoldable, knownAll_eq]
  by_cases hliterals : (simplifiedAll functions arguments s).all isLiteral = true
  · rw [if_pos hliterals, hliterals, Bool.and_true]
    have hcall := knownCall_cases functions name idempotent
      (literalValues (simplifiedAll functions arguments s)) (knownAll functions arguments s).2
    by_cases h : (idempotent && isProtected functions name) = true
    · rw [if_pos h] at hcall ⊢
      exact hcall
    · rw [if_neg h] at hcall ⊢
      exact ⟨congrArg Prod.snd hcall, congrArg Prod.fst hcall⟩
  · rw [if_neg hliterals, Bool.eq_false_iff.mpr hliterals, Bool.and_false, Bool.false_and]
    exact ⟨rfl, rfl⟩

/-- A tree is a leaf, or it is simplified to the literal of its value or to its root with simplified
arguments. -/
theorem simplified_cases (constants : Table Constant) (t : Tree) (s : CallState σ) :
    (t.isFoldable functions = false ∧ t.isZeroProduct = false ∧ t.simplified functions s = t ∧
      t.children = [] ∧ (t.known functions s).2 = s) ∨
    ∃ u : Tree, u.root = t.root ∧ u.children = simplifiedAll functions t.children s ∧
      t.simplified functions s = literalOr (t.known functions s).1 u ∧
      KnownFrom functions constants u (knownAll functions t.children s).2
        (t.known functions s) := by
  cases t with
  | integer | float | var => exact .inl ⟨rfl, rfl, by rw [simplified], rfl, by rw [known]⟩
  | negate argument =>
    refine .inr ⟨negate (argument.simplified functions s), rfl, ?_, by rw [simplified], ?_⟩
    · simp only [children, simplifiedAll]
    · simpa only [children, knownAll] using knownFrom_negate argument s
  | binary op left right =>
    refine .inr ⟨binary op (left.simplified functions s)
      (right.simplified functions (left.known functions s).2), rfl, ?_, by rw [simplified], ?_⟩
    · simp only [children, simplifiedAll]
    · simpa only [children, knownAll] using knownFrom_binary op left right s
  | call name arguments idempotent =>
    refine .inr ⟨_, ?_, rfl, by rw [simplified], knownFrom_call name arguments idempotent s⟩
    rw [root, length_simplifiedAll, root]

end Nodes

/-- Folding a node with simplified arguments leaves the literal of its value if that is known, and
otherwise the node. -/
theorem exists_foldNode (mode : ExecutionMode) {u : Tree}
    (hsmall : mode = .compiled → u.children.length + 1 < 2 ^ 28) {constants : Table Constant}
    {s : FoldingState σ} {result : Option Float × CallState σ}
    (h : KnownFrom functions constants u s.calls result) :
    ∃ replacements, foldNode mode functions constants u.root u.children s =
      (.ok (literalOr result.1 u), ⟨result.2, replacements⟩) := by
  unfold KnownFrom at h
  by_cases hfoldable : u.isFoldable functions = true
  · rw [if_pos hfoldable] at h
    obtain ⟨x, hx, hvalue⟩ := h
    rw [hx]
    exact ⟨_, foldNode_of_isFoldable hsmall hfoldable hvalue⟩
  · rw [if_neg hfoldable] at h
    rw [foldNode_of_not_isFoldable (Bool.eq_false_iff.mpr hfoldable), h.1, h.2]
    by_cases hzero : u.isZeroProduct = true
    · rw [if_pos hzero, if_pos hzero]
      exact ⟨_, rfl⟩
    · rw [if_neg hzero, if_neg hzero]
      exact ⟨s.replacements, rfl⟩

section Passes

variable (mode : ExecutionMode) (functions) (constants : Table Constant)

/-- Whether folding simplifies a tree, and leaves what its calls leave. -/
def FoldsTo (t : Tree) : Prop :=
  ∀ s : FoldingState σ, ∃ replacements, t.passM (foldNode mode functions constants) s =
    (.ok (t.simplified functions s.calls), ⟨(t.known functions s.calls).2, replacements⟩)

variable {mode functions constants}

theorem mapM_foldsTo {ts : List Tree} (h : ∀ t ∈ ts, t.FoldsTo functions mode constants)
    (s : FoldingState σ) :
    ∃ replacements, ts.mapM (passM (foldNode mode functions constants)) s =
      (.ok (simplifiedAll functions ts s.calls),
        ⟨(knownAll functions ts s.calls).2, replacements⟩) := by
  induction ts generalizing s with
  | nil => exact ⟨s.replacements, by simp only [simplifiedAll, knownAll]; rfl⟩
  | cons t ts ih =>
    obtain ⟨replaced, hfirst⟩ := h t List.mem_cons_self s
    obtain ⟨replacements, hrest⟩ := ih (fun u hu => h u (List.mem_cons_of_mem t hu))
      ⟨(t.known functions s.calls).2, replaced⟩
    refine ⟨replacements, ?_⟩
    rw [List.mapM_cons, Evaluation.bind_apply, hfirst]
    dsimp only
    rw [Evaluation.bind_apply, hrest, simplifiedAll, knownAll]
    rfl

theorem foldsTo (t : Tree) (hsmall : mode = .compiled → t.postorder.length < 2 ^ 28) :
    t.FoldsTo functions mode constants := by
  induction t using children_induction with
  | step t ih =>
    intro s
    obtain ⟨replaced, hchildren⟩ := mapM_foldsTo (fun child hchild => ih child hchild fun hmode =>
      Nat.lt_of_le_of_lt (postorder_sublist_of_child hchild).length_le (hsmall hmode)) s
    rw [passM_eq, Evaluation.bind_apply, hchildren]
    rcases t.simplified_cases constants s.calls with
      ⟨hfoldable, hzero, hsimplified, hleaf, hcalls⟩ | ⟨u, hroot, harguments, hsimplified, hknown⟩
    · rw [hleaf, simplifiedAll, knownAll, hsimplified, hcalls]
      have hnode := foldNode_of_not_isFoldable hfoldable mode constants ⟨s.calls, replaced⟩
      rw [hzero, if_neg Bool.false_ne_true, hleaf] at hnode
      exact ⟨replaced, hnode⟩
    · rw [hsimplified, ← hroot, ← harguments]
      refine exists_foldNode mode (fun hmode => ?_) hknown
      have hlength := t.length_children_lt
      have := hsmall hmode
      rw [harguments, length_simplifiedAll]
      omega

end Passes

end Tree

/-- Folding never fails. It gives the tree with the literals of all that is known in it, and makes
the calls that its known values take, whichever way nodes are evaluated. -/
theorem fold_eq_simplified (mode : ExecutionMode) (functions : Table (Function σ))
    (constants : Table Constant) (t : Tree)
    (hsize : mode = .compiled → t.postorder.length < 2 ^ 28) (s : CallState σ) :
    ∃ replacements, t.fold mode functions constants ⟨s, []⟩ =
      (.ok (t.simplified functions s), ⟨(t.known functions s).2, replacements⟩) := by
  have hfolds : t.FoldsTo functions mode constants := t.foldsTo hsize
  obtain ⟨replacements, hpass⟩ := hfolds ⟨s, []⟩
  refine ⟨replacements, ?_⟩
  rw [Tree.fold_eq, Tree.runNodes_postorder, map_eq_pure_bind, bind_assoc, Evaluation.bind_apply,
    hpass]
  rfl

/-- The product with `twice(2) - 4` is zero whatever the variable is, so the sum is known after the
one call. -/
theorem fold_eq_simplified_product :
    let twice : Function Nat :=
      ⟨⟨"twice", some 1, true, false⟩, .host fun xs calls => (2 * xs.headD 0, calls + 1)⟩
    let functions : Table (Function Nat) := ⟨false, [("twice", twice)]⟩
    let difference : Tree := .binary .subtract (.call "twice" [.integer 2] true) (.integer 4)
    let t : Tree := .binary .add (.binary .multiply difference (.var "x")) (.float 1)
    t.postorder.length < 2 ^ 28 ∧ ∃ u final, t.fold .compiled functions (.empty false)
      ⟨⟨0, ⟨[], 0⟩, []⟩, []⟩ = (.ok u, final) ∧ u.literal? = some 1 ∧ final.calls.memory = 1 := by
  intro twice functions difference t
  have hsize : t.postorder.length < 2 ^ 28 := by decide
  obtain ⟨replacements, hfold⟩ := fold_eq_simplified .compiled functions (.empty false) t
    (fun _ => hsize) ⟨0, ⟨[], 0⟩, []⟩
  refine ⟨hsize, _, _, hfold, ?_, ?_⟩
  · rw [Tree.literal?_simplified]
    decide +kernel
  · have hmemory : (t.known functions ⟨0, ⟨[], 0⟩, []⟩).2.memory = 1 := by decide +kernel
    exact hmemory

end FormulaEngine
