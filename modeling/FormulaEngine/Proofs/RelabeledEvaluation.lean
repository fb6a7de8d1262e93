import FormulaEngine.Proofs.FoldingSoundness
import FormulaEngine.Proofs.Relabeling

/-!
Evaluation of relabeled trees. Labels that lead to the same functions make no difference: not to
the walk over a tree, not to a program made from it, and not to folding if they leave the calls
alone that folding may replace. And nothing that is evaluated depends on the calls made before.
-/
namespace FormulaEngine

variable {σ : Type} {now : Labels}

/-- Whether the functions that cannot be overwritten are all there later on. -/
def Table.Follows (later functions : Table (Function σ)) : Prop :=
  ∀ name f, functions.get? name = some f → f.overwritable = false → later.get? name = some f

/-- Whether a name and the label it has now lead to the same function. -/
def Labels.Lead (now : Labels) (functions : Table (Function σ)) : Prop :=
  ∀ name, functions.call (now.name name) = functions.call name

section Walks

variable {scope : Scope σ} (h : now.Lead scope.functions)
include h

theorem Node.evaluate_relabel (node : Node) :
    (node.relabel now).evaluate scope = node.evaluate scope := by
  funext arguments
  cases node with
  | call name argumentCount idempotent => exact congrFun (h name) arguments
  | _ => rfl

theorem Tree.evaluate_relabel (t : Tree) : (t.relabel now).evaluate scope = t.evaluate scope := by
  have hnodes : ∀ (nodes : List Node) (stack : List Float),
      runNodes (Node.evaluate scope) (nodes.map (Node.relabel now)) stack =
        runNodes (Node.evaluate scope) nodes stack := by
    intro nodes
    induction nodes with
    | nil => exact fun _ => rfl
    | cons node nodes ih =>
      intro stack
      rw [List.map_cons, runNodes, runNodes, Node.evaluate_relabel h, Node.relabel_arity]
      exact congrArg _ (funext fun x => ih _)
  rw [evaluate, evaluate, postorder_relabel, hnodes]

end Walks

section Programs

variable {later functions functions' : Table (Function σ)}

/-- Whether two programs differ at most in how they find the functions they call. -/
structure Program.Alike (later : Table (Function σ)) (p p' : Program σ) : Prop where
  code : p.code = p'.code
  constants : p.constants = p'.constants
  variableNames : p.variableNames = p'.variableNames
  targets : List.Forall₂
    (fun target target' => Machine.callTarget later target = Machine.callTarget later target')
    p.targets.toList p'.targets.toList

theorem Compilation.addNode_alike (hlead : now.Lead later) (hfollows : later.Follows functions)
    (hfollows' : later.Follows functions') {c c' : Compilation σ}
    (h : c.program.Alike later c'.program) (node : Node) :
    (c.addNode functions node).program.Alike later
      (c'.addNode functions' (node.relabel now)).program := by
  obtain ⟨⟨code, constants, variableNames, targets, maxStack⟩, depth⟩ := c
  obtain ⟨⟨code', constants', variableNames', targets', maxStack'⟩, depth'⟩ := c'
  obtain ⟨hcode, hconstants, hvariableNames, htargets⟩ := h
  dsimp only at hcode hconstants hvariableNames htargets
  subst hcode hconstants hvariableNames
  cases node with
  | integer | float =>
    simp only [Node.relabel, addNode, pushConstant, emit]
    exact ⟨rfl, rfl, rfl, htargets⟩
  | negate | binary =>
    simp only [Node.relabel, addNode, emit]
    exact ⟨rfl, rfl, rfl, htargets⟩
  | var name =>
    simp only [Node.relabel, addNode, loadVariable]
    split <;> simp only [emit] <;> exact ⟨rfl, rfl, rfl, htargets⟩
  | call name argumentCount idempotent =>
    have hsize : targets.size = targets'.size := htargets.length_eq
    have htarget : Machine.callTarget later (target functions name) =
        Machine.callTarget later (target functions' (now.name name)) := by
      funext arguments
      rw [Machine.callTarget_target hfollows, Machine.callTarget_target hfollows', hlead name]
    simp only [Node.relabel, addNode, call, emit, hsize]
    refine ⟨rfl, rfl, rfl, ?_⟩
    rw [Array.toList_push, Array.toList_push]
    exact List.rel_append htargets (.cons htarget .nil)

theorem Tree.compile_alike (hlead : now.Lead later) (hfollows : later.Follows functions)
    (hfollows' : later.Follows functions') (t : Tree) :
    (t.compile functions).Alike later ((t.relabel now).compile functions') := by
  have hnodes : ∀ (nodes : List Node) {c c' : Compilation σ}, c.program.Alike later c'.program →
      (nodes.foldl (Compilation.addNode functions) c).program.Alike later
        ((nodes.map (Node.relabel now)).foldl (Compilation.addNode functions') c').program := by
    intro nodes
    induction nodes with
    | nil => exact id
    | cons node nodes ih =>
      exact fun h => ih (Compilation.addNode_alike hlead hfollows hfollows' h node)
  rw [compile, compile, postorder_relabel]
  exact hnodes t.postorder ⟨rfl, rfl, rfl, .nil⟩

theorem Machine.execute_alike {p p' : Program σ} (h : p.Alike later p') :
    execute p later = execute p' later := by
  funext slots i stack
  have htarget : ∀ n, callTarget later (p.targets.getD n (.byName "")) =
      callTarget later (p'.targets.getD n (.byName "")) := by
    intro n
    rw [Array.getD_eq_getD_getElem?, Array.getD_eq_getD_getElem?, ← Array.getElem?_toList,
      ← Array.getElem?_toList]
    by_cases hn : n < p.targets.toList.length
    · have hn' : n < p'.targets.toList.length := h.targets.length_eq ▸ hn
      rw [List.getElem?_eq_getElem hn, List.getElem?_eq_getElem hn']
      exact h.targets.get hn hn'
    · have hn' : ¬n < p'.targets.toList.length := h.targets.length_eq ▸ hn
      rw [List.getElem?_eq_none (Nat.le_of_not_lt hn), List.getElem?_eq_none (Nat.le_of_not_lt hn')]
  unfold execute
  simp only [htarget, h.constants]

theorem Program.evaluate_alike {scope : Scope σ} {p p' : Program σ}
    (h : p.Alike scope.functions p') : p.evaluate scope = p'.evaluate scope := by
  have hexecuteAll : ∀ slots code stack (s : CallState σ),
      Machine.executeAll p scope.functions slots code stack s =
        Machine.executeAll p' scope.functions slots code stack s := by
    intro slots code
    induction code with
    | nil => exact fun _ _ => rfl
    | cons i rest ih =>
      intro stack s
      simp only [Machine.executeAll, Machine.execute_alike h, ih]
  funext s
  unfold evaluate Machine.run
  simp only [h.variableNames, h.code, hexecuteAll]

/-- A tree and the relabeled tree, made ready for evaluation at different times. -/
theorem ExecutionMode.evaluate_prepare_relabel (mode : ExecutionMode) (t : Tree) {scope : Scope σ}
    (hlead : now.Lead scope.functions) (hfollows : scope.functions.Follows functions)
    (hfollows' : scope.functions.Follows functions') :
    (mode.prepare t functions).evaluate scope =
      (mode.prepare (t.relabel now) functions').evaluate scope := by
  cases mode with
  | interpreted => exact (t.evaluate_relabel hlead).symm
  | compiled => exact Program.evaluate_alike (t.compile_alike hlead hfollows hfollows')

end Programs

namespace Tree

variable {functions functions' : Table (Function σ)}

/-- Whether folding treats a call and the relabeled call in the same way. The two have the same mark
and the same function, which cannot be overwritten and is steady if the mark says so, or neither of
them has a function that cannot be overwritten. -/
def FoldsAlike (now : Labels) (functions functions' : Table (Function σ)) : Node → Prop
  | .call name _ idempotent =>
    (∃ f, functions.get? name = some f ∧ functions'.get? (now.name name) = some f ∧
      f.overwritable = false ∧ now.idempotent name idempotent = idempotent ∧
      (idempotent = true → f.Steady (· = ·))) ∨
    (isProtected functions name = false ∧ isProtected functions' (now.name name) = false)
  | _ => True

theorem isLiteral_relabel (t : Tree) : (t.relabel now).isLiteral = t.isLiteral := by
  rw [isLiteral, literal?_relabel, isLiteral]

theorem literalValues_relabel (ts : List Tree) :
    literalValues (ts.map (relabel now)) = literalValues ts := by
  rw [literalValues, List.filterMap_map, literalValues]
  exact congrArg (ts.filterMap ·) (funext literal?_relabel)

theorem isFoldable_relabel {t : Tree} (h : FoldsAlike now functions functions' t.root) :
    (t.relabel now).isFoldable functions' = t.isFoldable functions := by
  cases t with
  | negate argument => exact isLiteral_relabel argument
  | binary op left right => simp only [relabel, isFoldable, isLiteral_relabel]
  | call name arguments idempotent =>
    rw [relabel_call, isFoldable, isFoldable, List.all_map]
    rcases h with ⟨f, hget, hget', hprotected, hmark, -⟩ | ⟨hnone, hnone'⟩
    · have hliteral : isLiteral ∘ relabel now = isLiteral := funext isLiteral_relabel
      simp only [hmark, isProtected, hget, hget', hliteral]
    · rw [hnone, hnone', Bool.and_false, Bool.and_false]
  | _ => rfl

theorem isZeroProduct_relabel (t : Tree) : (t.relabel now).isZeroProduct = t.isZeroProduct := by
  cases t with
  | binary op left right =>
    cases op <;> simp only [relabel, isZeroProduct, isZero, literal?_relabel]
  | _ => rfl

/-- The value of a node that is folded, whatever happened before. -/
theorem exists_value_relabel (constants : Table Constant) {t : Tree}
    (hfoldable : t.isFoldable functions = true) (h : FoldsAlike now functions functions' t.root)
    (s₀ : CallState σ) :
    ∃ value, ∀ s : CallState σ,
      (∃ s', t.root.evaluate ⟨functions, constants, []⟩ (literalValues t.children) s =
        (.ok value, s') ∧ s'.Alike (· = ·) s) ∧
      ∃ s', (t.root.relabel now).evaluate ⟨functions', constants, []⟩ (literalValues t.children) s =
        (.ok value, s') ∧ s'.Alike (· = ·) s := by
  obtain ⟨-, hvar, hcallee⟩ := foldable_cases hfoldable
  rcases hcallee with hcallee | ⟨name, n, f, hroot, hget, hprotected⟩
  · obtain ⟨value, hvalue⟩ := Node.exists_value (σ := σ) hvar hcallee (literalValues t.children)
    have hroot : t.root.relabel now = t.root := by
      revert hcallee
      cases t.root <;> first | exact fun _ => rfl | exact nofun
    refine ⟨value, fun s => ⟨⟨s, ?_, rfl, rfl⟩, s, ?_, rfl, rfl⟩⟩
    · rw [hvalue]
      rfl
    · rw [hroot, hvalue]
      rfl
  · rw [hroot] at h
    rcases h with ⟨g, hget₀, hget', -, -, hsteady⟩ | ⟨hnone, -⟩
    · obtain rfl : g = f := Option.some.inj (hget₀.symm.trans hget)
      let values := literalValues t.children
      have hcall : ∀ s : CallState σ, ∃ s',
          g.call values s = (.ok (g.run values s₀).1, s') ∧ s'.Alike (· = ·) s := by
        intro s
        obtain ⟨hresult, halike⟩ := hsteady rfl values
          { s with calls := g.record values :: s.calls } s₀
        refine ⟨_, ?_, halike.memory, halike.generator⟩
        rw [g.call_apply, hresult]
      refine ⟨(g.run values s₀).1, fun s => ⟨?_, ?_⟩⟩
      · rw [hroot, Node.evaluate, Table.call, hget]
        exact hcall s
      · rw [hroot, Node.relabel, Node.evaluate, Table.call, hget']
        exact hcall s
    · simp [isProtected, hget, hprotected] at hnone

theorem foldNode_relabel (constants : Table Constant) {node : Node}
    (h : FoldsAlike now functions functions' node) {arguments : List Tree}
    (hlength : arguments.length = node.arity) (s s' : FoldingState σ) :
    ∃ t final final',
      foldNode .interpreted functions constants node arguments s = (.ok t, final) ∧
      foldNode .interpreted functions' constants (node.relabel now)
        (arguments.map (relabel now)) s' = (.ok (t.relabel now), final') ∧
      final.calls.Alike (· = ·) s.calls ∧ final'.calls.Alike (· = ·) s'.calls := by
  obtain ⟨t, ht⟩ := exists_build? hlength
  obtain ⟨rfl, rfl⟩ := root_eq_of_build? ht
  rw [← root_relabel, ← children_relabel]
  have hsame := isFoldable_relabel h
  by_cases hfoldable : t.isFoldable functions = true
  · obtain ⟨value, hvalue⟩ := exists_value_relabel constants hfoldable h s.calls
    obtain ⟨⟨calls, hcalls, halike⟩, -⟩ := hvalue s.calls
    obtain ⟨-, calls', hcalls', halike'⟩ := hvalue s'.calls
    rw [← root_relabel, ← literalValues_relabel, ← children_relabel] at hcalls'
    have hsmall : ∀ n, ExecutionMode.interpreted = .compiled → n + 1 < 2 ^ 28 := nofun
    exact ⟨.float value, ⟨calls, _⟩, ⟨calls', _⟩, foldNode_of_isFoldable (hsmall _) hfoldable hcalls,
      foldNode_of_isFoldable (hsmall _) (hsame.trans hfoldable) hcalls', halike, halike'⟩
  · have hnot : t.isFoldable functions = false := Bool.eq_false_iff.mpr hfoldable
    rw [foldNode_of_not_isFoldable hnot, foldNode_of_not_isFoldable (hsame.trans hnot),
      isZeroProduct_relabel]
    by_cases hzero : t.isZeroProduct = true
    · rw [if_pos hzero, if_pos hzero]
      exact ⟨.float 0, ⟨s.calls, .zeroProduct :: s.replacements⟩,
        ⟨s'.calls, .zeroProduct :: s'.replacements⟩, rfl, rfl, ⟨rfl, rfl⟩, rfl, rfl⟩
    · rw [if_neg hzero, if_neg hzero]
      exact ⟨t, s, s', rfl, rfl, ⟨rfl, rfl⟩, rfl, rfl⟩

private theorem runNodes_fold_relabel (constants : Table Constant) {nodes : List Node}
    (h : ∀ node ∈ nodes, FoldsAlike now functions functions' node) {stack : List Tree}
    (hfit : Node.Fit stack.length nodes) (s s' : FoldingState σ) :
    ∃ left final final',
      runNodes (foldNode .interpreted functions constants) nodes stack s = (.ok left, final) ∧
      runNodes (foldNode .interpreted functions' constants) (nodes.map (Node.relabel now))
        (stack.map (relabel now)) s' = (.ok (left.map (relabel now)), final') ∧
      final.calls.Alike (· = ·) s.calls ∧ final'.calls.Alike (· = ·) s'.calls := by
  have heq : Equivalence (α := σ) (· = ·) := ⟨fun _ => rfl, Eq.symm, Eq.trans⟩
  induction nodes generalizing stack s s' with
  | nil => exact ⟨stack, s, s', rfl, rfl, .refl heq _, .refl heq _⟩
  | cons node nodes ih =>
    rw [List.forall_mem_cons] at h
    obtain ⟨harity, hrest⟩ := hfit
    have hlength : (stack.take node.arity).reverse.length = node.arity := by
      rw [List.length_reverse, List.length_take, Nat.min_eq_left harity]
    obtain ⟨t, s₁, s₁', hnode, hnode', halike, halike'⟩ :=
      foldNode_relabel constants h.1 hlength s s'
    have hfit' : Node.Fit (t :: stack.drop node.arity).length nodes := by
      rwa [List.length_cons, List.length_drop]
    obtain ⟨left, final, final', hrun, hrun', hend, hend'⟩ := ih h.2 hfit' s₁ s₁'
    refine ⟨left, final, final', ?_, ?_, hend.trans heq halike, hend'.trans heq halike'⟩
    · rw [runNodes, Evaluation.bind_apply, hnode]
      exact hrun
    · rw [List.map_cons, runNodes, Evaluation.bind_apply, Node.relabel_arity, ← List.map_take,
        ← List.map_reverse, hnode', ← List.map_drop]
      exact hrun'

/-- Folding succeeds and changes nothing that functions can see. The relabeled tree is folded to the
relabeled result, at whatever time. -/
theorem fold_relabel (constants : Table Constant) {t : Tree}
    (h : ∀ node ∈ t.postorder, FoldsAlike now functions functions' node) (s s' : FoldingState σ) :
    ∃ t' final final', t.fold .interpreted functions constants s = (.ok t', final) ∧
      (t.relabel now).fold .interpreted functions' constants s' = (.ok (t'.relabel now), final') ∧
      final.calls.Alike (· = ·) s.calls ∧ final'.calls.Alike (· = ·) s'.calls := by
  have hfit : Node.Fit ([] : List Tree).length t.postorder := t.fit_postorder
  obtain ⟨left, final, final', hrun, hrun', halike, halike'⟩ :=
    runNodes_fold_relabel constants h hfit s s'
  refine ⟨left.headD (.float Binary64.nan), final, final', ?_, ?_, halike, halike'⟩
  · rw [fold_eq, Evaluation.bind_apply, hrun]
    rfl
  · have hhead : (left.map (relabel now)).headD (.float Binary64.nan) =
        (left.headD (.float Binary64.nan)).relabel now := by
      cases left <;> rfl
    rw [fold_eq, Evaluation.bind_apply, postorder_relabel, ← List.map_nil, hrun', ← hhead]
    rfl

end Tree

section Histories

open Evaluation

/-- What a function does is seen by others only in the memory and the generator. -/
theorem Function.respects_eq (f : Function σ) : f.Respects (· = ·) := by
  rintro arguments ⟨memory, generator, calls⟩ ⟨memory', generator', calls'⟩ ⟨hmemory, hgenerator⟩
  dsimp only at hmemory hgenerator
  subst hmemory hgenerator
  unfold run
  cases f.body <;> exact ⟨rfl, rfl, rfl⟩

theorem Node.evaluate_same (scope : Scope σ) (node : Node) (arguments : List Float) :
    Omits (· = ·) [] (node.evaluate scope arguments) (node.evaluate scope arguments) :=
  node.evaluate_omits (fun _ f _ => f.respects_eq) arguments

theorem Tree.evaluate_same (t : Tree) (scope : Scope σ) :
    Omits (· = ·) [] (t.evaluate scope) (t.evaluate scope) := by
  have hnodes : ∀ (nodes : List Node) (stack : List Float),
      Omits (· = ·) [] (runNodes (Node.evaluate scope) nodes stack)
        (runNodes (Node.evaluate scope) nodes stack) := by
    intro nodes
    induction nodes with
    | nil => exact fun stack => .pure stack
    | cons node nodes ih => exact fun stack => (node.evaluate_same scope _).bind fun x _ => ih _
  exact (hnodes t.postorder []).bind fun stack _ => .pure _

theorem Machine.execute_same (p : Program σ) (functions : Table (Function σ)) (slots : Array Float)
    (i : Instruction) (stack : List Float) :
    Omits (· = ·) [] (execute p functions slots i stack) (execute p functions slots i stack) := by
  unfold execute
  split
  case h_5 =>
    have hcall : ∀ target arguments, Omits (· = ·) [] (callTarget functions target arguments)
        (callTarget functions target arguments) := by
      intro target arguments
      cases target with
      | bound f => exact .call f.respects_eq arguments
      | byName name => exact Table.call_omits (fun _ f _ => f.respects_eq) name arguments
    exact (hcall _ _).bind fun _ _ => .pure _
  all_goals exact .pure _

theorem Machine.executeAll_same (p : Program σ) (functions : Table (Function σ))
    (slots : Array Float) (code : List Instruction) (stack : List Float) {s s' : CallState σ}
    (h : s.Alike (· = ·) s') :
    (executeAll p functions slots code stack s).1 = (executeAll p functions slots code stack s').1 ∧
      (executeAll p functions slots code stack s).2.1 =
        (executeAll p functions slots code stack s').2.1 ∧
      (executeAll p functions slots code stack s).2.2.Alike (· = ·)
        (executeAll p functions slots code stack s').2.2 := by
  induction code generalizing stack s s' with
  | nil => exact ⟨rfl, rfl, h⟩
  | cons i rest ih =>
    obtain ⟨hresult, halike, -⟩ := execute_same p functions slots i stack s s' h
    unfold executeAll
    revert hresult halike
    rcases execute p functions slots i stack s with ⟨r, t⟩
    rcases execute p functions slots i stack s' with ⟨r', t'⟩
    rintro (rfl : r = r') halike
    cases r with
    | error e => exact ⟨rfl, rfl, halike⟩
    | ok stack => exact ih stack halike

theorem Program.evaluate_same (p : Program σ) (scope : Scope σ) {s s' : CallState σ}
    (h : s.Alike (· = ·) s') :
    (p.evaluate scope s).1 = (p.evaluate scope s').1 ∧
      (p.evaluate scope s).2.Alike (· = ·) (p.evaluate scope s').2 := by
  unfold evaluate Machine.run
  rcases Machine.resolve scope p.variableNames.toList #[] with ⟨e | ⟨⟩, slots⟩
  · exact ⟨rfl, h⟩
  · obtain ⟨hresult, hstack, halike⟩ :=
      Machine.executeAll_same p scope.functions slots p.code.toList [] h
    revert hresult hstack halike
    dsimp only
    rcases Machine.executeAll p scope.functions slots p.code.toList [] s with ⟨r, stack, t⟩
    rcases Machine.executeAll p scope.functions slots p.code.toList [] s' with ⟨r', stack', t'⟩
    rintro (rfl : r = r') (rfl : stack = stack') halike
    cases r with
    | error e => exact ⟨rfl, halike⟩
    | ok => exact ⟨rfl, halike⟩

/-- An evaluation does the same whatever calls were made before. -/
theorem Evaluator.evaluate_same (e : Evaluator σ) (scope : Scope σ) {s s' : CallState σ}
    (h : s.Alike (· = ·) s') :
    (e.evaluate scope s).1 = (e.evaluate scope s').1 ∧
      (e.evaluate scope s).2.Alike (· = ·) (e.evaluate scope s').2 := by
  cases e with
  | interpreted t =>
    obtain ⟨hresult, halike, -⟩ := t.evaluate_same scope s s' h
    exact ⟨hresult, halike⟩
  | compiled program => exact program.evaluate_same scope h

end Histories

end FormulaEngine
