import FormulaEngine.Folding
import FormulaEngine.Proofs.BackendAgreement
import FormulaEngine.Proofs.CallSimulation
import Mathlib.Algebra.BigOperators.Group.List.Basic

/-!
Soundness of folding. Unless a product with zero was cut short, the folded tree does
what the tree itself does, with whatever functions were registered in between; it only
leaves out the calls that were made while it was folded. What is relied on concerns
the functions that calls marked idempotent are folded with: they are steady up to a
relation of the memories that all other functions respect.
-/
namespace FormulaEngine

variable {σ : Type}

/-- A tree made ready for evaluation, at once or earlier, does what the walk over it does if all of
its variables have values. -/
theorem ExecutionMode.evaluate_prepare (mode : ExecutionMode) {t : Tree}
    (hsize : mode = .compiled → t.postorder.length < 2 ^ 28) {functions : Table (Function σ)}
    {scope : Scope σ}
    (hbound : ∀ name f, functions.get? name = some f → f.overwritable = false →
      scope.functions.get? name = some f)
    (hdefined : ∀ name ∈ t.variableNames, scope.defines name = true) :
    (mode.prepare t functions).evaluate scope = t.evaluate scope := by
  cases mode with
  | interpreted => rfl
  | compiled =>
    funext s
    exact Machine.run_compile_of_defined (hsize rfl) hbound hdefined .fresh s

/-- Both modes give a tree the same value if all of its variables have one. -/
theorem ExecutionMode.execute_eq (mode : ExecutionMode) {t : Tree}
    (hsize : mode = .compiled → t.postorder.length < 2 ^ 28) {scope : Scope σ}
    (hdefined : ∀ name ∈ t.variableNames, scope.defines name = true) (s : CallState σ) :
    mode.execute t scope s = t.evaluate scope s :=
  congrFun (mode.evaluate_prepare hsize (fun _ _ hget _ => hget) hdefined) s

namespace Tree

theorem postorder_of_isLiteral {t : Tree} (h : t.isLiteral = true) : t.postorder = [t.root] := by
  cases t <;> first | rfl | cases h

theorem variableNames_eq_nil {t : Tree} (hroot : t.root.variableName? = none)
    (h : t.children.all isLiteral = true) : t.variableNames = [] := by
  rw [List.eq_nil_iff_forall_not_mem]
  intro name hname
  obtain ⟨node, hnode, hvar⟩ := List.mem_filterMap.mp (Node.mem_firstUses.mp hname)
  rw [postorder_eq, List.mem_append, List.mem_flatMap, List.mem_singleton] at hnode
  rcases hnode with ⟨child, hchild, hnode⟩ | rfl
  · have hliteral := List.all_eq_true.mp h child hchild
    rw [postorder_of_isLiteral hliteral, List.mem_singleton] at hnode
    subst hnode
    cases child <;>
      simp [isLiteral, literal?, root, Node.variableName?] at hliteral hvar
  · rw [hroot] at hvar
    cases hvar

theorem length_postorder_of_literals {t : Tree} (h : t.children.all isLiteral = true) :
    t.postorder.length = t.children.length + 1 := by
  have hlengths : t.children.map (fun child => child.postorder.length) =
      t.children.map fun _ => 1 := by
    apply List.map_congr_left
    intro child hchild
    rw [postorder_of_isLiteral (List.all_eq_true.mp h child hchild)]
    rfl
  rw [postorder_eq, List.length_append, List.length_flatMap, hlengths]
  simp

/-- A node that is folded has literals for operands, and a call among them is marked idempotent and
has a function that cannot be overwritten. -/
theorem foldable_cases {functions : Table (Function σ)} {t : Tree}
    (h : t.isFoldable functions = true) :
    t.children.all isLiteral = true ∧ t.root.variableName? = none ∧
      (t.root.calleeName? = none ∨
        ∃ name n f, t.root = .call name n true ∧ functions.get? name = some f ∧
          f.overwritable = false) := by
  cases t with
  | negate argument => exact ⟨by simpa [children, isFoldable] using h, rfl, .inl rfl⟩
  | binary op left right => exact ⟨by simpa [children, isFoldable] using h, rfl, .inl rfl⟩
  | call name arguments idempotent =>
    simp only [isFoldable, Bool.and_eq_true, isProtected, Option.any_eq_true,
      Bool.not_eq_eq_eq_not, Bool.not_true] at h
    obtain ⟨⟨rfl, hliterals⟩, f, hget, hprotected⟩ := h
    exact ⟨hliterals, rfl, .inr ⟨name, _, f, rfl, hget, hprotected⟩⟩
  | _ => cases h

/-- A node that is folded has the same value in both modes, that of its root. -/
theorem execute_of_isFoldable {functions : Table (Function σ)} (mode : ExecutionMode) {t : Tree}
    (hsmall : mode = .compiled → t.children.length + 1 < 2 ^ 28)
    (h : t.isFoldable functions = true) (constants : Table Constant) (s : CallState σ) :
    mode.execute t ⟨functions, constants, []⟩ s =
      t.root.evaluate ⟨functions, constants, []⟩ (literalValues t.children) s := by
  obtain ⟨hliterals, hvar, -⟩ := foldable_cases h
  have hdefined : ∀ name ∈ t.variableNames,
      (⟨functions, constants, []⟩ : Scope σ).defines name = true := by
    simp [variableNames_eq_nil hvar hliterals]
  rw [mode.execute_eq (by rwa [length_postorder_of_literals hliterals]) hdefined,
    evaluate_of_literals hliterals]

theorem foldNode_of_isFoldable {functions : Table (Function σ)} {mode : ExecutionMode} {t : Tree}
    (hsmall : mode = .compiled → t.children.length + 1 < 2 ^ 28)
    (h : t.isFoldable functions = true) {constants : Table Constant} {s : FoldingState σ}
    {value : Float} {calls : CallState σ}
    (hvalue : t.root.evaluate ⟨functions, constants, []⟩ (literalValues t.children) s.calls =
      (.ok value, calls)) :
    foldNode mode functions constants t.root t.children s =
      (.ok (.float value), ⟨calls, .folded t value :: s.replacements⟩) := by
  have hexecute := (execute_of_isFoldable mode hsmall h constants s.calls).trans hvalue
  rw [foldNode_eq _ _ _ t.build?_root_children, if_pos h, Evaluation.bind_apply,
    Evaluation.duringFolding, hexecute]
  rfl

theorem foldNode_of_not_isFoldable {functions : Table (Function σ)} {t : Tree}
    (h : t.isFoldable functions = false) (mode : ExecutionMode) (constants : Table Constant)
    (s : FoldingState σ) :
    foldNode mode functions constants t.root t.children s =
      if t.isZeroProduct = true then
        (.ok (.float 0), ⟨s.calls, .zeroProduct :: s.replacements⟩)
      else (.ok t, s) := by
  rw [foldNode_eq _ _ _ t.build?_root_children, if_neg (Bool.eq_false_iff.mp h)]
  by_cases hzero : t.isZeroProduct = true
  · rw [if_pos hzero, if_pos hzero]
    rfl
  · rw [if_neg hzero, if_neg hzero]
    rfl

end Tree

/-- What evaluation after folding relies on: the functions that could not be overwritten are still
there, and every function respects the relation of the memories. -/
structure Scope.Follows (R : σ → σ → Prop) (scope : Scope σ) (functions : Table (Function σ)) :
    Prop where
  kept : ∀ name f, functions.get? name = some f → f.overwritable = false →
    scope.functions.get? name = some f
  respects : ∀ name f, scope.functions.get? name = some f → f.Respects R

/-- What folding relies on. -/
structure Tree.Admissible (R : σ → σ → Prop) (mode : ExecutionMode)
    (functions : Table (Function σ)) (t : Tree) : Prop where
  steady : ∀ name n, Node.call name n true ∈ t.postorder → ∀ f, functions.get? name = some f →
    f.overwritable = false → f.Steady R
  small : mode = .compiled → t.postorder.length < 2 ^ 28

theorem Tree.Admissible.child {R : σ → σ → Prop} {mode : ExecutionMode}
    {functions : Table (Function σ)} {t child : Tree} (h : t.Admissible R mode functions)
    (hchild : child ∈ t.children) : child.Admissible R mode functions where
  steady name n hcall := h.steady name n ((postorder_sublist_of_child hchild).subset hcall)
  small hmode := Nat.lt_of_le_of_lt (postorder_sublist_of_child hchild).length_le (h.small hmode)

namespace FoldingState

/-- What folding has done between two states: the calls it made and the replacements, the latest of
which comes first. -/
structure Extends (R : σ → σ → Prop) (folded : List Call) (replaced : List Replacement)
    (s s' : FoldingState σ) : Prop where
  calls : s'.calls.calls = folded.reverse ++ s.calls.calls
  alike : s'.calls.Alike R s.calls
  replacements : s'.replacements = replaced ++ s.replacements

variable {R : σ → σ → Prop} (hR : Equivalence R)
include hR

theorem Extends.refl (s : FoldingState σ) : s.Extends R [] [] s := ⟨rfl, .refl hR _, rfl⟩

theorem Extends.trans {folded folded' : List Call} {replaced replaced' : List Replacement}
    {s s' s'' : FoldingState σ} (h : s.Extends R folded replaced s')
    (h' : s'.Extends R folded' replaced' s'') :
    s.Extends R (folded ++ folded') (replaced' ++ replaced) s'' where
  calls := by rw [h'.calls, h.calls, List.reverse_append, List.append_assoc]
  alike := h'.alike.trans hR h.alike
  replacements := by rw [h'.replacements, h.replacements, List.append_assoc]

end FoldingState

namespace Tree

open Evaluation

variable {R : σ → σ → Prop} (hR : Equivalence R) (mode : ExecutionMode)
  (functions : Table (Function σ)) (constants : Table Constant)
include hR

/-- A node that is folded has a value of its own: it makes the same calls and comes to the same
value under every table in which the functions that cannot be overwritten are still there. -/
private theorem exists_value {t : Tree} (h : t.isFoldable functions = true)
    (hsteady : ∀ name n, t.root = .call name n true → ∀ f, functions.get? name = some f →
      f.overwritable = false → f.Steady R) (s₀ : CallState σ) :
    ∃ folded value, ∀ scope : Scope σ,
      (∀ name f, functions.get? name = some f → f.overwritable = false →
        scope.functions.get? name = some f) →
      Omits R folded (t.root.evaluate scope (literalValues t.children)) (pure value) := by
  obtain ⟨-, hvar, hcallee | ⟨name, n, f, hroot, hget, hprotected⟩⟩ := foldable_cases h
  · obtain ⟨value, hvalue⟩ := Node.exists_value (σ := σ) hvar hcallee (literalValues t.children)
    refine ⟨[], value, fun scope _ => ?_⟩
    rw [hvalue]
    exact .pure value
  · refine ⟨[f.record (literalValues t.children)],
      (f.run (literalValues t.children) s₀).1, fun scope hkept => ?_⟩
    have hcall : t.root.evaluate scope (literalValues t.children) =
        f.call (literalValues t.children) := by
      rw [hroot, Node.evaluate, Table.call, hkept name f hget hprotected]
    rw [hcall]
    exact .call_pure hR (hsteady name n hroot f hget hprotected)

/-- Folding a node whose arguments are folded already. Either it stays as it is, or its arguments
are literals and it gives way to its value. -/
private theorem foldNode_spec {node : Node} {arguments : List Tree}
    (hlength : arguments.length = node.arity)
    (hsteady : ∀ name n, node = .call name n true → ∀ f, functions.get? name = some f →
      f.overwritable = false → f.Steady R)
    (hsmall : mode = .compiled → arguments.length + 1 < 2 ^ 28) (s : FoldingState σ) :
    ∃ t s' folded replaced, foldNode mode functions constants node arguments s = (.ok t, s') ∧
      s.Extends R folded replaced s' ∧
      (Replacement.zeroProduct ∉ replaced → ∀ scope : Scope σ, scope.Follows R functions →
        ∃ step, t.evaluate scope = arguments.mapM (fun child => child.evaluate scope) >>= step ∧
          ∀ xs, (∃ s, (arguments.mapM (fun child => child.evaluate scope) s).1 = .ok xs) →
            Omits R folded (node.evaluate scope xs) (step xs)) := by
  obtain ⟨t, ht⟩ := exists_build? hlength
  obtain ⟨rfl, rfl⟩ := root_eq_of_build? ht
  by_cases hfoldable : t.isFoldable functions = true
  · obtain ⟨hliterals, -, -⟩ := foldable_cases hfoldable
    obtain ⟨folded, value, hvalue⟩ := exists_value hR functions hfoldable hsteady s.calls
    obtain ⟨calls, hcalls, halike, hmade⟩ :=
      (hvalue ⟨functions, constants, []⟩ fun _ _ hget _ => hget).eq_of_pure hR s.calls
    refine ⟨.float value, ⟨calls, .folded t value :: s.replacements⟩, folded, [.folded t value],
      foldNode_of_isFoldable hsmall hfoldable hcalls, ⟨hmade, halike, rfl⟩, fun _ scope hscope => ?_⟩
    refine ⟨fun _ => pure value, ?_, fun xs hxs => ?_⟩
    · rw [mapM_evaluate_of_literals hliterals, pure_bind]
      exact evaluate_of_literal? rfl scope
    · obtain ⟨s, hs⟩ := hxs
      rw [mapM_evaluate_of_literals hliterals, pure_apply] at hs
      cases hs
      exact hvalue scope hscope.kept
  · have hnode := foldNode_of_not_isFoldable (Bool.eq_false_iff.mpr hfoldable) mode constants s
    by_cases hzero : t.isZeroProduct = true
    · rw [if_pos hzero] at hnode
      exact ⟨.float 0, ⟨s.calls, .zeroProduct :: s.replacements⟩, [], [.zeroProduct], hnode,
        ⟨rfl, .refl hR _, rfl⟩, fun hnone => (hnone List.mem_cons_self).elim⟩
    · rw [if_neg hzero] at hnode
      refine ⟨t, s, [], [], hnode, .refl hR s, fun _ scope hscope => ?_⟩
      exact ⟨t.root.evaluate scope, t.evaluate_eq scope,
        fun xs _ => t.root.evaluate_omits hscope.respects xs⟩

/-- Folding of trees in a row. -/
private theorem mapM_fold_spec {ts : List Tree}
    (hts : ∀ t ∈ ts, ∀ s : FoldingState σ, ∃ t' s' folded replaced,
      t.passM (foldNode mode functions constants) s = (.ok t', s') ∧
      s.Extends R folded replaced s' ∧
      (Replacement.zeroProduct ∉ replaced → ∀ scope : Scope σ, scope.Follows R functions →
        Omits R folded (t.evaluate scope) (t'.evaluate scope)))
    (s : FoldingState σ) :
    ∃ ts' s' folded replaced,
      ts.mapM (passM (foldNode mode functions constants)) s = (.ok ts', s') ∧
      ts'.length = ts.length ∧ s.Extends R folded replaced s' ∧
      (Replacement.zeroProduct ∉ replaced → ∀ scope : Scope σ, scope.Follows R functions →
        Omits R folded (ts.mapM fun t => t.evaluate scope)
          (ts'.mapM fun t => t.evaluate scope)) := by
  induction ts generalizing s with
  | nil => exact ⟨[], s, [], [], rfl, rfl, .refl hR s, fun _ _ _ => .pure []⟩
  | cons t ts ih =>
    obtain ⟨t', s₁, folded₁, replaced₁, hfirst, hextends₁, hsound₁⟩ :=
      hts t List.mem_cons_self s
    obtain ⟨ts', s₂, folded₂, replaced₂, hrest, hlength, hextends₂, hsound₂⟩ :=
      ih (fun u hu => hts u (List.mem_cons_of_mem t hu)) s₁
    refine ⟨t' :: ts', s₂, folded₁ ++ folded₂, replaced₂ ++ replaced₁, ?_, congrArg (· + 1) hlength,
      hextends₁.trans hR hextends₂, fun hnone scope hscope => ?_⟩
    · rw [List.mapM_cons, bind_apply, hfirst]
      dsimp only
      rw [bind_apply, hrest]
      rfl
    · rw [List.mem_append, not_or] at hnone
      rw [List.mapM_cons, List.mapM_cons]
      apply (hsound₁ hnone.2 scope hscope).bind
      intro x _
      rw [← List.append_nil folded₂]
      exact (hsound₂ hnone.1 scope hscope).bind fun xs _ => .pure (x :: xs)

/-- Folding succeeds, and unless a product with zero was cut short it leaves out calls only. -/
theorem passM_fold_spec (t : Tree) (h : t.Admissible R mode functions) (s : FoldingState σ) :
    ∃ t' s' folded replaced, t.passM (foldNode mode functions constants) s = (.ok t', s') ∧
      s.Extends R folded replaced s' ∧
      (Replacement.zeroProduct ∉ replaced → ∀ scope : Scope σ, scope.Follows R functions →
        Omits R folded (t.evaluate scope) (t'.evaluate scope)) := by
  induction t using children_induction generalizing s with
  | step t ih =>
    obtain ⟨arguments, s₁, folded₁, replaced₁, harguments, hlength, hextends₁, hsound₁⟩ :=
      mapM_fold_spec hR mode functions constants
        (fun child hchild => ih child hchild (h.child hchild)) s
    obtain ⟨t', s₂, folded₂, replaced₂, hnode, hextends₂, hsound₂⟩ :=
      foldNode_spec hR mode functions constants (hlength.trans t.length_children)
        (fun name n hroot => h.steady name n (hroot ▸ t.root_mem_postorder))
        (fun hmode => by have := h.small hmode; have := t.length_children_lt; omega) s₁
    refine ⟨t', s₂, folded₁ ++ folded₂, replaced₂ ++ replaced₁, ?_,
      hextends₁.trans hR hextends₂, fun hnone scope hscope => ?_⟩
    · rw [passM_eq, bind_apply, harguments]
      exact hnode
    · rw [List.mem_append, not_or] at hnone
      obtain ⟨step, hstep, homits⟩ := hsound₂ hnone.1 scope hscope
      rw [hstep, evaluate_eq]
      exact (hsound₁ hnone.2 scope hscope).bind homits

end Tree

/-- Folding succeeds. If it cut no product with zero short, the folded tree has the same result as
the tree itself, or fails in the same way, whatever is registered later and whatever the constants
and bindings are then. The calls that it leaves out are those made by folding; all others are made
in the same order with the same arguments. -/
theorem fold_preserves_meaning {R : σ → σ → Prop} (hR : Equivalence R) (mode : ExecutionMode)
    (functions : Table (Function σ)) (constants : Table Constant) (t : Tree)
    (h : t.Admissible R mode functions) (s : CallState σ) :
    ∃ t' final folded, t.fold mode functions constants ⟨s, []⟩ = (.ok t', final) ∧
      final.calls.calls = folded.reverse ++ s.calls ∧ final.calls.Alike R s ∧
      (Replacement.zeroProduct ∉ final.replacements →
        ∀ (registrations : List (Function σ)) (later : Table Constant) (bindings : Bindings),
          (∀ name f, (functions.attemptAll registrations).get? name = some f → f.Respects R) →
          let scope : Scope σ := ⟨functions.attemptAll registrations, later, bindings⟩
          Evaluation.Omits R folded (t.evaluate scope) (t'.evaluate scope)) := by
  obtain ⟨t', final, folded, replaced, hfold, hextends, hsound⟩ :=
    t.passM_fold_spec hR mode functions constants h ⟨s, []⟩
  refine ⟨t', final, folded, ?_, hextends.calls, hextends.alike,
    fun hnone registrations later bindings hrespects => ?_⟩
  · rw [Tree.fold_eq, Tree.runNodes_postorder, map_eq_pure_bind, bind_assoc, Evaluation.bind_apply,
      hfold]
    rfl
  · rw [hextends.replacements, List.append_nil] at hnone
    refine hsound hnone _ ⟨fun name f hget hprotected => ?_, hrespects⟩
    exact Table.get?_attemptAll_of_protected hget hprotected registrations

private def Replacement.isFolded : Replacement → Bool
  | folded _ _ => true
  | zeroProduct => false

/-- A function that remembers how often it was called, in a memory that nothing else reads. -/
private def double : Function (Nat × Nat) :=
  ⟨⟨"double", some 1, true, false⟩, .host fun xs m => (2 * xs.headD 0, (m.1, m.2 + 1))⟩

/-- A function that tells how often it was called. -/
private def count : Function (Nat × Nat) :=
  ⟨⟨"count", some 0, false, false⟩, .host fun _ m => (Float.ofNat (m.1 + 1), (m.1 + 1, m.2))⟩

/-- The call of `double` is made once and for all, and `count` is called every time. -/
theorem fold_preserves_meaning_double :
    let R (m m' : Nat × Nat) : Prop := m.1 = m'.1
    let functions : Table (Function (Nat × Nat)) := ⟨false, [("double", double), ("count", count)]⟩
    let registrations : List (Function (Nat × Nat)) :=
      [⟨⟨"Double", some 1, true, true⟩, .pure fun _ => 0⟩]
    let scope : Scope (Nat × Nat) := ⟨functions.attemptAll registrations, .empty false, []⟩
    let t : Tree := .binary .add (.call "double" [.integer 2] true) (.call "count" [] false)
    let s : CallState (Nat × Nat) := ⟨(4, 0), ⟨[], 0⟩, []⟩
    Equivalence R ∧ t.Admissible R .compiled functions ∧
      (∀ name f, scope.functions.get? name = some f → f.Respects R) ∧
      ∃ t', (t.fold .compiled functions (.empty false) ⟨s, []⟩).1 = .ok t' ∧
        (t.evaluate scope s).1 = (t'.evaluate scope s).1 ∧ (t.evaluate scope s).1 = .ok 9 := by
  intro R functions registrations scope t s
  have hR : Equivalence R := ⟨fun _ => rfl, Eq.symm, Eq.trans⟩
  have hentries : ∀ name f, functions.get? name = some f → f = double ∨ f = count := by
    intro name f hget
    simpa [functions] using Table.mem_of_get? hget
  have hdouble : double.Steady R := fun _ _ _ => ⟨rfl, rfl, rfl⟩
  have hrespects : ∀ name f, scope.functions.get? name = some f → f.Respects R := by
    intro name f hget
    rcases Table.mem_of_get?_attemptAll hget with hmem | hget
    · rw [List.mem_singleton.mp hmem]
      exact fun _ _ _ h => ⟨rfl, h⟩
    rcases hentries name f hget with rfl | rfl
    · exact hdouble.respects hR
    · intro _ s s' h
      have hmemory : s.memory.1 = s'.memory.1 := h.memory
      refine ⟨?_, ?_, h.generator⟩ <;> simp only [Function.run, count, hmemory, R]
  have hadmissible : t.Admissible R .compiled functions := by
    refine ⟨fun name n hcall f hget _ => ?_, fun _ => by decide⟩
    obtain ⟨rfl, -⟩ : name = "double" ∧ n = 1 := by
      simpa [t, Tree.postorder, Tree.emit, Tree.emitAll] using hcall
    have hname : (functions.get? "double").map (fun f => f.name) = some "double" := by
      decide +kernel
    rcases hentries _ f hget with rfl | rfl
    · exact hdouble
    · simp [hget, count] at hname
  have hnone : (t.fold .compiled functions (.empty false) ⟨s, []⟩).2.replacements.all
      Replacement.isFolded = true := by decide +kernel
  refine ⟨hR, hadmissible, hrespects, ?_⟩
  obtain ⟨t', final, folded, hfold, -, -, hsound⟩ :=
    fold_preserves_meaning hR .compiled functions (.empty false) t hadmissible s
  rw [hfold] at hnone ⊢
  have homits := hsound (fun h => Bool.false_ne_true (List.all_eq_true.mp hnone _ h)) registrations
    (.empty false) [] hrespects
  exact ⟨t', rfl, (homits s s (.refl hR s)).1, by decide +kernel⟩

/-- Folding trusts the mark of a call: it is no matter that `count` itself is not marked. -/
theorem fold_trusts_marked_call :
    let functions : Table (Function (Nat × Nat)) := ⟨false, [("count", count)]⟩
    let scope : Scope (Nat × Nat) := ⟨functions, .empty false, []⟩
    let t : Tree := .call "count" [] true
    (∀ name f, functions.get? name = some f → f.overwritable = false → f.idempotent = true →
      f.Steady (· = ·)) ∧
    ∃ t' final, t.fold .interpreted functions (.empty false) ⟨⟨(0, 0), ⟨[], 0⟩, []⟩, []⟩ =
        (.ok t', final) ∧ Replacement.zeroProduct ∉ final.replacements ∧
      (t.evaluate scope final.calls).1 = .ok 2 ∧ (t'.evaluate scope final.calls).1 = .ok 1 := by
  intro functions scope t
  constructor
  · intro name f hget _ hidempotent
    obtain rfl : f = count := by simpa [functions] using Table.mem_of_get? hget
    cases hidempotent
  · have hrun : (match t.fold .interpreted functions (.empty false)
        ⟨⟨(0, 0), ⟨[], 0⟩, []⟩, []⟩ with
        | (.ok t', final) => decide ((t.evaluate scope final.calls).1 = .ok 2 ∧
            (t'.evaluate scope final.calls).1 = .ok 1) &&
          final.replacements.all Replacement.isFolded
        | _ => false) = true := by decide +kernel
    revert hrun
    rcases t.fold .interpreted functions (.empty false) _ with ⟨e | t', final⟩ <;> intro hrun
    · cases hrun
    · simp only [Bool.and_eq_true, decide_eq_true_eq, List.all_eq_true] at hrun
      obtain ⟨hresults, hnone⟩ := hrun
      exact ⟨t', final, rfl, fun h => Bool.false_ne_true (hnone _ h), hresults⟩

end FormulaEngine
