import FormulaEngine.Proofs.FoldingSoundness
import FormulaEngine.Proofs.PrintedTrees
import Mathlib.Data.List.Perm.Subperm

/-!
Calls with too many arguments. The word of an instruction has 28 bits for the number of arguments of
a call. The first number that they cannot count runs over into the operand above: the first call of
a program is then one of its second target, with no arguments, while the numbers that were put on
the stack for it stay there.
-/
namespace FormulaEngine

variable {σ : Type}

theorem Instruction.pack_call_over :
    (pack .call 0 (2 ^ 28)).opcode? = some .call ∧ (pack .call 0 (2 ^ 28)).a = 1 ∧
      (pack .call 0 (2 ^ 28)).b = 0 := by
  decide +kernel

namespace Node

theorem fit_leaves {nodes : List Node} (h : ∀ node ∈ nodes, node.arity = 0) {height : Nat}
    {more : List Node} (hmore : Fit (height + nodes.length) more) : Fit height (nodes ++ more) := by
  induction nodes generalizing height with
  | nil => exact hmore
  | cons node nodes ih =>
    rw [List.forall_mem_cons] at h
    refine ⟨h.1 ▸ Nat.zero_le height, ih h.2 ?_⟩
    rw [h.1, Nat.sub_zero, Nat.add_assoc, Nat.add_comm 1]
    exact hmore

end Node

namespace Tree

/-- The tree of `f(1, …, 1) + g(…)`, with variables for the arguments of the second call. -/
def crowded (f g : String) (ones : Nat) (names : List String) : Tree :=
  .binary .add (.call f (List.replicate ones (.integer 1)) true) (.call g (names.map .var) true)

/-- The nodes of such a tree before its first call. -/
def crowd (ones : Nat) : List Node := List.replicate ones (.integer 1)

/-- The nodes of such a tree after its first call. -/
def afterCrowd (g : String) (names : List String) : List Node :=
  names.map .var ++ [.call g names.length true, .binary .add]

@[simp]
theorem length_crowd (ones : Nat) : (crowd ones).length = ones := List.length_replicate

theorem crowd_unnamed (ones : Nat) :
    (crowd ones).filterMap Node.calleeName? = [] ∧
      (crowd ones).filterMap Node.variableName? = [] := by
  simp [crowd, Node.calleeName?, Node.variableName?]

theorem filterMap_calleeName_afterCrowd (g : String) (names : List String) :
    (afterCrowd g names).filterMap Node.calleeName? = [g] := by
  simp [afterCrowd, List.filterMap_append, List.filterMap_map, Function.comp_def, Node.calleeName?]

theorem postorder_crowded (f g : String) (ones : Nat) (names : List String) :
    (crowded f g ones names).postorder =
      crowd ones ++ .call f ones true :: afterCrowd g names := by
  have hones : (List.replicate ones (Tree.integer 1)).flatMap postorder = crowd ones := by
    rw [List.flatMap_replicate]
    exact List.flatten_replicate_singleton
  have hnames : (names.map Tree.var).flatMap postorder = names.map .var := by
    rw [List.flatMap_map]
    exact List.flatMap_pure_eq_map ..
  rw [crowded, postorder_eq, children, List.flatMap_cons, List.flatMap_singleton, postorder_eq,
    postorder_eq (.call g _ _), children, children, hones, hnames]
  simp [root, afterCrowd]

theorem forall_mem_postorder_crowded {P : Node → Prop} {f g : String} {ones : Nat}
    {names : List String} (hone : P (.integer 1)) (hf : P (.call f ones true))
    (hvars : ∀ name ∈ names, P (.var name)) (hg : P (.call g names.length true))
    (hadd : P (.binary .add)) : ∀ node ∈ (crowded f g ones names).postorder, P node := by
  rw [postorder_crowded, afterCrowd, List.forall_mem_append, List.forall_mem_cons,
    List.forall_mem_append, List.forall_mem_map]
  refine ⟨fun node hnode => ?_, hf, hvars, ?_⟩
  · obtain rfl := List.eq_of_mem_replicate hnode
    exact hone
  · simp [hg, hadd]

theorem isBlankText_crowded (f g : String) (ones : Nat) (names : List String) :
    Text.isBlankText (crowded f g ones names).text.toList = false := by
  have hbracket : Text.isBlank '(' = false := by decide
  rw [text, String.toList_ofList, crowded, print, Text.isBlankText, List.all_cons, hbracket,
    Bool.false_and]

theorem parse_crowded {v : Vocabulary} {first second : Signature}
    (hnamed : ∀ name callee, v.function? name = some callee → Text.isName callee.name = true)
    (hfirst : v.function? first.name = some first) (hvariadic : first.arity = none)
    (hsecond : v.function? second.name = some second)
    (hidempotent : first.idempotent = true ∧ second.idempotent = true) {names : List String}
    (harity : second.arity = some names.length)
    (hvars : ∀ name ∈ names, Node.IsKnown v (.var name)) (ones : Nat) :
    let t := crowded first.name second.name ones names
    parse .enUs v t.text = .ok t := by
  intro t
  have hknown : ∀ node ∈ t.postorder, node.IsKnown v :=
    forall_mem_postorder_crowded trivial
      ⟨first, hfirst, rfl, hidempotent.1, by rw [Signature.accepts, hvariadic]; rfl⟩ hvars
      ⟨second, hsecond, rfl, hidempotent.2, by simp [Signature.accepts, harity]⟩ trivial
  have hplain : ∀ node ∈ t.postorder, node.isPlain = true :=
    forall_mem_postorder_crowded rfl rfl (fun _ _ => rfl) rfl rfl
  have hnumbers : ∀ node ∈ t.postorder, ∀ x, node ≠ .float x :=
    forall_mem_postorder_crowded nofun nofun (fun _ _ => nofun) nofun nofun
  have hreadable : t.Readable v := ⟨hknown, hnamed, fun x hx => absurd rfl (hnumbers _ hx x)⟩
  exact (spells_print hreadable).parse.trans (congrArg _ (reread_eq_self hplain))

section Compilation

variable (functions : Table (Function σ)) (f g : String) {ones : Nat} (hones : ones = 2 ^ 28)
  {names : List String} (hnames : names.length + 2 < 2 ^ 28)

theorem mem_variableNames_crowded {name : String} :
    name ∈ (crowded f g ones names).variableNames ↔ name ∈ names := by
  have hafter : (afterCrowd g names).filterMap Node.variableName? = names := by
    rw [afterCrowd, List.filterMap_append, List.filterMap_map]
    exact (List.append_nil _).trans List.filterMap_some
  rw [variableNames, Node.mem_firstUses, postorder_crowded, List.filterMap_append,
    (crowd_unnamed ones).2, List.filterMap_cons_none rfl, hafter, List.nil_append]

theorem length_variableNames_crowded :
    (crowded f g ones names).variableNames.length ≤ names.length :=
  ((Node.nodup_firstUses _).subperm fun _ => (mem_variableNames_crowded f g).mp).length_le

include hnames in
/-- What comes after the first call has room in its instructions. -/
theorem operands_afterCrowd {before after : List Node} {node : Node}
    (hsplit : afterCrowd g names = before ++ node :: after) {slots : List String}
    (hslots : slots.length ≤ names.length) :
    let past := crowd ones ++ .call f ones true :: before
    (node.operands slots past).1 < 2 ^ 28 ∧ (node.operands slots past).2 < 2 ^ 28 := by
  intro past
  have hpositive : 0 < 2 ^ 28 := Nat.two_pow_pos 28
  have hlength : before.length + 1 ≤ names.length + 2 := by
    have h := congrArg List.length hsplit
    simp only [afterCrowd, List.length_append, List.length_map, List.length_cons,
      List.length_nil] at h
    omega
  have hnode : node ∈ afterCrowd g names := hsplit ▸ List.mem_append_right _ List.mem_cons_self
  simp only [afterCrowd, List.mem_append, List.mem_map, List.mem_cons, List.not_mem_nil,
    or_false] at hnode
  rcases hnode with ⟨name, -, rfl⟩ | rfl | rfl
  · have hslot : slots.idxOf name ≤ slots.length := List.idxOf_le_length
    exact ⟨by simp only [Node.operands]; omega, hpositive⟩
  · have htargets : (past.filterMap Node.calleeName?).length ≤ before.length + 1 := by
      rw [List.filterMap_append, (crowd_unnamed ones).1, List.nil_append]
      exact List.length_filterMap_le _ _
    exact ⟨by simp only [Node.operands]; omega, by simp only [Node.operands]; omega⟩
  · exact ⟨hpositive, hpositive⟩

include hones in
/-- The instruction of the first call is one for a call of the second function. -/
theorem encodes_crowded_call :
    ((crowded f g ones names).compile functions).Encodes functions
      ((Node.call f ones true).instruction (crowded f g ones names).variableNames (crowd ones))
      (.call g 0 true) := by
  obtain ⟨hop, ha, hb⟩ := Instruction.pack_call_over
  have hinstruction : (Node.call f ones true).instruction (crowded f g ones names).variableNames
      (crowd ones) = .pack .call 0 (2 ^ 28) := by
    rw [Node.instruction, Node.operands, (crowd_unnamed ones).1, hones]
    rfl
  have hcallees : (crowded f g ones names).postorder.filterMap Node.calleeName? = [f, g] := by
    rw [postorder_crowded, List.filterMap_append, (crowd_unnamed ones).1, List.nil_append,
      List.filterMap_cons, filterMap_calleeName_afterCrowd]
    rfl
  rw [hinstruction]
  refine ⟨hop, ?_, hb⟩
  have htargets := ((crowded f g ones names).compile_lays functions).targets
  rw [hcallees] at htargets
  rw [ha, ← Array.getElem?_toList]
  exact congrArg (·[1]?) htargets

include hones hnames

/-- A program for a tree in which the first call has too many arguments does what it would do if
that were a call of the next function with none. -/
theorem compile_crowded :
    List.Forall₂ (((crowded f g ones names).compile functions).Encodes functions)
      ((crowded f g ones names).compile functions).code.toList
      (crowd ones ++ .call g 0 true :: afterCrowd g names) := by
  have hlays := (crowded f g ones names).compile_lays functions
  have hslots : (crowded f g ones names).variableNames.length ≤ names.length :=
    length_variableNames_crowded f g
  have hlength : (crowd ones ++ Node.call g 0 true :: afterCrowd g names).length =
      (crowded f g ones names).postorder.length := by simp [postorder_crowded]
  refine hlays.covers hlength fun before node after hsplit other hother => ?_
  have hnodes := (postorder_crowded f g ones names).symm.trans hsplit
  -- a literal before the first call, the call itself, or a node after it
  rcases Nat.lt_or_ge before.length ones with hlt | hge
  · have hnode : (crowd ones ++ .call f ones true :: afterCrowd g names)[before.length]? =
        some node := by
      rw [hnodes, List.getElem?_append_right (Nat.le_refl _), Nat.sub_self]
      rfl
    have hone : (crowd ones)[before.length]? = some (.integer 1) :=
      List.getElem?_replicate_of_lt hlt
    rw [List.getElem?_append_left (by simpa using hlt), hone, Option.some.injEq] at hnode hother
    subst hnode hother
    have hconstants := List.length_filterMap_le Node.constant? before
    exact hlays.encodes hsplit (by simp only [Node.operands]; omega) (Nat.two_pow_pos 28)
  have hfirst : crowd ones <+: before :=
    List.prefix_of_prefix_length_le ⟨_, hnodes⟩ ⟨_, rfl⟩ (by simpa using hge)
  obtain ⟨past, rfl⟩ := hfirst
  rw [List.append_assoc, List.append_cancel_left_eq] at hnodes
  rw [List.getElem?_append_right (by simp), List.length_append, Nat.add_sub_cancel_left] at hother
  rcases past with _ | ⟨call, past⟩
  · obtain ⟨rfl, rfl⟩ := List.cons.inj hnodes
    obtain rfl : .call g 0 true = other := Option.some.inj hother
    rw [List.append_nil]
    exact encodes_crowded_call functions f g hones
  · obtain ⟨rfl, htail⟩ := List.cons.inj hnodes
    have hlater : afterCrowd g names = past ++ node :: after := htail
    rw [List.length_cons, List.getElem?_cons_succ, hlater,
      List.getElem?_append_right (Nat.le_refl _), Nat.sub_self] at hother
    obtain rfl : node = other := Option.some.inj hother
    obtain ⟨ha, hb⟩ := operands_afterCrowd f g hnames hlater hslots
    exact hlays.encodes hsplit ha hb

end Compilation

theorem fit_crowded (g : String) (ones : Nat) (names : List String) :
    Node.Fit 0 (crowd ones ++ .call g 0 true :: afterCrowd g names) := by
  have hcrowd : ∀ node ∈ crowd ones, node.arity = 0 := by
    intro node hnode
    obtain rfl := List.eq_of_mem_replicate hnode
    rfl
  have hvars : ∀ node ∈ names.map Node.var, node.arity = 0 :=
    List.forall_mem_map.mpr fun _ _ => rfl
  refine Node.fit_leaves hcrowd ⟨Nat.zero_le _, Node.fit_leaves hvars ?_⟩
  rw [length_crowd, List.length_map]
  exact ⟨Nat.le_add_left _ _, by simp only [Node.arity]; omega, trivial⟩

theorem runNodes_crowd (scope : Scope σ) (ones : Nat) (stack : List Float) :
    runNodes (Node.evaluate scope) (crowd ones) stack = pure (List.replicate ones 1 ++ stack) := by
  induction ones generalizing stack with
  | zero => rfl
  | succ ones ih =>
    have hone : integerValue 1 = 1 := by decide +kernel
    rw [crowd, List.replicate_succ, runNodes, Node.evaluate, pure_bind, ← crowd, hone]
    exact (ih (1 :: stack)).trans (by rw [List.replicate_succ', List.append_assoc]; rfl)

section Evaluation

variable {scope : Scope σ} {g : String} {callee : Function σ} {names : List String}
  {values : List Float} (hcallee : scope.functions.get? g = some callee)
  (hvalues : List.Forall₂ (fun name value => scope.variable name = .ok value) names values)

include hvalues in
theorem runNodes_vars (stack : List Float) :
    runNodes (Node.evaluate scope) (names.map .var) stack = pure (values.reverse ++ stack) := by
  induction hvalues generalizing stack with
  | nil => rfl
  | @cons name value names values hvalue _ ih =>
    have hstep : Node.evaluate scope (.var name) [] = pure value := by
      rw [Node.evaluate, hvalue]
      rfl
    rw [List.map_cons, runNodes, Node.arity, List.take_zero, List.reverse_nil, hstep, pure_bind,
      List.drop_zero, ih, List.reverse_cons, List.append_assoc]
    rfl

include hcallee hvalues

/-- What is left to do after the arguments of the first call. -/
theorem runNodes_afterCrowd (x : Float) (stack : List Float) (s : CallState σ) :
    runNodes (Node.evaluate scope) (afterCrowd g names) (x :: stack) s =
      (.ok ((x + (callee.invoke values s).1) :: stack), (callee.invoke values s).2) := by
  have hlength : values.reverse.length = names.length := by
    rw [List.length_reverse, hvalues.length_eq]
  rw [afterCrowd, runNodes_append, runNodes_vars hvalues, pure_bind, runNodes, Node.arity,
    List.take_left' hlength, List.drop_left' hlength, List.reverse_reverse,
    Evaluation.bind_apply]
  simp only [Node.evaluate, Table.call, hcallee, Function.call_apply]
  rfl

/-- The walk over such a tree makes both calls with their arguments. -/
theorem evaluate_crowded {f : String} {crowded : Function σ}
    (hcrowded : scope.functions.get? f = some crowded) (ones : Nat) (s : CallState σ) :
    let first := crowded.invoke (List.replicate ones 1) s
    let second := callee.invoke values first.2
    (Tree.crowded f g ones names).evaluate scope s = (.ok (first.1 + second.1), second.2) := by
  intro first second
  rw [evaluate, postorder_crowded, runNodes_append, runNodes_crowd, List.append_nil, pure_bind,
    runNodes, Node.arity, List.take_replicate, Nat.min_self, List.reverse_replicate,
    List.drop_replicate, Nat.sub_self, Evaluation.bind_apply, Evaluation.bind_apply]
  simp only [Node.evaluate, Table.call, hcrowded, Function.call_apply]
  rw [runNodes_afterCrowd hcallee hvalues]
  rfl

/-- The first call of a program for such a tree is one of the second function, with no arguments. -/
theorem evaluate_compiled_crowded {functions : Table (Function σ)} (f : String) {ones : Nat}
    (hones : ones = 2 ^ 28) (hnames : names.length + 2 < 2 ^ 28)
    (hbound : ∀ name f, functions.get? name = some f → f.overwritable = false →
      scope.functions.get? name = some f)
    (s : CallState σ) :
    let first := callee.invoke [] s
    let second := callee.invoke values first.2
    (ExecutionMode.compiled.prepare (crowded f g ones names) functions).evaluate scope s =
      (.ok (first.1 + second.1), second.2) := by
  intro first second
  have hdefined : ∀ name ∈ ((crowded f g ones names).compile functions).variableNames.toList,
      scope.defines name = true := by
    intro name hname
    have hlays := ((crowded f g ones names).compile_lays functions).variableNames
    have hmem : name ∈ names := (mem_variableNames_crowded f g).mp (hlays ▸ hname)
    obtain ⟨i, hi, rfl⟩ := List.mem_iff_getElem.mp hmem
    have hvalue := hvalues.get hi (hvalues.length_eq ▸ hi)
    by_contra hundefined
    have herror := Scope.variable_of_not_defines (Bool.not_eq_true _ ▸ hundefined)
    rw [List.get_eq_getElem, herror] at hvalue
    cases hvalue
  have hrun := Machine.run_of_encodes (compile_crowded functions f g hones hnames)
    (fit_crowded g ones names) hbound hdefined .fresh s
  refine hrun.trans ?_
  rw [runNodes_append, runNodes_crowd, pure_bind, runNodes, Node.arity, List.take_zero,
    List.drop_zero, List.reverse_nil, Evaluation.bind_apply, Evaluation.bind_apply]
  simp only [Node.evaluate, Table.call, hcallee, Function.call_apply]
  rw [runNodes_afterCrowd hcallee hvalues]
  rfl

end Evaluation

end Tree

end FormulaEngine
