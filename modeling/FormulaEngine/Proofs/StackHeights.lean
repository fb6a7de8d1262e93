import FormulaEngine.Proofs.BackendAgreement
import Mathlib

/-!
The stack of a program. The height that is counted while a program is made is the height of the
stack when it runs, at every instruction, whatever the functions return. So every instruction finds
what it takes on the stack and in the pools, one number is left in the end, and a run that does not
fail reaches the height that the program declares.
-/
namespace FormulaEngine

variable {σ : Type}

namespace Node

/-- The height of the stack after a node, from the height before it. -/
def grow (height : Nat) (node : Node) : Nat := height - node.arity + 1

theorem Fit.append {height : Nat} {before rest : List Node} (h : Fit height (before ++ rest)) :
    Fit (before.foldl grow height) rest := by
  induction before generalizing height with
  | nil => exact h
  | cons node before ih => exact ih h.2

end Node

namespace Tree

/-- The nodes of a tree leave one number on the stack. -/
theorem foldl_grow_postorder (t : Tree) : t.postorder.foldl Node.grow 0 = 1 := by
  have hlength (nodes : List Node) (stack : List Unit) :
      (runNodes (m := Id) (fun _ _ => ()) nodes stack).length =
        nodes.foldl Node.grow stack.length := by
    induction nodes generalizing stack with
    | nil => rfl
    | cons node nodes ih =>
      rw [List.foldl_cons, Node.grow, ← List.length_drop]
      exact ih _
  have hrun := hlength t.postorder []
  rw [runNodes_postorder] at hrun
  exact hrun.symm

end Tree

namespace Compilation

variable (functions : Table (Function σ))

theorem depth_foldl (c : Compilation σ) (nodes : List Node) :
    (nodes.foldl (addNode functions) c).depth = nodes.foldl Node.grow c.depth := by
  induction nodes generalizing c with
  | nil => rfl
  | cons node nodes ih => rw [List.foldl_cons, List.foldl_cons, ih, depth_addNode, Node.grow]

/-- The height declared is the greatest of the heights so far. -/
theorem maxStack_foldl {c : Compilation σ} (hdepth : c.depth ≤ c.program.maxStack)
    (nodes : List Node) :
    c.program.maxStack ≤ (nodes.foldl (addNode functions) c).program.maxStack ∧
    (∀ height ∈ nodes.scanl Node.grow c.depth,
      height ≤ (nodes.foldl (addNode functions) c).program.maxStack) ∧
    ((nodes.foldl (addNode functions) c).program.maxStack = c.program.maxStack ∨
      (nodes.foldl (addNode functions) c).program.maxStack ∈ nodes.scanl Node.grow c.depth) := by
  induction nodes generalizing c with
  | nil => exact ⟨Nat.le_refl _, by simpa using hdepth, .inl rfl⟩
  | cons node nodes ih =>
    have hdepth' : (c.addNode functions node).depth = Node.grow c.depth node :=
      depth_addNode functions c node
    have hmax : (c.addNode functions node).program.maxStack =
        max c.program.maxStack (Node.grow c.depth node) := maxStack_addNode functions c node
    obtain ⟨hle, hall, hreached⟩ := ih (c := c.addNode functions node) (by omega)
    rw [hdepth'] at hall hreached
    rw [List.foldl_cons, List.scanl_cons]
    refine ⟨by omega, List.forall_mem_cons.mpr ⟨by omega, hall⟩, ?_⟩
    rcases hreached with hsame | hmem
    · rcases Nat.le_total (Node.grow c.depth node) c.program.maxStack with h | h
      · exact .inl (by omega)
      · have hfirst : Node.grow c.depth node ∈ nodes.scanl Node.grow (Node.grow c.depth node) := by
          cases nodes <;> simp
        rw [hsame, hmax, Nat.max_eq_right h]
        exact .inr (List.mem_cons_of_mem _ hfirst)
    · exact .inr (List.mem_cons_of_mem _ hmem)

end Compilation

namespace Machine

/-- The stack before each instruction of a run and after the last, up to the first failure. -/
def stackHistory (p : Program σ) (functions : Table (Function σ)) (slots : Array Float) :
    List Instruction → List Float → CallState σ → List (List Float)
  | [], stack, _ => [stack]
  | i :: rest, stack, s =>
    stack ::
      match execute p functions slots i stack s with
      | (.ok next, s) => stackHistory p functions slots rest next s
      | (.error _, _) => []

/-- Whether an instruction finds everything that it takes, in the pools, in the slots and on the
stack. -/
def Supplied (p : Program σ) (slots : Array Float) (i : Instruction) (stack : List Float) : Prop :=
  match i.opcode? with
  | some .pushConstant => i.a < p.constants.size
  | some .loadVariable => i.a < slots.size
  | some .negate => 1 ≤ stack.length
  | some (.binary _) => 2 ≤ stack.length
  | some .call => i.a < p.targets.size ∧ i.b ≤ stack.length
  | none => False

section Runs

variable {p : Program σ} {functions later : Table (Function σ)} {slots : Array Float}

theorem supplied_of_encodes (hslots : slots.size = p.variableNames.size) {i : Instruction}
    {node : Node} (h : p.Encodes functions i node) {stack : List Float}
    (hfit : node.arity ≤ stack.length) : Supplied p slots i stack := by
  cases node with
  | integer value | float value =>
    rw [Supplied, h.1]
    exact (Array.getElem?_eq_some_iff.mp h.2).1
  | var name =>
    rw [Supplied, h.1, hslots]
    exact (Array.getElem?_eq_some_iff.mp h.2).1
  | negate =>
    rw [Supplied, show i.opcode? = some .negate from h]
    exact hfit
  | binary op =>
    rw [Supplied, show i.opcode? = some (.binary op) from h]
    exact hfit
  | call name argumentCount idempotent =>
    obtain ⟨hop, htarget, hcount⟩ := h
    rw [Supplied, hop, hcount]
    exact ⟨(Array.getElem?_eq_some_iff.mp htarget).1, hfit⟩

/-- An instruction that does not fail takes the arguments of its node and leaves one number. -/
theorem length_of_execute {i : Instruction} {node : Node} (h : p.Encodes functions i node)
    {stack next : List Float} {s s' : CallState σ}
    (hrun : execute p later slots i stack s = (.ok next, s')) :
    next.length = node.grow stack.length := by
  cases node with
  | integer value | float value | var name =>
    rw [execute, h.1] at hrun
    cases hrun
    rfl
  | negate =>
    rw [execute, show i.opcode? = some .negate from h] at hrun
    cases hrun
    simp [Node.grow, Node.arity]
  | binary op =>
    rw [execute, show i.opcode? = some (.binary op) from h] at hrun
    cases hrun
    simp [Node.grow, Node.arity]
  | call name argumentCount idempotent =>
    rw [execute, h.1] at hrun
    dsimp only at hrun
    rw [Evaluation.bind_apply] at hrun
    split at hrun
    · cases hrun
      simp [Node.grow, Node.arity, h.2.2]
    · cases hrun

/-- The heights of the stack are those that were counted, up to a failure. -/
theorem heights_isPrefix {code : List Instruction} {nodes : List Node}
    (h : List.Forall₂ (p.Encodes functions) code nodes) (stack : List Float) (s : CallState σ) :
    (stackHistory p later slots code stack s).map List.length <+:
      nodes.scanl Node.grow stack.length := by
  induction h generalizing stack s with
  | nil => simp [stackHistory]
  | @cons i node code nodes hencodes _ ih =>
    rw [stackHistory, List.map_cons, List.scanl_cons, List.cons_prefix_cons]
    refine ⟨rfl, ?_⟩
    split
    · rename_i next s' hrun
      rw [← length_of_execute hencodes hrun]
      exact ih next s'
    · exact List.nil_prefix

theorem heights_of_executeAll {code : List Instruction} {nodes : List Node}
    (h : List.Forall₂ (p.Encodes functions) code nodes) {stack last : List Float}
    {s s' : CallState σ} (hrun : executeAll p later slots code stack s = (.ok (), last, s')) :
    (stackHistory p later slots code stack s).map List.length =
        nodes.scanl Node.grow stack.length ∧
      (stackHistory p later slots code stack s).getLast? = some last ∧
      last.length = nodes.foldl Node.grow stack.length := by
  induction h generalizing stack s with
  | nil =>
    cases hrun
    simp [stackHistory]
  | @cons i node code nodes hencodes _ ih =>
    rw [executeAll] at hrun
    split at hrun
    · rename_i next s'' hnext
      obtain ⟨hheights, hlast, hlength⟩ := ih hrun
      rw [length_of_execute hencodes hnext] at hheights hlength
      rw [stackHistory, List.map_cons, List.scanl_cons, hnext]
      refine ⟨congrArg _ hheights, ?_, hlength⟩
      rw [List.getLast?_cons, hlast]
      rfl
    · cases hrun

/-- Every instruction that a run comes to finds what it takes. -/
theorem supplied_of_history (hslots : slots.size = p.variableNames.size)
    {code : List Instruction} {nodes : List Node}
    (h : List.Forall₂ (p.Encodes functions) code nodes) (stack : List Float)
    (hfit : Node.Fit stack.length nodes) (s : CallState σ) {k : Nat} {i : Instruction}
    {found : List Float} (hi : code[k]? = some i)
    (hfound : (stackHistory p later slots code stack s)[k]? = some found) :
    Supplied p slots i found := by
  induction h generalizing stack s k with
  | nil => cases hi
  | @cons first node code nodes hencodes _ ih =>
    obtain ⟨harity, hrest⟩ := hfit
    rw [stackHistory] at hfound
    cases k with
    | zero =>
      cases hi
      cases hfound
      exact supplied_of_encodes hslots hencodes harity
    | succ k =>
      rw [List.getElem?_cons_succ] at hi hfound
      split at hfound
      · rename_i next s' hrun
        refine ih next ?_ s' hi hfound
        rw [length_of_execute hencodes hrun]
        exact hrest
      · cases hfound

end Runs

theorem size_of_resolve {scope : Scope σ} {names : List String} {slots slots' : Array Float}
    (h : resolve scope names slots = (.ok (), slots')) :
    slots'.size = slots.size + names.length := by
  induction names generalizing slots with
  | nil =>
    cases h
    rfl
  | cons name names ih =>
    rw [resolve] at h
    split at h
    · have hsize := ih h
      rw [Array.size_push] at hsize
      rw [hsize, List.length_cons]
      omega
    · cases h

end Machine

/-- Whether a program is laid out as the nodes of a tree are: the pools hold what the nodes need in
their order, and each instruction is unpacked as the operation and the operands of its node. -/
structure Program.LaidOut (functions : Table (Function σ)) (t : Tree) (p : Program σ) : Prop where
  constants : p.constants.toList = t.postorder.filterMap Node.constant?
  targets : p.targets.toList =
    (t.postorder.filterMap Node.calleeName?).map (Compilation.target functions)
  variableNames : p.variableNames.toList = t.variableNames
  slot : ∀ name, .var name ∈ t.postorder →
    p.variableNames[t.variableNames.idxOf name]? = some name
  size : p.code.size = t.postorder.length
  code : ∀ before node after, t.postorder = before ++ node :: after →
    let (a, b) := node.operands t.variableNames before
    ∃ i, p.code[before.length]? = some i ∧ i = .pack node.opcode a b ∧
      i.opcode? = some node.opcode ∧ i.a = a ∧ i.b = b

namespace Tree

theorem arity_le_of_postorder {t : Tree} {before after : List Node} {node : Node}
    (h : t.postorder = before ++ node :: after) :
    node.arity ≤ before.foldl Node.grow 0 := by
  have hfit := t.fit_postorder
  rw [h] at hfit
  exact hfit.append.1

theorem compile_laidOut (t : Tree) (functions : Table (Function σ))
    (hsize : t.postorder.length < 2 ^ 28) : (t.compile functions).LaidOut functions t := by
  have hlays := t.compile_lays functions
  refine ⟨hlays.constants, hlays.targets, hlays.variableNames, fun name hname => ?_, ?_,
    fun before node after hsplit => ?_⟩
  · have hmem : name ∈ t.variableNames :=
      Node.mem_firstUses.mpr (List.mem_filterMap.mpr ⟨_, hname, rfl⟩)
    rw [← Array.getElem?_toList, t.variableNames_compile, List.getElem?_idxOf hmem]
  · rw [← Array.length_toList]
    exact hlays.size
  · have hcode := hlays.code before node after hsplit
    rw [Array.getElem?_toList] at hcode
    obtain ⟨ha, hb⟩ := operands_lt hsize hsplit
    exact ⟨_, hcode, rfl, Instruction.opcode?_pack ha hb, Instruction.a_pack ha hb,
      Instruction.b_pack ha hb⟩

/-- The height that a program declares is the greatest of the heights counted. -/
theorem maxStack_compile (t : Tree) (functions : Table (Function σ)) :
    (t.compile functions).maxStack ∈ t.postorder.scanl Node.grow 0 ∧
      ∀ height ∈ t.postorder.scanl Node.grow 0, height ≤ (t.compile functions).maxStack := by
  obtain ⟨-, hbound, hreached⟩ := Compilation.maxStack_foldl functions
    (c := (.start : Compilation σ)) (Nat.le_refl 0) t.postorder
  refine ⟨hreached.elim (fun hzero => ?_) id, hbound⟩
  rw [show (t.compile functions).maxStack = 0 from hzero]
  cases t.postorder <;> simp

/-- A run that does not fail goes through all heights that were counted, and its result alone is on
the stack in the end. -/
theorem history_of_run {t : Tree} (hsize : t.postorder.length < 2 ^ 28)
    {functions : Table (Function σ)} {scope : Scope σ} {slots : Array Float} {s : CallState σ}
    {m : Machine} {value : Float}
    (hresolve : Machine.resolve scope (t.compile functions).variableNames.toList #[] =
      (.ok (), slots))
    (hvalue : (m.run (t.compile functions) scope s).1 = .ok value) :
    let seen := Machine.stackHistory (t.compile functions) scope.functions slots
      (t.compile functions).code.toList [] s
    seen.map List.length = t.postorder.scanl Node.grow 0 ∧ seen.getLast? = some [value] := by
  rw [Machine.run, hresolve] at hvalue
  dsimp only at hvalue
  split at hvalue
  · cases hvalue
  · rename_i last s' hrun
    obtain ⟨hheights, hlast, hlength⟩ :=
      Machine.heights_of_executeAll (t.compile_covers functions hsize).1 hrun
    have hone : last.length = 1 := hlength.trans t.foldl_grow_postorder
    obtain ⟨result, rfl⟩ := List.length_eq_one_iff.mp hone
    cases hvalue
    exact ⟨hheights, hlast⟩

/-- The program of a tree is laid out as the tree is, with every name of a variable once in the
order of first use; the height counted while it is made never runs short, and a run finds all that
its instructions take, stays within the height declared, and if it does not fail reaches it and
leaves its result alone on the stack. -/
theorem compile_wellFormed (t : Tree) (hsize : t.postorder.length < 2 ^ 28)
    (functions : Table (Function σ)) :
    let p := t.compile functions
    p.LaidOut functions t ∧
      t.variableNames = (t.postorder.filterMap Node.variableName?).eraseDups ∧
      t.variableNames.Nodup ∧
      (∀ before node after, t.postorder = before ++ node :: after →
        node.arity ≤ (before.foldl (Compilation.addNode functions) .start).depth) ∧
      ∀ (scope : Scope σ) (s : CallState σ) (slots : Array Float),
        Machine.resolve scope p.variableNames.toList #[] = (.ok (), slots) →
        let seen := Machine.stackHistory p scope.functions slots p.code.toList [] s
        (∀ (k : Nat) stack i, seen[k]? = some stack → p.code[k]? = some i →
          Machine.Supplied p slots i stack) ∧
        (∀ stack ∈ seen, stack.length ≤ p.maxStack) ∧
        ∀ (m : Machine) (value : Float), (m.run p scope s).1 = .ok value →
          seen.getLast? = some [value] ∧ ∃ stack ∈ seen, stack.length = p.maxStack := by
  intro p
  have hencodes := (t.compile_covers functions hsize).1
  obtain ⟨hreached, hbound⟩ := t.maxStack_compile functions
  refine ⟨t.compile_laidOut functions hsize, Node.firstUses_eq_eraseDups t.postorder,
    Node.nodup_firstUses t.postorder, fun before node after hsplit => ?_,
    fun scope s slots hresolve => ?_⟩
  · rw [Compilation.depth_foldl]
    exact arity_le_of_postorder hsplit
  intro seen
  have hslots : slots.size = p.variableNames.size := by
    rw [Machine.size_of_resolve hresolve, Array.length_toList]
    exact Nat.zero_add _
  refine ⟨fun k stack i hstack hi => ?_, fun stack hstack => ?_, fun m value hvalue => ?_⟩
  · rw [← Array.getElem?_toList] at hi
    exact Machine.supplied_of_history hslots hencodes [] t.fit_postorder s hi hstack
  · have hheights : seen.map List.length <+: t.postorder.scanl Node.grow 0 :=
      Machine.heights_isPrefix hencodes [] s
    exact hbound _ (hheights.subset (List.mem_map_of_mem hstack))
  · obtain ⟨hheights, hlast⟩ := history_of_run hsize hresolve hvalue
    rw [← hheights] at hreached
    exact ⟨hlast, List.mem_map.mp hreached⟩

/-- A call with three arguments, two of which are the same variable. -/
theorem compile_wellFormed_repeated :
    let t : Tree := .binary .add (.call "sum" [.var "x", .integer 2, .var "x"] true) (.var "y")
    let total : Function Unit := ⟨⟨"sum", none, true, false⟩, .pure fun xs => xs.foldl (· + ·) 0⟩
    let functions : Table (Function Unit) := ⟨true, [("sum", total)]⟩
    let scope : Scope Unit := ⟨functions, .empty true, [("x", 3), ("y", 1)]⟩
    let s : CallState Unit := ⟨(), ⟨[], 0⟩, []⟩
    let p := t.compile functions
    let seen := Machine.stackHistory p functions #[3, 1] p.code.toList [] s
    t.postorder.length < 2 ^ 28 ∧
      Machine.resolve scope p.variableNames.toList #[] = (.ok (), #[3, 1]) ∧
      (Machine.fresh.run p scope s).1 = .ok 9 ∧
      p.LaidOut functions t ∧ t.variableNames = ["x", "y"] ∧ p.maxStack = 3 ∧
      (∀ stack ∈ seen, stack.length ≤ 3) ∧ seen.getLast? = some [9] ∧
      ∃ stack ∈ seen, stack.length = 3 := by
  intro t total functions scope s p seen
  have hsize : t.postorder.length < 2 ^ 28 := by decide
  have hslots : Machine.resolve scope p.variableNames.toList #[] = (.ok (), #[3, 1]) := by
    decide +kernel
  have hvalue : (Machine.fresh.run p scope s).1 = .ok 9 := by decide +kernel
  obtain ⟨hlaid, -, -, -, hruns⟩ := compile_wellFormed t hsize functions
  obtain ⟨-, hbound, hdone⟩ := hruns scope s _ hslots
  obtain ⟨hlast, hreached⟩ := hdone .fresh 9 hvalue
  have hmax : p.maxStack = 3 := by decide +kernel
  rw [hmax] at hbound hreached
  exact ⟨hsize, hslots, hvalue, hlaid, by decide +kernel, hmax, hbound, hlast, hreached⟩

end Tree

end FormulaEngine
