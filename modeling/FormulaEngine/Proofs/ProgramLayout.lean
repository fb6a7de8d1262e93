import FormulaEngine.Program.Compilation
import FormulaEngine.Proofs.Evaluations
import Mathlib.Data.List.Basic
import Mathlib.Data.List.Induction
import Mathlib.Data.List.Nodup

/-!
The layout of programs. The instructions of a program are the nodes of its tree in post-order. Each
literal and each call takes the next element of its pool, so that its operand is the number of those
before it, and a variable has the slot that its name got when it was first used.
-/
namespace FormulaEngine

variable {σ : Type}

namespace Node

theorem firstUses_append_of_unnamed (nodes : List Node) {node : Node}
    (h : node.variableName? = none) : firstUses (nodes ++ [node]) = firstUses nodes := by
  unfold firstUses
  rw [List.foldl_append]
  cases node <;> first | rfl | cases h

theorem firstUses_append_var (nodes : List Node) (name : String) :
    firstUses (nodes ++ [var name]) =
      if name ∈ firstUses nodes then firstUses nodes else firstUses nodes ++ [name] := by
  unfold firstUses
  simp only [List.foldl_append, List.foldl_cons, List.foldl_nil, List.contains_iff_mem,
    List.mem_reverse]
  split
  · rfl
  · exact List.reverse_cons

/-- A node adds its name if it is a variable that was not used before, and nothing otherwise. -/
theorem firstUses_snoc_cases (nodes : List Node) (node : Node) :
    (firstUses (nodes ++ [node]) = firstUses nodes ∧
      ∀ name ∈ [node].filterMap variableName?, name ∈ firstUses nodes) ∨
    ∃ name, [node].filterMap variableName? = [name] ∧ name ∉ firstUses nodes ∧
      firstUses (nodes ++ [node]) = firstUses nodes ++ [name] := by
  cases node with
  | var name =>
    by_cases hmem : name ∈ firstUses nodes
    · refine .inl ⟨?_, fun other hother => ?_⟩
      · rw [firstUses_append_var, if_pos hmem]
      · rwa [List.mem_singleton.mp hother]
    · refine .inr ⟨name, rfl, hmem, ?_⟩
      rw [firstUses_append_var, if_neg hmem]
  | _ =>
    refine .inl ⟨firstUses_append_of_unnamed nodes rfl, fun name hname => ?_⟩
    exact absurd hname List.not_mem_nil

theorem firstUses_isPrefix (nodes : List Node) (node : Node) :
    firstUses nodes <+: firstUses (nodes ++ [node]) := by
  rcases firstUses_snoc_cases nodes node with ⟨hsame, -⟩ | ⟨name, -, -, hsnoc⟩
  · exact ⟨[], (List.append_nil _).trans hsame.symm⟩
  · exact ⟨[name], hsnoc.symm⟩

theorem nodup_firstUses (nodes : List Node) : (firstUses nodes).Nodup := by
  induction nodes using List.reverseRecOn with
  | nil => exact List.nodup_nil
  | append_singleton nodes node ih =>
    rcases firstUses_snoc_cases nodes node with ⟨hsame, -⟩ | ⟨name, -, hnew, hsnoc⟩
    · rwa [hsame]
    · rw [hsnoc, ← List.concat_eq_append]
      exact List.Nodup.concat hnew ih

theorem length_firstUses_le (nodes : List Node) : (firstUses nodes).length ≤ nodes.length := by
  induction nodes using List.reverseRecOn with
  | nil => exact Nat.le_refl 0
  | append_singleton nodes node ih =>
    rw [List.length_append, List.length_singleton]
    rcases firstUses_snoc_cases nodes node with ⟨hsame, -⟩ | ⟨name, -, -, hsnoc⟩
    · rw [hsame]
      omega
    · rw [hsnoc, List.length_append, List.length_singleton]
      omega

/-- The names in the order of their first use are those of all uses without the later repeats. -/
theorem firstUses_eq_eraseDups (nodes : List Node) :
    firstUses nodes = (nodes.filterMap variableName?).eraseDups := by
  induction nodes using List.reverseRecOn with
  | nil => rfl
  | append_singleton nodes node ih =>
    have huses (name : String) : name ∈ firstUses nodes ↔ name ∈ nodes.filterMap variableName? := by
      rw [ih, List.mem_eraseDups]
    rw [List.filterMap_append, List.eraseDups_append, ← ih]
    rcases firstUses_snoc_cases nodes node with ⟨hsame, hold⟩ | ⟨name, hname, hnew, hsnoc⟩
    · have hnone : ([node].filterMap variableName?).removeAll
          (nodes.filterMap variableName?) = [] := by
        refine List.filter_eq_nil_iff.mpr fun name hname => ?_
        simpa using (huses name).mp (hold name hname)
      rw [hsame, hnone]
      exact (List.append_nil _).symm
    · have hsome : [name].removeAll (nodes.filterMap variableName?) = [name] := by
        refine List.filter_eq_self.mpr fun other hother => ?_
        rw [List.mem_singleton.mp hother]
        simpa using fun hmem => hnew ((huses name).mpr hmem)
      rw [hsnoc, hname, hsome]
      rfl

theorem mem_firstUses {nodes : List Node} {name : String} :
    name ∈ firstUses nodes ↔ name ∈ nodes.filterMap variableName? := by
  rw [firstUses_eq_eraseDups, List.mem_eraseDups]

/-- The first use of a name that has a property is the first occurrence of such a name. -/
theorem find?_firstUses (p : String → Bool) (nodes : List Node) :
    (firstUses nodes).find? p = (nodes.filterMap variableName?).find? p := by
  induction nodes using List.reverseRecOn with
  | nil => rfl
  | append_singleton nodes node ih =>
    rw [List.filterMap_append, List.find?_append, ← ih]
    rcases firstUses_snoc_cases nodes node with ⟨hsame, hold⟩ | ⟨name, hname, -, hsnoc⟩
    · rw [hsame]
      cases hfind : (firstUses nodes).find? p with
      | some found => rfl
      | none =>
        refine (List.find?_eq_none.mpr fun name hname => ?_).symm
        exact List.find?_eq_none.mp hfind name (hold name hname)
    · rw [hsnoc, hname, List.find?_append]

/-- The number that a literal stands for. -/
def constant? : Node → Option Float
  | integer value => some (integerValue value)
  | float value => some value
  | _ => none

/-- What the instruction of a node does. -/
def opcode : Node → Opcode
  | integer _ | float _ => .pushConstant
  | var _ => .loadVariable
  | negate => .negate
  | binary op => .binary op
  | call _ _ _ => .call

/-- The operands of the instruction of a node: the place of its number, its name or its function in
their pools, by the nodes before it, and the number of its arguments. -/
def operands (names : List String) (before : List Node) : Node → Nat × Nat
  | integer _ | float _ => ((before.filterMap constant?).length, 0)
  | var name => (names.idxOf name, 0)
  | negate | binary _ => (0, 0)
  | call _ argumentCount _ => ((before.filterMap calleeName?).length, argumentCount)

/-- The instruction of a node that comes after `before`. -/
def instruction (names : List String) (before : List Node) (node : Node) : Instruction :=
  .pack node.opcode (node.operands names before).1 (node.operands names before).2

/-- Instructions have room for the operands of a node if there are not too many nodes. -/
theorem operands_lt {names : List String} {before : List Node} {node : Node}
    (hbefore : before.length < 2 ^ 28) (hnames : names.length < 2 ^ 28)
    (harity : node.arity < 2 ^ 28) :
    (node.operands names before).1 < 2 ^ 28 ∧ (node.operands names before).2 < 2 ^ 28 := by
  have hzero : 0 < 2 ^ 28 := Nat.two_pow_pos 28
  cases node with
  | integer value | float value =>
    exact ⟨Nat.lt_of_le_of_lt (List.length_filterMap_le _ _) hbefore, hzero⟩
  | var name => exact ⟨Nat.lt_of_le_of_lt List.idxOf_le_length hnames, hzero⟩
  | negate | binary op => exact ⟨hzero, hzero⟩
  | call name argumentCount idempotent =>
    exact ⟨Nat.lt_of_le_of_lt (List.length_filterMap_le _ _) hbefore, harity⟩

/-- More names at the end of the table move no slot. -/
theorem instruction_of_isPrefix {names more : List String} {before : List Node} {node : Node}
    (hnode : ∀ name, node = .var name → name ∈ names) (h : names <+: more) :
    node.instruction names before = node.instruction more before := by
  cases node with
  | var name =>
    obtain ⟨rest, rfl⟩ := h
    simp only [instruction, operands, List.idxOf_append, if_pos (hnode name rfl)]
  | _ => rfl

end Node

theorem idxOf?_eq (names : Array String) (name : String) :
    names.idxOf? name =
      if name ∈ names.toList then some (names.toList.idxOf name) else none := by
  obtain ⟨names⟩ := names
  rw [List.idxOf?_toArray]
  split
  · rename_i h
    exact List.findIdx?_eq_some_of_exists ⟨name, h, BEq.rfl⟩
  · rename_i h
    exact List.idxOf?_eq_none_iff.mpr h

namespace Compilation

section Nodes

variable (functions : Table (Function σ)) (c : Compilation σ) (node : Node)

theorem constants_addNode : (c.addNode functions node).program.constants.toList =
    c.program.constants.toList ++ node.constant?.toList := by
  cases node with
  | var name =>
    simp only [addNode, loadVariable]
    split <;> simp [emit, Node.constant?]
  | _ => simp [addNode, pushConstant, call, emit, Node.constant?]

theorem targets_addNode : (c.addNode functions node).program.targets.toList =
    c.program.targets.toList ++ (node.calleeName?.map (target functions)).toList := by
  cases node with
  | var name =>
    simp only [addNode, loadVariable]
    split <;> simp [emit, Node.calleeName?]
  | _ => simp [addNode, pushConstant, call, emit, Node.calleeName?]

theorem depth_addNode : (c.addNode functions node).depth = c.depth - node.arity + 1 := by
  cases node with
  | var name =>
    simp only [addNode, loadVariable]
    split <;> rfl
  | _ => rfl

theorem maxStack_addNode : (c.addNode functions node).program.maxStack =
    max c.program.maxStack (c.depth - node.arity + 1) := by
  cases node with
  | var name =>
    simp only [addNode, loadVariable]
    split <;> rfl
  | _ => rfl

end Nodes

/-- The program so far is laid out as `nodes` are. -/
structure Lays (functions : Table (Function σ)) (nodes : List Node) (c : Compilation σ) : Prop where
  constants : c.program.constants.toList = nodes.filterMap Node.constant?
  targets : c.program.targets.toList =
    (nodes.filterMap Node.calleeName?).map (target functions)
  variableNames : c.program.variableNames.toList = Node.firstUses nodes
  size : c.program.code.toList.length = nodes.length
  code : ∀ before node after, nodes = before ++ node :: after →
    c.program.code.toList[before.length]? = some (node.instruction (Node.firstUses nodes) before)

section Steps

variable {functions : Table (Function σ)} {c : Compilation σ} {nodes : List Node}

theorem Lays.loadVariable (h : Lays functions nodes c) (name : String) :
    (c.loadVariable name).program.variableNames.toList = Node.firstUses (nodes ++ [.var name]) ∧
      (c.loadVariable name).program.code.toList = c.program.code.toList ++
        [.pack .loadVariable ((Node.firstUses (nodes ++ [.var name])).idxOf name) 0] := by
  rw [Node.firstUses_append_var, Compilation.loadVariable, idxOf?_eq, h.variableNames]
  by_cases hmem : name ∈ Node.firstUses nodes
  · rw [if_pos hmem, if_pos hmem]
    exact ⟨h.variableNames, by simp [emit]⟩
  · have hsize : c.program.variableNames.size = (Node.firstUses nodes).length := by
      rw [← h.variableNames, Array.length_toList]
    have hindex : (Node.firstUses nodes ++ [name]).idxOf name = (Node.firstUses nodes).length := by
      rw [List.idxOf_append, if_neg hmem]
      simp
    rw [if_neg hmem, if_neg hmem, hindex]
    exact ⟨by simp [emit, h.variableNames], by simp [emit, hsize]⟩

/-- The node added last has the instruction of its place. -/
theorem Lays.code_addNode (h : Lays functions nodes c) (node : Node) :
    (c.addNode functions node).program.code.toList = c.program.code.toList ++
      [node.instruction (Node.firstUses (nodes ++ [node])) nodes] := by
  have hconstants : c.program.constants.size = (nodes.filterMap Node.constant?).length := by
    rw [← h.constants, Array.length_toList]
  have htargets : c.program.targets.size = (nodes.filterMap Node.calleeName?).length := by
    rw [← Array.length_toList, h.targets, List.length_map]
  cases node with
  | var name => exact (h.loadVariable name).2
  | _ =>
    simp [addNode, pushConstant, Compilation.call, emit, Node.instruction, Node.opcode,
      Node.operands, hconstants, htargets]

theorem Lays.variableNames_addNode (h : Lays functions nodes c) (node : Node) :
    (c.addNode functions node).program.variableNames.toList = Node.firstUses (nodes ++ [node]) := by
  cases node with
  | var name => exact (h.loadVariable name).1
  | _ =>
    rw [Node.firstUses_append_of_unnamed _ rfl]
    exact h.variableNames

theorem Lays.addNode (h : Lays functions nodes c) (node : Node) :
    Lays functions (nodes ++ [node]) (c.addNode functions node) where
  constants := by
    rw [constants_addNode, h.constants, List.filterMap_append]
    cases node <;> rfl
  targets := by
    rw [targets_addNode, h.targets, List.filterMap_append, List.map_append]
    cases node <;> rfl
  variableNames := h.variableNames_addNode node
  size := by
    rw [h.code_addNode, List.length_append, List.length_append, h.size]
    rfl
  code before other after hsplit := by
    rw [h.code_addNode]
    rcases List.eq_nil_or_concat after with rfl | ⟨after, last, rfl⟩
    · obtain ⟨rfl, hlast⟩ := List.append_inj' hsplit rfl
      cases hlast
      rw [← h.size, List.getElem?_concat_length]
    · rw [List.concat_eq_append, ← List.cons_append, ← List.append_assoc] at hsplit
      obtain ⟨rfl, hlast⟩ := List.append_inj' hsplit rfl
      have hlength : before.length < c.program.code.toList.length := by
        rw [h.size, List.length_append, List.length_cons]
        omega
      have hold := h.code before other after rfl
      rw [List.getElem?_append_left hlength, hold]
      refine congrArg some (Node.instruction_of_isPrefix ?_ (Node.firstUses_isPrefix _ _))
      exact fun name hname => Node.mem_firstUses.mpr (by simp [hname, Node.variableName?])

theorem lays_start (functions : Table (Function σ)) : Lays functions [] start where
  constants := rfl
  targets := rfl
  variableNames := rfl
  size := rfl
  code _ _ _ h := absurd h (by simp)

theorem Lays.foldl (h : Lays functions nodes c) (more : List Node) :
    Lays functions (nodes ++ more) (more.foldl (Compilation.addNode functions) c) := by
  induction more generalizing nodes c with
  | nil => simpa using h
  | cons node more ih => simpa using ih (h.addNode node)

end Steps

end Compilation

namespace Tree

theorem compile_lays (t : Tree) (functions : Table (Function σ)) :
    Compilation.Lays functions t.postorder
      (t.postorder.foldl (Compilation.addNode functions) .start) :=
  (Compilation.lays_start functions).foldl t.postorder

/-- Instructions have room for the operands of all nodes of a tree that is not too large. -/
theorem operands_lt {t : Tree} (hsize : t.postorder.length < 2 ^ 28) {before after : List Node}
    {node : Node} (h : t.postorder = before ++ node :: after) :
    (node.operands t.variableNames before).1 < 2 ^ 28 ∧
      (node.operands t.variableNames before).2 < 2 ^ 28 := by
  have hbefore : before.length < 2 ^ 28 := by
    rw [h, List.length_append] at hsize
    omega
  have hnames := Nat.lt_of_le_of_lt (Node.length_firstUses_le t.postorder) hsize
  have hmem : node ∈ t.postorder := h ▸ List.mem_append_right _ List.mem_cons_self
  exact Node.operands_lt hbefore hnames (Nat.lt_trans (arity_lt_of_mem_postorder hmem) hsize)

/-- The targets of a program are those of the calls in its tree, in their order. -/
theorem targets_compile (t : Tree) (functions : Table (Function σ)) :
    (t.compile functions).targets.toList =
      (t.postorder.filterMap Node.calleeName?).map (Compilation.target functions) :=
  (t.compile_lays functions).targets

theorem variableNames_compile (t : Tree) (functions : Table (Function σ)) :
    (t.compile functions).variableNames.toList = t.variableNames :=
  (t.compile_lays functions).variableNames

end Tree

end FormulaEngine
