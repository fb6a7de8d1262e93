import FormulaEngine.Proofs.ProgramLayout
import Mathlib.Data.List.Forall2

/-!
What a compiled program holds. Each of its instructions does the work of one node of the
tree, in post-order, as long as the pools stay small enough for the operands of an
instruction; the variables have slots in the order of their first use.
-/
namespace FormulaEngine

variable {σ : Type}

/-- Whether an instruction of the program does the work of a node. -/
def Program.Encodes (p : Program σ) (functions : Table (Function σ)) (i : Instruction) : Node → Prop
  | .integer value =>
    i.opcode? = some .pushConstant ∧ p.constants[i.a]? = some (integerValue value)
  | .float value => i.opcode? = some .pushConstant ∧ p.constants[i.a]? = some value
  | .var name => i.opcode? = some .loadVariable ∧ p.variableNames[i.a]? = some name
  | .negate => i.opcode? = some .negate
  | .binary op => i.opcode? = some (.binary op)
  | .call name argumentCount _ =>
    i.opcode? = some .call ∧ p.targets[i.a]? = some (Compilation.target functions name) ∧
      i.b = argumentCount

/-- The elements that the nodes before have put into a pool are those below the next element. -/
private theorem getElem?_filterMap {α : Type} {f : Node → Option α} {node : Node} {x : α}
    (hx : f node = some x) (before after : List Node) :
    ((before ++ node :: after).filterMap f)[(before.filterMap f).length]? = some x := by
  rw [List.filterMap_append, List.filterMap_cons_some hx,
    List.getElem?_append_right (Nat.le_refl _), Nat.sub_self]
  rfl

/-- An instruction whose operands have room does the work of its node. -/
theorem Compilation.Lays.encodes {functions : Table (Function σ)} {nodes before after : List Node}
    {node : Node} {c : Compilation σ} (h : Lays functions nodes c)
    (hsplit : nodes = before ++ node :: after)
    (ha : (node.operands (Node.firstUses nodes) before).1 < 2 ^ 28)
    (hb : (node.operands (Node.firstUses nodes) before).2 < 2 ^ 28) :
    c.program.Encodes functions (node.instruction (Node.firstUses nodes) before) node := by
  have hop : (node.instruction (Node.firstUses nodes) before).opcode? = some node.opcode :=
    Instruction.opcode?_pack ha hb
  cases node with
  | integer value | float value =>
    refine ⟨hop, ?_⟩
    rw [Node.instruction, Instruction.a_pack ha hb, ← Array.getElem?_toList, h.constants, hsplit]
    exact getElem?_filterMap (f := Node.constant?) rfl before after
  | var name =>
    have hname : name ∈ Node.firstUses nodes := by
      rw [hsplit]
      exact Node.mem_firstUses.mpr (by simp [Node.variableName?])
    refine ⟨hop, ?_⟩
    rw [Node.instruction, Instruction.a_pack ha hb, ← Array.getElem?_toList, h.variableNames]
    exact List.getElem?_idxOf hname
  | negate | binary op => exact hop
  | call name argumentCount idempotent =>
    refine ⟨hop, ?_, Instruction.b_pack ha hb⟩
    rw [Node.instruction, Instruction.a_pack ha hb, ← Array.getElem?_toList, h.targets,
      List.getElem?_map, hsplit]
    exact congrArg (Option.map _) (getElem?_filterMap (f := Node.calleeName?) rfl before after)

/-- Instructions do the work of nodes if each of them does, wherever it stands. -/
theorem Compilation.Lays.covers {functions : Table (Function σ)} {nodes : List Node}
    {c : Compilation σ} (h : Lays functions nodes c) {done : List Node}
    (hlength : done.length = nodes.length)
    (hencodes : ∀ before node after, nodes = before ++ node :: after →
      ∀ other, done[before.length]? = some other →
        c.program.Encodes functions (node.instruction (Node.firstUses nodes) before) other) :
    List.Forall₂ (c.program.Encodes functions) c.program.code.toList done := by
  refine List.forall₂_iff_get.mpr ⟨h.size.trans hlength.symm, fun k hcode hdone => ?_⟩
  have hnode : k < nodes.length := hlength ▸ hdone
  have hsplit : nodes = nodes.take k ++ nodes[k] :: nodes.drop (k + 1) := by
    rw [List.getElem_cons_drop, List.take_append_drop]
  have hk : (nodes.take k).length = k := List.length_take_of_le (Nat.le_of_lt hnode)
  have hinstruction := h.code _ _ _ hsplit
  rw [hk, List.getElem?_eq_some_iff] at hinstruction
  obtain ⟨_, hinstruction⟩ := hinstruction
  have hother : done[(nodes.take k).length]? = some (done.get ⟨k, hdone⟩) := by
    rw [hk, List.getElem?_eq_getElem hdone]
    rfl
  have hthis := hencodes _ _ _ hsplit _ hother
  rwa [← hinstruction] at hthis

/-- The instructions of a program made from a tree encode the nodes of the tree. -/
theorem Tree.compile_covers (t : Tree) (functions : Table (Function σ))
    (hsize : t.postorder.length < 2 ^ 28) :
    List.Forall₂ ((t.compile functions).Encodes functions) (t.compile functions).code.toList
        t.postorder ∧
      (t.compile functions).variableNames.toList = t.variableNames := by
  have hlays := t.compile_lays functions
  refine ⟨hlays.covers rfl fun before node after hsplit other hother => ?_, hlays.variableNames⟩
  obtain rfl : node = other := by
    rw [hsplit, List.getElem?_append_right (Nat.le_refl _), Nat.sub_self] at hother
    exact Option.some.inj hother
  obtain ⟨ha, hb⟩ := operands_lt hsize hsplit
  exact hlays.encodes hsplit ha hb

end FormulaEngine
