import FormulaEngine.Proofs.AssemblySteps
import FormulaEngine.Proofs.Evaluations

/-!
The nodes of parsed trees. A call in a parsed tree is a call of the function that the
vocabulary has for a name, with a number of arguments that this function takes.
-/
namespace FormulaEngine

/-- A property of all nodes of a tree holds of its root and of all nodes of its children. -/
theorem Tree.forall_mem_postorder {Q : Node → Prop} {t : Tree} :
    (∀ node ∈ t.postorder, Q node) ↔
      Q t.root ∧ ∀ child ∈ t.children, ∀ node ∈ child.postorder, Q node := by
  constructor
  · intro h
    exact ⟨h _ t.root_mem_postorder,
      fun child hchild node hnode => h node ((postorder_sublist_of_child hchild).subset hnode)⟩
  · rintro ⟨hroot, hchildren⟩ node hnode
    rw [postorder_eq, List.mem_append, List.mem_flatMap, List.mem_singleton] at hnode
    rcases hnode with ⟨child, hchild, hnode⟩ | rfl
    · exact hchildren child hchild node hnode
    · exact hroot

namespace Assembly

/-- Whether all nodes of the operands have a property, and all calls still to be made will. -/
structure AllNodes (Q : Node → Prop) (a : Assembly) : Prop where
  operands : ∀ operand ∈ a.operands.items, ∀ node ∈ operand.tree.postorder, Q node
  callees : ∀ callee span, .function callee span ∈ a.waiting →
    ∀ n, callee.accepts n = true → Q (.call callee.name n callee.idempotent)

variable {Q : Node → Prop} (hplain : ∀ node : Node, node.calleeName? = none → Q node)
  {a b : Assembly}
include hplain

theorem Reduction.allNodes (h : Reduction a b) (ha : a.AllNodes Q) : b.AllNodes Q := by
  refine ⟨?_, fun callee span hitem => ha.callees callee span ?_⟩
  · have hoperands := ha.operands
    cases h with
    | negate argument =>
      obtain ⟨hargument, hrest⟩ := List.forall_mem_cons.mp hoperands
      refine List.forall_mem_cons.mpr ⟨Tree.forall_mem_postorder.mpr ⟨hplain _ rfl, ?_⟩, hrest⟩
      exact List.forall_mem_singleton.mpr hargument
    | binary op left right =>
      obtain ⟨hright, hothers⟩ := List.forall_mem_cons.mp hoperands
      obtain ⟨hleft, hrest⟩ := List.forall_mem_cons.mp hothers
      refine List.forall_mem_cons.mpr ⟨Tree.forall_mem_postorder.mpr ⟨hplain _ rfl, ?_⟩, hrest⟩
      exact List.forall_mem_cons.mpr ⟨hleft, List.forall_mem_singleton.mpr hright⟩
    | call haccepts name waiting operands =>
      rw [Operands.items_pushAll, List.forall_mem_append] at hoperands
      obtain ⟨harguments, hrest⟩ := hoperands
      refine List.forall_mem_cons.mpr ⟨Tree.forall_mem_postorder.mpr ⟨?_, ?_⟩, hrest⟩
      · have hcall := ha.callees _ name List.mem_cons_self _ haccepts
        rwa [← List.length_map (f := Operand.tree)] at hcall
      · intro child hchild
        obtain ⟨argument, hargument, rfl⟩ := List.mem_map.mp hchild
        exact harguments argument (List.mem_reverse.mpr hargument)
  · cases h <;> exact List.mem_cons_of_mem _ hitem

theorem Intake.allNodes {v : Vocabulary} {afterLeftBracket beforeLeftBracket : Bool} {span : Span}
    {kind : TokenKind}
    (hv : ∀ name callee, v.function? name = some callee →
      ∀ n, callee.accepts n = true → Q (.call callee.name n callee.idempotent))
    (h : Intake v afterLeftBracket beforeLeftBracket span kind a b) (ha : a.AllNodes Q) :
    b.AllNodes Q := by
  have hleaf : ∀ t : Tree, t.children = [] → t.root.calleeName? = none →
      (a.pushOperand t span).AllNodes Q := by
    intro t hchildren hroot
    refine ⟨List.forall_mem_cons.mpr ⟨?_, ha.operands⟩, ha.callees⟩
    refine Tree.forall_mem_postorder.mpr ⟨hplain _ hroot, ?_⟩
    rw [hchildren]
    nofun
  cases h with
  | integer | float | constant | var => exact hleaf _ rfl rfl
  | function hfunction =>
    refine ⟨ha.operands, fun callee span hitem => ?_⟩
    rcases List.mem_cons.mp hitem with heq | hitem
    · cases heq
      exact hv _ _ hfunction
    · exact ha.callees callee span hitem
  | operator op hreductions =>
    obtain ⟨hoperands, hcallees⟩ := hreductions.keeps (Reduction.allNodes hplain) ha
    refine ⟨hoperands, fun callee span hitem => hcallees callee span ?_⟩
    exact (List.mem_cons.mp hitem).resolve_left nofun
  | leftBracket =>
    refine ⟨ha.operands, fun callee span hitem => ha.callees callee span ?_⟩
    exact (List.mem_cons.mp hitem).resolve_left nofun
  | emptyList =>
    exact ⟨ha.operands, fun callee span hitem =>
      ha.callees callee span (List.mem_cons_of_mem _ hitem)⟩
  | rightBracket _ hreductions =>
    obtain ⟨hoperands, hcallees⟩ := hreductions.keeps (Reduction.allNodes hplain) ha
    exact ⟨hoperands, fun callee span hitem =>
      hcallees callee span (List.mem_cons_of_mem _ hitem)⟩
  | separator hreductions =>
    obtain ⟨hoperands, hcallees⟩ := hreductions.keeps (Reduction.allNodes hplain) ha
    exact ⟨hoperands, hcallees⟩

end Assembly

/-- A property of all nodes that are no calls and of all calls that a vocabulary allows. -/
theorem Tree.forall_mem_postorder_of_parse {Q : Node → Prop}
    (hplain : ∀ node : Node, node.calleeName? = none → Q node) {v : Vocabulary}
    (hv : ∀ name callee, v.function? name = some callee →
      ∀ n, callee.accepts n = true → Q (.call callee.name n callee.idempotent))
    {locale : Locale} {text : String} {t : Tree} (h : parse locale v text = .ok t) :
    ∀ node ∈ t.postorder, Q node := by
  obtain ⟨tokens, -, htokens⟩ := parse_cases h
  obtain ⟨a, span, calls, hadd, hreductions⟩ := ofTokens_cases htokens
  have hstart : Assembly.addAll v (Assembly.endsWithLeftBracket []) tokens .empty = .ok a := hadd
  have hread := Assembly.addAll_keeps (P := fun _ _ a => a.AllNodes Q)
    (Assembly.Intake.allNodes hplain hv) hstart ⟨nofun, nofun⟩
  exact (hreductions.keeps (Assembly.Reduction.allNodes hplain) hread).operands _
    List.mem_cons_self

end FormulaEngine
