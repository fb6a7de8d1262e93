import FormulaEngine.Proofs.ProgramLayout
import FormulaEngine.Proofs.TreePasses
import FormulaEngine.Tree.Flags
import Mathlib

/-!
What the flags of a tree say. They are combined upward, each node from the flags of its arguments
alone. What they say of the whole tree is told here without them: by the uses of variables from left
to right, by the calls in the tree and by the shape of the trees whose values are integers.
-/
namespace FormulaEngine

/-- The operators whose result is an integer if both arguments are. -/
def BinaryOperator.keepsIntegers (op : BinaryOperator) : Bool :=
  [.add, .subtract, .multiply, .modulo].contains op

/-- The operators whose result is a truth value. -/
def BinaryOperator.isTruth (op : BinaryOperator) : Bool :=
  [.and, .or, .lessThan, .lessOrEqual, .greaterThan, .greaterOrEqual, .equal, .notEqual].contains op

namespace NumberKind

theorem join_eq_integer_iff (left right : NumberKind) :
    join left right = .integer ↔ left = .integer ∧ right = .integer := by
  cases left <;> cases right <;> simp [join]

theorem ofBinary_eq_integer_iff (op : BinaryOperator) (left right : NumberKind) :
    ofBinary op left right = .integer ↔
      (op.keepsIntegers = true ∧ left = .integer ∧ right = .integer) ∨ op.isTruth = true := by
  cases op <;>
    simp [ofBinary, join_eq_integer_iff, BinaryOperator.keepsIntegers, BinaryOperator.isTruth]

end NumberKind

namespace Tree

mutual

/-- The names of the variables of a tree, as often as they are used, from left to right. -/
def uses : Tree → List String
  | var name => [name]
  | negate argument => argument.uses
  | binary _ left right => left.uses ++ right.uses
  | call _ arguments _ => usesAll arguments
  | _ => []

def usesAll : List Tree → List String
  | [] => []
  | t :: ts => t.uses ++ usesAll ts

end

mutual

/-- The subtrees of a tree in post-order, the tree itself last. -/
def subtrees : Tree → List Tree
  | negate argument => argument.subtrees ++ [.negate argument]
  | binary op left right => left.subtrees ++ right.subtrees ++ [.binary op left right]
  | call name arguments idempotent => subtreesAll arguments ++ [.call name arguments idempotent]
  | t => [t]

def subtreesAll : List Tree → List Tree
  | [] => []
  | t :: ts => t.subtrees ++ subtreesAll ts

end

/-- The trees whose values are integers: those computed from integers alone, and truth values. -/
inductive IsInteger : Tree → Prop
  | integer (value : Int64) : IsInteger (.integer value)
  | negate {argument : Tree} : IsInteger argument → IsInteger (.negate argument)
  | binary {op : BinaryOperator} {left right : Tree} : op.keepsIntegers = true →
      IsInteger left → IsInteger right → IsInteger (.binary op left right)
  | truth {op : BinaryOperator} (left right : Tree) : op.isTruth = true →
      IsInteger (.binary op left right)

theorem usesAll_eq (ts : List Tree) : usesAll ts = ts.flatMap uses := by
  induction ts with
  | nil => rfl
  | cons t ts ih => rw [usesAll, ih, List.flatMap_cons]

theorem uses_eq (t : Tree) : t.uses = t.children.flatMap uses ++ t.root.variableName?.toList := by
  cases t <;> simp [uses, usesAll_eq, children, root, Node.variableName?]

/-- Uses from left to right are uses in post-order. -/
theorem filterMap_postorder (t : Tree) : t.postorder.filterMap Node.variableName? = t.uses := by
  induction t using children_induction with
  | step t ih =>
    rw [postorder_eq, uses_eq, List.filterMap_append, List.filterMap_flatMap]
    congr 1
    exact List.flatMap_congr ih

theorem variableNames_eq (t : Tree) : t.variableNames = t.uses.eraseDups := by
  rw [← filterMap_postorder]
  exact Node.firstUses_eq_eraseDups t.postorder

theorem variableNames_ne_nil_iff (t : Tree) : t.variableNames ≠ [] ↔ t.uses ≠ [] := by
  rw [variableNames_eq]
  cases t.uses <;> simp [List.eraseDups_cons]

theorem subtreesAll_eq (ts : List Tree) : subtreesAll ts = ts.flatMap subtrees := by
  induction ts with
  | nil => rfl
  | cons t ts ih => rw [subtreesAll, ih, List.flatMap_cons]

theorem subtrees_eq (t : Tree) : t.subtrees = t.children.flatMap subtrees ++ [t] := by
  cases t <;> simp [subtrees, subtreesAll_eq, children]

/-- The flags of a tree follow from those of its arguments. -/
theorem flags_eq (t : Tree) : t.flags = t.root.flags (t.children.map flags) := by
  have hpass (s : Tree) : s.flags =
      (s.passM (m := Id) fun node arguments => pure (node.flags arguments)).run := by
    rw [flags, runNodes_postorder]
    rfl
  rw [hpass, passM_eq, Id.run_bind, List.idRun_mapM, Id.run_pure, funext hpass]

/-- The root of a tree with the flags of the tree. -/
def flagged (t : Tree) : Node × Flags := (t.root, t.flags)

theorem dependsOnVariables_iff (t : Tree) :
    t.flags.dependsOnVariables = true ↔ t.variableNames ≠ [] := by
  rw [variableNames_ne_nil_iff]
  induction t using children_induction with
  | step t ih =>
    have harguments : (t.children.map flags).any Flags.dependsOnVariables = true ↔
        t.children.flatMap uses ≠ [] := by
      simp only [List.any_map, List.any_eq_true, Function.comp_apply, ne_eq,
        List.flatMap_eq_nil_iff, not_forall, exists_prop]
      exact exists_congr fun s => and_congr_right fun hs => ih s hs
    rw [flags_eq, uses_eq, Node.flags, Bool.or_eq_true, harguments]
    cases t <;> simp [root, children, Node.isVar, Node.variableName?]

theorem ownIdempotence_root (t : Tree) :
    t.root.ownIdempotence = true ↔ ∀ name arguments, .call name arguments false ≠ t := by
  cases t with
  | call name arguments idempotent => cases idempotent <;> simp [root, Node.ownIdempotence]
  | _ => simp [root, Node.ownIdempotence]

theorem idempotent_iff (t : Tree) :
    t.flags.idempotent = true ↔ ∀ name arguments, .call name arguments false ∉ t.subtrees := by
  induction t using children_induction with
  | step t ih =>
    have harguments : (t.children.map flags).all Flags.idempotent = true ↔
        ∀ name arguments, .call name arguments false ∉ t.children.flatMap subtrees := by
      simp only [List.all_map, List.all_eq_true, Function.comp_apply, List.mem_flatMap, not_exists,
        not_and]
      constructor
      · intro h name arguments s hs
        exact (ih s hs).mp (h s hs) name arguments
      · intro h s hs
        exact (ih s hs).mpr fun name arguments => h name arguments s hs
    rw [flags_eq, subtrees_eq, Node.flags, Bool.and_eq_true, harguments, ownIdempotence_root]
    simp only [List.mem_append, List.mem_singleton, not_or, forall_and, ne_eq, and_comm]

theorem kind_eq_integer_iff (t : Tree) : t.flags.kind = .integer ↔ t.IsInteger := by
  induction t using children_induction with
  | step t ih =>
    rw [flags_eq, Node.flags]
    cases t with
    | integer value => exact iff_of_true rfl (.integer value)
    | float value => exact iff_of_false (by simp [root, Node.kind]) (by rintro ⟨⟩)
    | var name => exact iff_of_false (by simp [root, Node.kind]) (by rintro ⟨⟩)
    | negate argument =>
      have hargument := ih argument (by simp [children])
      constructor
      · intro h
        exact .negate (hargument.mp h)
      · rintro ⟨⟩
        exact hargument.mpr ‹_›
    | binary op left right =>
      have hleft := ih left (by simp [children])
      have hright := ih right (by simp [children])
      have hkind : (root (.binary op left right)).kind
          ((children (.binary op left right)).map flags) =
            .ofBinary op left.flags.kind right.flags.kind := rfl
      rw [hkind, NumberKind.ofBinary_eq_integer_iff, hleft, hright]
      constructor
      · rintro (⟨hop, hl, hr⟩ | hop)
        · exact .binary hop hl hr
        · exact .truth left right hop
      · rintro (_ | _ | ⟨hop, hl, hr⟩ | ⟨_, _, hop⟩)
        · exact .inl ⟨hop, hl, hr⟩
        · exact .inr hop
    | call name arguments idempotent =>
      exact iff_of_false (by simp [root, Node.kind]) (by rintro ⟨⟩)

end Tree

end FormulaEngine
