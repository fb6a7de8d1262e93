import FormulaEngine.Tree.Postorder
import Mathlib.Algebra.BigOperators.Group.List.Basic
import Mathlib.Data.List.Basic

/-!
Passes over trees. Going through the nodes in post-order with a stack of results does
what a recursion does that handles the arguments of a node from left to right and then
the node. In post-order every node finds its arguments on the stack.
-/
namespace FormulaEngine

namespace Tree

/-- The node at the root. -/
def root : Tree → Node
  | integer value => .integer value
  | float value => .float value
  | var name => .var name
  | negate _ => .negate
  | binary op _ _ => .binary op
  | call name arguments idempotent => .call name arguments.length idempotent

/-- The arguments of the root, from left to right. -/
def children : Tree → List Tree
  | negate argument => [argument]
  | binary _ left right => [left, right]
  | call _ arguments _ => arguments
  | _ => []

theorem length_children (t : Tree) : t.children.length = t.root.arity := by
  cases t <;> rfl

/-- A tree is built from its root and its children in one way only. -/
theorem root_eq_of_build? {node : Node} {arguments : List Tree} {t : Tree}
    (h : node.build? arguments = some t) : t.root = node ∧ t.children = arguments := by
  unfold Node.build? at h
  split at h
  case h_6 =>
    split at h
    · rename_i hlength
      cases h
      exact ⟨congrArg (Node.call _ · _) hlength, rfl⟩
    · cases h
  case h_7 => cases h
  all_goals
    cases h
    exact ⟨rfl, rfl⟩

theorem build?_root_children (t : Tree) : t.root.build? t.children = some t := by
  cases t <;> simp [root, children, Node.build?]

theorem exists_build? {node : Node} {arguments : List Tree}
    (h : arguments.length = node.arity) : ∃ t, node.build? arguments = some t := by
  cases node <;> simp only [Node.arity] at h
  case negate =>
    obtain ⟨argument, rfl⟩ := List.length_eq_one_iff.mp h
    exact ⟨_, rfl⟩
  case binary =>
    obtain ⟨left, right, rfl⟩ := List.length_eq_two.mp h
    exact ⟨_, rfl⟩
  case call name argumentCount idempotent =>
    exact ⟨.call name arguments idempotent, by simp only [Node.build?, h, if_true, TreeForm.call_tree]⟩
  all_goals
    cases List.length_eq_zero_iff.mp h
    exact ⟨_, rfl⟩

theorem emit_eq (t : Tree) (rest : List Node) :
    t.emit rest = emitAll t.children (t.root :: rest) := by
  cases t <;> rfl

theorem sizeOf_lt_of_mem_children {t child : Tree} (h : child ∈ t.children) :
    sizeOf child < sizeOf t := by
  cases t <;> simp only [children, List.mem_cons, List.not_mem_nil, or_false] at h
  case negate =>
    subst h
    simp only [negate.sizeOf_spec]
    omega
  case binary =>
    rcases h with rfl | rfl <;> simp only [binary.sizeOf_spec] <;> omega
  case call =>
    have hargument := List.sizeOf_lt_of_mem h
    simp only [call.sizeOf_spec]
    omega

/-- Induction on trees by way of their children. -/
@[elab_as_elim]
theorem children_induction {motive : Tree → Prop}
    (step : ∀ t : Tree, (∀ child ∈ t.children, motive child) → motive t) (t : Tree) : motive t :=
  step t fun child _ => children_induction step child
termination_by sizeOf t
decreasing_by exact sizeOf_lt_of_mem_children ‹_›

private theorem emitAll_eq_append {ts : List Tree}
    (hts : ∀ t ∈ ts, ∀ rest, t.emit rest = t.postorder ++ rest) (rest : List Node) :
    emitAll ts rest = ts.flatMap postorder ++ rest := by
  induction ts with
  | nil => rfl
  | cons t ts ih =>
    rw [emitAll, hts t List.mem_cons_self, ih fun s hs => hts s (List.mem_cons_of_mem t hs),
      List.flatMap_cons, List.append_assoc]

theorem emit_eq_append (t : Tree) (rest : List Node) : t.emit rest = t.postorder ++ rest := by
  induction t using children_induction generalizing rest with
  | step t ih =>
    rw [postorder, emit_eq, emit_eq, emitAll_eq_append ih, emitAll_eq_append ih, List.append_assoc]
    rfl

/-- The nodes of the arguments come before the root. -/
theorem postorder_eq (t : Tree) : t.postorder = t.children.flatMap postorder ++ [t.root] := by
  rw [postorder, emit_eq, emitAll_eq_append fun s _ => s.emit_eq_append]

theorem root_mem_postorder (t : Tree) : t.root ∈ t.postorder := by
  rw [postorder_eq]
  exact List.mem_append_right _ List.mem_cons_self

theorem postorder_sublist_of_child {t child : Tree} (h : child ∈ t.children) :
    child.postorder.Sublist t.postorder := by
  rw [postorder_eq t, List.flatMap_def]
  have hchild := List.sublist_flatten_of_mem (List.mem_map_of_mem (f := postorder) h)
  exact hchild.trans (List.sublist_append_left _ _)

theorem length_children_lt (t : Tree) : t.children.length < t.postorder.length := by
  have hpositive : ∀ child ∈ t.children, 1 ≤ child.postorder.length := by
    intro child _
    exact List.length_pos_of_mem child.root_mem_postorder
  have hlengths := List.length_le_sum_of_one_le
    (t.children.map fun child => child.postorder.length) (by simpa using hpositive)
  rw [List.length_map] at hlengths
  rw [postorder_eq, List.length_append, List.length_flatMap, List.length_singleton]
  omega

/-- A node of a tree has fewer arguments than the tree has nodes. -/
theorem arity_lt_of_mem_postorder {t : Tree} {node : Node} (h : node ∈ t.postorder) :
    node.arity < t.postorder.length := by
  induction t using children_induction with
  | step t ih =>
    have hnode := h
    rw [postorder_eq, List.mem_append, List.mem_flatMap, List.mem_singleton] at hnode
    rcases hnode with ⟨child, hchild, hnode⟩ | rfl
    · exact Nat.lt_of_lt_of_le (ih child hchild hnode)
        (postorder_sublist_of_child hchild).length_le
    · exact t.length_children ▸ t.length_children_lt

section Passes

variable {m : Type → Type} [Monad m] {α : Type}

mutual

/-- A pass by recursion: the arguments from left to right, then the node. -/
def passM (step : Node → List α → m α) : Tree → m α
  | integer value => step (.integer value) []
  | float value => step (.float value) []
  | var name => step (.var name) []
  | negate argument => do step .negate [← argument.passM step]
  | binary op left right => do
    let x ← left.passM step
    let y ← right.passM step
    step (.binary op) [x, y]
  | call name arguments idempotent => do
    step (.call name arguments.length idempotent) (← passAllM step arguments)

def passAllM (step : Node → List α → m α) : List Tree → m (List α)
  | [] => pure []
  | t :: ts => do
    let x ← t.passM step
    let xs ← passAllM step ts
    pure (x :: xs)

end

/-- A node takes as many results off the stack as its arguments have left there. -/
private theorem runNodes_cons (step : Node → List α → m α) (node : Node) (rest : List Node)
    (xs stack : List α) (h : xs.length = node.arity) :
    runNodes step (node :: rest) (xs.reverse ++ stack) =
      step node xs >>= fun x => runNodes step rest (x :: stack) := by
  have hlength : xs.reverse.length = node.arity := by simpa using h
  simp only [runNodes, List.take_left' hlength, List.drop_left' hlength, List.reverse_reverse]

theorem runNodes_congr {step step' : Node → List α → m α} {nodes : List Node}
    (h : ∀ node ∈ nodes, step' node = step node) (stack : List α) :
    runNodes step' nodes stack = runNodes step nodes stack := by
  induction nodes generalizing stack with
  | nil => rfl
  | cons node nodes ih =>
    rw [List.forall_mem_cons] at h
    simp only [runNodes, h.1, ih h.2]

variable [LawfulMonad m]

theorem runNodes_append (step : Node → List α → m α) (nodes rest : List Node) (stack : List α) :
    runNodes step (nodes ++ rest) stack = runNodes step nodes stack >>= runNodes step rest := by
  induction nodes generalizing stack with
  | nil => simp only [List.nil_append, runNodes, pure_bind]
  | cons node nodes ih => simp only [List.cons_append, runNodes, ih, bind_assoc]

theorem passAllM_eq_mapM (step : Node → List α → m α) (ts : List Tree) :
    passAllM step ts = ts.mapM (passM step) := by
  induction ts with
  | nil => simp [passAllM]
  | cons t ts ih => simp [passAllM, ih]

theorem passM_eq (step : Node → List α → m α) (t : Tree) :
    t.passM step = t.children.mapM (passM step) >>= step t.root := by
  cases t <;> simp [passM, children, root, passAllM_eq_mapM]

/-- A list computed element by element may be taken to have the length of the list it is made
from. -/
theorem mapM_bind_congr {β γ : Type} (f : β → m α) (bs : List β) {k k' : List α → m γ}
    (h : ∀ xs : List α, xs.length = bs.length → k xs = k' xs) :
    bs.mapM f >>= k = bs.mapM f >>= k' := by
  induction bs generalizing k k' with
  | nil => simpa using h [] rfl
  | cons b bs ih =>
    simp only [List.mapM_cons, bind_assoc, pure_bind]
    refine congrArg _ (funext fun x => ?_)
    exact ih fun xs hxs => h (x :: xs) (by simp [hxs])

private theorem runNodes_emitAll (step : Node → List α → m α) (ts : List Tree)
    (hts : ∀ t ∈ ts, ∀ rest stack, runNodes step (t.emit rest) stack =
      t.passM step >>= fun x => runNodes step rest (x :: stack))
    (rest : List Node) (stack : List α) :
    runNodes step (emitAll ts rest) stack =
      ts.mapM (passM step) >>= fun xs => runNodes step rest (xs.reverse ++ stack) := by
  induction ts generalizing stack with
  | nil => simp [emitAll]
  | cons t ts ih =>
    simp only [emitAll, List.mapM_cons, bind_assoc, pure_bind]
    rw [hts t List.mem_cons_self]
    refine congrArg _ (funext fun x => ?_)
    rw [ih (fun s hs => hts s (List.mem_cons_of_mem t hs))]
    simp

/-- The nodes of a tree leave the result of the recursive pass on the stack. -/
theorem runNodes_emit (step : Node → List α → m α) (t : Tree) (rest : List Node)
    (stack : List α) :
    runNodes step (t.emit rest) stack =
      t.passM step >>= fun x => runNodes step rest (x :: stack) := by
  induction t using children_induction generalizing rest stack with
  | step t ih =>
    rw [emit_eq, runNodes_emitAll step t.children ih, passM_eq, bind_assoc]
    apply mapM_bind_congr
    intro xs hxs
    exact runNodes_cons step t.root rest xs stack (hxs.trans t.length_children)

theorem runNodes_postorder (step : Node → List α → m α) (t : Tree) :
    runNodes step t.postorder [] = (fun x => [x]) <$> t.passM step := by
  rw [postorder, runNodes_emit, map_eq_pure_bind]
  rfl

end Passes

end Tree

namespace Node

/-- Whether every node finds its arguments on a stack of the given height. -/
def Fit : Nat → List Node → Prop
  | _, [] => True
  | height, node :: nodes => node.arity ≤ height ∧ Fit (height - node.arity + 1) nodes

end Node

namespace Tree

private theorem fit_emitAll {ts : List Tree}
    (hts : ∀ t ∈ ts, ∀ height rest, Node.Fit (height + 1) rest → Node.Fit height (t.emit rest))
    {height : Nat} {rest : List Node} (h : Node.Fit (height + ts.length) rest) :
    Node.Fit height (emitAll ts rest) := by
  induction ts generalizing height with
  | nil => exact h
  | cons t ts ih =>
    apply hts t List.mem_cons_self
    apply ih (fun s hs => hts s (List.mem_cons_of_mem t hs))
    have hlength : height + 1 + ts.length = height + (t :: ts).length := by
      simp only [List.length_cons]
      omega
    rwa [hlength]

theorem fit_emit (t : Tree) {height : Nat} {rest : List Node}
    (h : Node.Fit (height + 1) rest) : Node.Fit height (t.emit rest) := by
  induction t using children_induction generalizing height rest with
  | step t ih =>
    rw [emit_eq]
    apply fit_emitAll (fun s hs _ _ h => ih s hs h)
    have hlength := t.length_children
    refine ⟨by omega, ?_⟩
    have hheight : height + t.children.length - t.root.arity + 1 = height + 1 := by omega
    rwa [hheight]

theorem fit_postorder (t : Tree) : Node.Fit 0 t.postorder := t.fit_emit trivial

end Tree

end FormulaEngine
