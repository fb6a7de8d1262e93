import FormulaEngine.Evaluation
import FormulaEngine.Proofs.AssemblyImages
import FormulaEngine.Proofs.TreePasses

/-!
Constants that become literals. A formula that is read with constants is the formula that is read
without them, with the values of the constants put in for variables. It is evaluated like the
formula without constants in a scope in which the constants go before all bindings.
-/
namespace FormulaEngine

/-- Values for some of the names. -/
abbrev Values := String → Option Float

def Node.fill (values : Values) : Node → Node
  | var name => (values name).elim (var name) float
  | node => node

namespace Tree

mutual

/-- The tree with values in the place of variables that have one. -/
def fill (values : Values) : Tree → Tree
  | integer value => integer value
  | float value => float value
  | var name => (values name).elim (var name) float
  | negate argument => negate (argument.fill values)
  | binary op left right => binary op (left.fill values) (right.fill values)
  | call name arguments idempotent => call name (fillAll values arguments) idempotent

def fillAll (values : Values) : List Tree → List Tree
  | [] => []
  | t :: ts => t.fill values :: fillAll values ts

end

end Tree

variable {values : Values}

@[simp]
theorem Node.fill_arity (node : Node) : (node.fill values).arity = node.arity := by
  cases node with
  | var name => rw [fill]; cases values name <;> rfl
  | _ => rfl

namespace Tree

theorem fillAll_eq_map (ts : List Tree) : fillAll values ts = ts.map (fill values) := by
  induction ts with
  | nil => rfl
  | cons t ts ih => rw [fillAll, ih, List.map_cons]

theorem fill_call (name : String) (arguments : List Tree) (idempotent : Bool) :
    (call name arguments idempotent).fill values =
      call name (arguments.map (fill values)) idempotent := by
  rw [fill, fillAll_eq_map]

theorem root_fill (t : Tree) : (t.fill values).root = t.root.fill values := by
  cases t with
  | var name => rw [fill, root, Node.fill]; cases values name <;> rfl
  | call name arguments idempotent =>
    rw [fill_call, root, List.length_map]
    rfl
  | _ => rfl

theorem children_fill (t : Tree) : (t.fill values).children = t.children.map (fill values) := by
  cases t with
  | var name => rw [fill]; cases values name <;> rfl
  | call name arguments idempotent => rw [fill_call, children, children]
  | _ => rfl

theorem postorder_fill (t : Tree) :
    (t.fill values).postorder = t.postorder.map (Node.fill values) := by
  induction t using children_induction with
  | step t ih =>
    rw [postorder_eq, postorder_eq t, root_fill, children_fill, List.map_append,
      List.flatMap_map, List.map_flatMap]
    congr 1
    exact List.flatMap_congr ih

end Tree

section Evaluation

variable {σ : Type} {scope scope' : Scope σ}

/-- Whether the names with values have these values in a scope, and all others mean what they mean
in another one. -/
structure Scope.Fills (values : Values) (scope scope' : Scope σ) : Prop where
  functions : scope'.functions = scope.functions
  variable_eq : ∀ name, scope'.variable name = (values name).elim (scope.variable name) .ok

theorem Node.evaluate_fill (h : scope.Fills values scope') (node : Node) :
    (node.fill values).evaluate scope = node.evaluate scope' := by
  funext arguments
  cases node with
  | var name =>
    have hname := h.variable_eq name
    change _ = ExceptT.mk (pure (scope'.variable name))
    rw [hname, fill]
    cases values name <;> rfl
  | call name argumentCount idempotent =>
    change scope.functions.call name arguments = scope'.functions.call name arguments
    rw [h.functions]
  | negate => rcases arguments with _ | ⟨x, _ | ⟨y, rest⟩⟩ <;> rfl
  | binary op => rcases arguments with _ | ⟨x, _ | ⟨y, _ | ⟨z, rest⟩⟩⟩ <;> rfl
  | _ => rfl

theorem Tree.evaluate_fill (h : scope.Fills values scope') (t : Tree) :
    (t.fill values).evaluate scope = t.evaluate scope' := by
  have hnodes : ∀ (nodes : List Node) (stack : List Float),
      runNodes (Node.evaluate scope) (nodes.map (Node.fill values)) stack =
        runNodes (Node.evaluate scope') nodes stack := by
    intro nodes
    induction nodes with
    | nil => exact fun _ => rfl
    | cons node nodes ih =>
      intro stack
      rw [List.map_cons, runNodes, runNodes, Node.evaluate_fill h, Node.fill_arity]
      exact congrArg _ (funext fun x => ih _)
  rw [evaluate, evaluate, postorder_fill, hnodes]

end Evaluation

def Operand.fill (values : Values) (operand : Operand) : Operand :=
  { operand with tree := operand.tree.fill values }

def Operands.fill (values : Values) (s : Operands) : Operands :=
  ⟨s.items.map (Operand.fill values), s.count, by simp [s.count_eq]⟩

/-- The names that a formula may use, but for the constants. -/
def Vocabulary.bare (v : Vocabulary) : Vocabulary := { v with constant? := fun _ => none }

def Assembly.fill (values : Values) (a : Assembly) : Assembly :=
  { a with operands := a.operands.fill values }

namespace Image

/-- Putting values in, which leaves every part where it stands. -/
def fill (values : Values) : Image Tree Tree where
  tree := Tree.fill values
  span := id
  negate _ := rfl
  binary _ _ _ := rfl
  call := Tree.fill_call
  cover := id_cover

theorem fill_assembly (a : Assembly) : (fill values).assembly a = a.fill values := by
  have hwaiting : ∀ item, (fill values).waiting item = item := by
    intro item
    cases item <;> rfl
  rw [assembly, List.map_id'' hwaiting]
  rfl

theorem fill_result (result : Except ParseError Assembly) :
    (fill values).result result = result.map (Assembly.fill values) := by
  cases result with
  | error e => rfl
  | ok a => exact congrArg Except.ok (fill_assembly a)

end Image

namespace Assembly

theorem closeGroup_fill (a : Assembly) :
    (a.fill values).closeGroup = a.closeGroup.map (fill values) := by
  rw [← Image.fill_assembly, (Image.fill values).closeGroup, Image.fill_result]

theorem addOperator_fill (op : Operator) (span : Span) (a : Assembly) :
    (a.fill values).addOperator op span = (a.addOperator op span).map (fill values) := by
  rw [← Image.fill_assembly, ← Image.fill_result]
  exact (Image.fill values).addOperator op span a

theorem addSeparator_fill (span : Span) (a : Assembly) :
    (a.fill values).addSeparator span = (a.addSeparator span).map (fill values) := by
  rw [← Image.fill_assembly, ← Image.fill_result]
  exact (Image.fill values).addSeparator span a

theorem addRightBracket_fill (afterLeftBracket : Bool) (span : Span) (a : Assembly) :
    (a.fill values).addRightBracket afterLeftBracket span =
      (a.addRightBracket afterLeftBracket span).map (fill values) := by
  rw [← Image.fill_assembly, ← Image.fill_result]
  exact (Image.fill values).addRightBracket afterLeftBracket span a

variable {v : Vocabulary}
  (hvalues : ∀ name, v.function? name = none → v.constant? name = values (v.variableName name))
include hvalues

theorem addName_fill (name : String) (beforeLeftBracket : Bool) (span : Span) (a : Assembly) :
    (a.fill values).addName v name beforeLeftBracket span =
      (a.addName v.bare name beforeLeftBracket span).map (fill values) := by
  unfold addName
  rw [show v.bare.function? name = v.function? name from rfl]
  cases hfunction : v.function? name with
  | some callee => cases beforeLeftBracket <;> rfl
  | none =>
    dsimp only [Vocabulary.bare]
    rw [hvalues name hfunction]
    have hvar : ∀ result, (result = (Tree.var (v.variableName name)).fill values) →
        Except.ok ((a.fill values).pushOperand result span) =
          Except.map (fill values)
            (Except.ok (a.pushOperand (.var (v.variableName name)) span) :
              Except ParseError Assembly) := by
      rintro _ rfl
      rfl
    cases hvalue : values (v.variableName name) with
    | none => exact hvar _ (by rw [Tree.fill, hvalue]; rfl)
    | some value => exact hvar _ (by rw [Tree.fill, hvalue]; rfl)

theorem add_fill (afterLeftBracket beforeLeftBracket : Bool) (token : Token) (a : Assembly) :
    (a.fill values).add v afterLeftBracket beforeLeftBracket token =
      (a.add v.bare afterLeftBracket beforeLeftBracket token).map (fill values) := by
  unfold add
  split
  · rfl
  · rfl
  · exact addName_fill hvalues _ _ _ a
  · exact addOperator_fill _ _ a
  · rfl
  · exact addRightBracket_fill _ _ a
  · exact addSeparator_fill _ a

theorem addAll_fill (afterLeftBracket : Bool) (tokens : List Token) (a : Assembly) :
    addAll v afterLeftBracket tokens (a.fill values) =
      (addAll v.bare afterLeftBracket tokens a).map (fill values) := by
  induction tokens generalizing afterLeftBracket a with
  | nil => rfl
  | cons token rest ih =>
    unfold addAll
    rw [add_fill hvalues]
    cases a.add v.bare afterLeftBracket (startsWithLeftBracket rest) token with
    | error e => rfl
    | ok b => exact ih _ b

end Assembly

/-- Whether one result is the other one with values put in, or both are complaints about the same
place. What is complained about may be a value that was put in. -/
inductive Filled (values : Values) : Except ParseError Tree → Except ParseError Tree → Prop
  | ok (t : Tree) : Filled values (.ok t) (.ok (t.fill values))
  | error {e e' : ParseError} (hspan : e'.span = e.span) : Filled values (.error e) (.error e')

theorem Filled.of_ok {t : Tree} {result : Except ParseError Tree}
    (h : Filled values (.ok t) result) : result = .ok (t.fill values) := by
  cases h
  rfl

theorem Filled.of_error {e : ParseError} {result : Except ParseError Tree}
    (h : Filled values (.error e) result) : ∃ e', result = .error e' ∧ e'.span = e.span := by
  cases h with
  | error hspan => exact ⟨_, rfl, hspan⟩

theorem Assembly.finish_fill (a : Assembly) : Filled values a.finish (a.fill values).finish := by
  unfold finish
  rw [closeGroup_fill]
  cases a.closeGroup with
  | error e => exact .error rfl
  | ok b =>
    obtain ⟨waiting, ⟨items, count, hcount⟩, calls⟩ := b
    dsimp only [Except.map, fill, Operands.fill]
    split
    · exact .error rfl
    · rw [← List.map_reverse]
      rcases items.reverse with _ | ⟨operand, _ | ⟨next, rest⟩⟩
      · exact .error rfl
      · exact .ok operand.tree
      · refine .error ?_
        have hspan : ∀ operand : Operand, (leftover operand).span = operand.span := by
          intro operand
          unfold leftover
          split <;> rfl
        rw [hspan, hspan]
        rfl

/-- A formula that is read with constants is the one that is read without them, with the values of
the constants put in. -/
theorem Tree.parse_fill {v : Vocabulary}
    (hvalues : ∀ name, v.function? name = none → v.constant? name = values (v.variableName name))
    (locale : Locale) (text : String) :
    Filled values (parse locale v.bare text) (parse locale v text) := by
  unfold parse readFormula
  split
  · exact .error rfl
  · exact .error rfl
  · have hread := Assembly.addAll_fill hvalues false ‹List Token› .empty
    unfold readTokens
    rw [show Assembly.empty.fill values = .empty from rfl] at hread
    rw [hread]
    cases Assembly.addAll v.bare false ‹List Token› (.empty : Assembly) with
    | error e => exact .error rfl
    | ok a => exact a.finish_fill

end FormulaEngine
