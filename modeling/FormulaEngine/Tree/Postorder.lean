import FormulaEngine.Tree

/-!
Trees in post-order: every node after its arguments, arguments from left to right.
A pass over a tree goes through its nodes with a stack of results; each node takes
the results of its arguments off the stack and leaves its own.
-/
namespace FormulaEngine

/-- A node of a tree without its arguments. -/
inductive Node
  | integer (value : Int64)
  | float (value : Float)
  | var (name : String)
  | negate
  | binary (op : BinaryOperator)
  | call (name : String) (argumentCount : Nat) (idempotent : Bool)

namespace Node

def arity : Node → Nat
  | integer _ | float _ | var _ => 0
  | negate => 1
  | binary _ => 2
  | call _ argumentCount _ => argumentCount

/-- The tree of a node and its arguments, in their form, if the number of arguments is right. -/
def build? {τ : Type} [TreeForm τ] : Node → List τ → Option τ
  | integer value, [] => some (TreeForm.integer value)
  | float value, [] => some (TreeForm.float value)
  | var name, [] => some (TreeForm.var name)
  | negate, [argument] => some (TreeForm.negate argument)
  | binary op, [left, right] => some (TreeForm.binary op left right)
  | call name argumentCount idempotent, arguments =>
    if arguments.length = argumentCount then some (TreeForm.call name arguments idempotent)
    else none
  | _, _ => none

/-- Whether two nodes are equal, comparing literals as numbers: a NaN differs from itself and the
two zeros are equal. -/
def same : Node → Node → Bool
  | integer a, integer b => a == b
  | float a, float b => a == b
  | var a, var b => a == b
  | negate, negate => true
  | binary a, binary b => a == b
  | call a m i, call b n j => a == b && m == n && i == j
  | _, _ => false

/-- The names of variables in a list of nodes, each once, in the order of their first use. -/
def firstUses (nodes : List Node) : List String :=
  (nodes.foldl (fun names node =>
    match node with
    | .var name => if names.contains name then names else name :: names
    | _ => names) []).reverse

end Node

namespace Tree

mutual

/-- The nodes of a tree in post-order, followed by `rest`. -/
def emit : Tree → List Node → List Node
  | integer value, rest => .integer value :: rest
  | float value, rest => .float value :: rest
  | var name, rest => .var name :: rest
  | negate argument, rest => argument.emit (.negate :: rest)
  | binary op left right, rest => left.emit (right.emit (.binary op :: rest))
  | call name arguments idempotent, rest =>
    emitAll arguments (.call name arguments.length idempotent :: rest)

def emitAll : List Tree → List Node → List Node
  | [], rest => rest
  | t :: ts, rest => t.emit (emitAll ts rest)

end

def postorder (t : Tree) : List Node := t.emit []

/-- Runs `step` over nodes. The stack holds the results of the nodes before, the latest first; a
step gets the results of the arguments of its node from left to right. -/
@[specialize]
def runNodes {m : Type → Type} [Monad m] {α : Type} (step : Node → List α → m α) :
    List Node → List α → m (List α)
  | [], stack => pure stack
  | node :: nodes, stack => do
    let result ← step node (stack.take node.arity).reverse
    runNodes step nodes (result :: stack.drop node.arity)

/-- The tree with the given nodes in post-order, if there is one. -/
def ofPostorder? (nodes : List Node) : Option Tree :=
  match runNodes Node.build? nodes [] with
  | some [t] => some t
  | _ => none

/-- A tree made anew from its nodes, in any form. -/
def made {τ : Type} [TreeForm τ] (t : Tree) : τ :=
  let step (node : Node) (arguments : List τ) : Id τ :=
    (node.build? arguments).getD (TreeForm.float 0)
  (runNodes step t.postorder []).run.headD (TreeForm.float 0)

/-- Equality of trees that compares literals as numbers. -/
def same (s t : Tree) : Bool :=
  let nodes := s.postorder
  let others := t.postorder
  nodes.length == others.length && (nodes.zip others).all fun pair => pair.1.same pair.2

/-- The names of the variables of a tree, each once, in the order of their first use. -/
def variableNames (t : Tree) : List String := Node.firstUses t.postorder

end Tree

end FormulaEngine
