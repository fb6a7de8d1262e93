import FormulaEngine.Tree.Postorder

/-!
What is known of the value of a tree without evaluating it: whether it is computed
from integers alone, whether it depends on variables and whether every call in it is
idempotent. The nodes of an operation store this, each from what its arguments store.
-/
namespace FormulaEngine

inductive NumberKind
  | integer
  | float
  deriving DecidableEq, Repr

structure Flags where
  kind : NumberKind
  dependsOnVariables : Bool
  idempotent : Bool
  deriving DecidableEq, Repr

namespace NumberKind

def join : NumberKind → NumberKind → NumberKind
  | integer, integer => integer
  | _, _ => float

/-- The kind of the result of a binary operator. Truth values are integers. -/
def ofBinary (op : BinaryOperator) (left right : NumberKind) : NumberKind :=
  match op with
  | .add | .subtract | .multiply | .modulo => join left right
  | .divide | .power => float
  | .and | .or | .lessThan | .lessOrEqual | .greaterThan | .greaterOrEqual | .equal | .notEqual =>
    integer

end NumberKind

namespace Node

def kind : Node → List Flags → NumberKind
  | integer _, _ => .integer
  | negate, arguments => (arguments.head?.map Flags.kind).getD .float
  | binary op, [left, right] => .ofBinary op left.kind right.kind
  | _, _ => .float

def isVar : Node → Bool
  | var _ => true
  | _ => false

def ownIdempotence : Node → Bool
  | call _ _ idempotent => idempotent
  | _ => true

/-- The flags of a node from those of its arguments. -/
def flags (node : Node) (arguments : List Flags) : Flags where
  kind := node.kind arguments
  dependsOnVariables := node.isVar || arguments.any Flags.dependsOnVariables
  idempotent := node.ownIdempotence && arguments.all Flags.idempotent

end Node

/-- A tree whose nodes store flags. -/
inductive Operation
  | integer (flags : Flags) (value : Int64)
  | float (flags : Flags) (value : Float)
  | var (flags : Flags) (name : String)
  | negate (flags : Flags) (argument : Operation)
  | binary (flags : Flags) (op : BinaryOperator) (left right : Operation)
  | call (flags : Flags) (name : String) (arguments : List Operation) (idempotent : Bool)

namespace Operation

def flags : Operation → Flags
  | integer flags _ | float flags _ | var flags _ | negate flags _ | binary flags _ _ _
  | call flags _ _ _ => flags

mutual

/-- The tree without what its nodes store. -/
def bare : Operation → Tree
  | integer _ value => .integer value
  | float _ value => .float value
  | var _ name => .var name
  | negate _ argument => .negate argument.bare
  | binary _ op left right => .binary op left.bare right.bare
  | call _ name arguments idempotent => .call name (bareAll arguments) idempotent

def bareAll : List Operation → List Tree
  | [] => []
  | o :: os => o.bare :: bareAll os

end

/-- The flags of a new node come from those that its arguments store. -/
instance : TreeForm Operation where
  integer value := integer ((Node.integer value).flags []) value
  float value := float ((Node.float value).flags []) value
  var name := var ((Node.var name).flags []) name
  negate argument := negate (Node.negate.flags [argument.flags]) argument
  binary op left right := binary ((Node.binary op).flags [left.flags, right.flags]) op left right
  call name arguments idempotent :=
    let node := Node.call name arguments.length idempotent
    call (node.flags (arguments.map flags)) name arguments idempotent
  bare := bare

mutual

/-- The nodes of an operation in post-order with the flags they store, followed by `rest`. -/
def emit : Operation → List (Node × Flags) → List (Node × Flags)
  | integer flags value, rest => (.integer value, flags) :: rest
  | float flags value, rest => (.float value, flags) :: rest
  | var flags name, rest => (.var name, flags) :: rest
  | negate flags argument, rest => argument.emit ((.negate, flags) :: rest)
  | binary flags op left right, rest => left.emit (right.emit ((.binary op, flags) :: rest))
  | call flags name arguments idempotent, rest =>
    emitAll arguments ((.call name arguments.length idempotent, flags) :: rest)

def emitAll : List Operation → List (Node × Flags) → List (Node × Flags)
  | [], rest => rest
  | o :: os, rest => o.emit (emitAll os rest)

end

def flaggedNodes (o : Operation) : List (Node × Flags) := o.emit []

end Operation

namespace Tree

/-- The nodes of a tree in post-order, each with the flags of its subtree. -/
def flaggedNodes (t : Tree) : List (Node × Flags) := (t.made : Operation).flaggedNodes

/-- The flags of a tree, gathered from its nodes. -/
def flags (t : Tree) : Flags :=
  let step (node : Node) (arguments : List Flags) : Id Flags := node.flags arguments
  (runNodes step t.postorder []).run.headD ⟨.float, false, true⟩

end Tree

end FormulaEngine
