import FormulaEngine.Evaluator

/-!
Folding of what is known when a formula is built. A node whose operands are literals
becomes the literal of its value; a call only if it is marked idempotent and its
function can never be overwritten. A product with a literal zero becomes zero,
whatever the other factor is.
-/
namespace FormulaEngine

/-- A subtree that gave way to a literal. -/
inductive Replacement
  | folded (node : Tree) (value : Float)
  | zeroProduct

structure FoldingState (σ : Type) where
  calls : CallState σ
  /-- The replacements made so far, the latest first. -/
  replacements : List Replacement

abbrev Folding (σ : Type) := ExceptT EvaluationError (StateM (FoldingState σ))

variable {σ : Type}

def Evaluation.duringFolding {α : Type} (computation : Evaluation σ α) : Folding σ α :=
  fun s => let result := computation s.calls; (result.1, { s with calls := result.2 })

def noteReplacement (replacement : Replacement) : Folding σ Unit :=
  modify fun s => { s with replacements := replacement :: s.replacements }

namespace Tree

def isProtected (functions : Table (Function σ)) (name : String) : Bool :=
  (functions.get? name).any fun f => !f.overwritable

/-- Whether the value of a node follows from its operands, which are folded already. -/
def isFoldable (functions : Table (Function σ)) : Tree → Bool
  | negate argument => argument.isLiteral
  | binary _ left right => left.isLiteral && right.isLiteral
  | call name arguments idempotent =>
    idempotent && arguments.all isLiteral && isProtected functions name
  | _ => false

def isZero (t : Tree) : Bool := t.literal?.any (· == 0)

def isZeroProduct : Tree → Bool
  | binary .multiply left right => left.isZero || right.isZero
  | _ => false

end Tree

namespace TreeForm

variable {τ : Type} [TreeForm τ]

/-- Folds a node with folded arguments. -/
def foldNode (mode : ExecutionMode) (functions : Table (Function σ)) (constants : Table Constant)
    (node : Node) (arguments : List τ) : Folding σ τ :=
  let made := (node.build? arguments).getD (float Binary64.nan)
  let t := bare made
  if t.isFoldable functions then do
    let value ← (mode.execute t ⟨functions, constants, []⟩).duringFolding
    noteReplacement (.folded t value)
    pure (float value)
  else if t.isZeroProduct then do
    noteReplacement .zeroProduct
    pure (float 0)
  else pure made

/-- A tree with everything folded that can be; `mode` tells how values are computed. The tree is
taken apart into its nodes, and what is left of it is made anew. -/
def fold (mode : ExecutionMode) (functions : Table (Function σ)) (constants : Table Constant)
    (t : τ) : Folding σ τ := do
  let stack ← Tree.runNodes (foldNode mode functions constants) (bare t).postorder []
  pure (stack.headD (float Binary64.nan))

end TreeForm

namespace Tree

def foldNode (mode : ExecutionMode) (functions : Table (Function σ)) (constants : Table Constant)
    (node : Node) (arguments : List Tree) : Folding σ Tree :=
  TreeForm.foldNode mode functions constants node arguments

def fold (mode : ExecutionMode) (functions : Table (Function σ)) (constants : Table Constant)
    (t : Tree) : Folding σ Tree :=
  TreeForm.fold mode functions constants t

theorem foldNode_eq (mode : ExecutionMode) (functions : Table (Function σ))
    (constants : Table Constant) {node : Node} {arguments : List Tree} {t : Tree}
    (h : node.build? arguments = some t) :
    foldNode mode functions constants node arguments =
      if t.isFoldable functions then do
        let value ← (mode.execute t ⟨functions, constants, []⟩).duringFolding
        noteReplacement (.folded t value)
        pure (.float value)
      else if t.isZeroProduct then do
        noteReplacement .zeroProduct
        pure (.float 0)
      else pure t := by
  rw [foldNode, TreeForm.foldNode, h]
  rfl

theorem fold_eq (mode : ExecutionMode) (functions : Table (Function σ))
    (constants : Table Constant) (t : Tree) :
    t.fold mode functions constants = (do
      let stack ← runNodes (foldNode mode functions constants) t.postorder []
      pure (stack.headD (.float Binary64.nan))) := rfl

end Tree

end FormulaEngine
