/-!
What is known of a function without calling it.
-/
namespace FormulaEngine

structure Signature where
  name : String
  /-- The number of arguments; absent if any number will do. -/
  arity : Option Nat
  /-- Whether equal arguments always give equal results. -/
  idempotent : Bool
  /-- Whether another function may take its place. -/
  overwritable : Bool
  deriving DecidableEq, Repr

namespace Signature

def isVariadic (f : Signature) : Bool := f.arity.isNone

/-- Whether a call with this number of arguments fits. -/
def accepts (f : Signature) (argumentCount : Nat) : Bool :=
  f.arity.all fun arity => argumentCount == arity

end Signature

end FormulaEngine
