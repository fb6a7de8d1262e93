import FormulaEngine.Random.Generator
import FormulaEngine.Signature

/-!
Functions and what calling them changes. The body of a function computes its result
from the arguments alone, draws a random number, or is provided by the host with a
memory of its own. Every call is noted.
-/
namespace FormulaEngine

inductive Body (σ : Type)
  | pure (compute : List Float → Float)
  | random
  | host (run : List Float → σ → Float × σ)

/-- A function over a host memory of type `σ`. -/
structure Function (σ : Type) extends Signature where
  body : Body σ

def Body.isHost {σ : Type} : Body σ → Bool
  | host _ => true
  | _ => false

/-- A call that was made. -/
structure Call where
  callee : Signature
  isHost : Bool
  arguments : List Float

/-- What calls can see and change. -/
structure CallState (σ : Type) where
  memory : σ
  generator : Generator
  /-- The calls made so far, the latest first. -/
  calls : List Call

namespace Function

variable {σ : Type}

def run (f : Function σ) (arguments : List Float) (s : CallState σ) : Float × CallState σ :=
  match f.body with
  | .pure compute => (compute arguments, s)
  | .random =>
    let drawn := s.generator.next
    (drawn.1, { s with generator := drawn.2 })
  | .host run =>
    let result := run arguments s.memory
    (result.1, { s with memory := result.2 })

/-- Calls a function and notes the call. -/
def invoke (f : Function σ) (arguments : List Float) (s : CallState σ) : Float × CallState σ :=
  f.run arguments { s with calls := ⟨f.toSignature, f.body.isHost, arguments⟩ :: s.calls }

end Function

end FormulaEngine
