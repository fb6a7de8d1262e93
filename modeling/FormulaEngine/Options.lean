import FormulaEngine.Evaluator
import FormulaEngine.Locale
import FormulaEngine.Random.Generator
import FormulaEngine.Text.Quoted

/-!
How an engine is set up, and which settings make sense together.
-/
namespace FormulaEngine

structure Options where
  locale : Locale := .enUs
  executionMode : ExecutionMode := .compiled
  cacheEnabled : Bool := true
  /-- The number of formulas kept. -/
  cacheMaximumSize : Nat := 500
  /-- The number of formulas that give way when there are too many. -/
  cacheReductionSize : Nat := 50
  optimizerEnabled : Bool := true
  caseSensitive : Bool := false
  defaultFunctions : Bool := true
  defaultConstants : Bool := true
  randomSeed : Option UInt64 := none
  deriving DecidableEq, Repr

inductive OptionsError
  | zeroMaximum
  | reductionOutOfRange (maximum : Nat)
  | sameSeparators (c : Char)
  deriving DecidableEq, Repr

def OptionsError.message : OptionsError → String
  | zeroMaximum => "cache_maximum_size must be greater than zero"
  | reductionOutOfRange maximum => s!"cache_reduction_size must be between 1 and {maximum}"
  | sameSeparators c => "decimal and argument separator are both " ++ Text.quotedChar c

namespace Options

/-- The sizes count even if there is no cache. -/
def validate (o : Options) : Except OptionsError Unit :=
  if o.cacheMaximumSize = 0 then .error .zeroMaximum
  else if o.cacheReductionSize = 0 ∨ o.cacheMaximumSize < o.cacheReductionSize then
    .error (.reductionOutOfRange o.cacheMaximumSize)
  else if o.locale.decimalSeparator = o.locale.argumentSeparator then
    .error (.sameSeparators o.locale.decimalSeparator)
  else .ok ()

/-- The generator that the options ask for. -/
def generator? (o : Options) : Option Generator := o.randomSeed.map Generator.ofSeed

end Options

end FormulaEngine
