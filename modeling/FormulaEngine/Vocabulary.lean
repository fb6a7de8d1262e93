import FormulaEngine.Table

/-!
The names that a formula may use with a meaning of their own. A name is a function
if there is one, else a constant if there is one, else a variable.
-/
namespace FormulaEngine

structure Vocabulary where
  function? : String → Option Signature
  constant? : String → Option Float
  /-- Whether variables keep the letter case in which they are written. -/
  caseSensitive : Bool

namespace Vocabulary

def ofTables {σ : Type} (functions : Table (Function σ)) (constants : Table Constant)
    (caseSensitive : Bool) : Vocabulary where
  function? name := (functions.get? name).map Function.toSignature
  constant? name := (constants.get? name).map Constant.value
  caseSensitive := caseSensitive

def variableName (v : Vocabulary) (name : String) : String := Text.nameKey v.caseSensitive name

end Vocabulary

end FormulaEngine
