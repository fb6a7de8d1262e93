/-!
The punctuation of a language area: the mark inside a number and the mark between
the arguments of a call.
-/
namespace FormulaEngine

structure Locale where
  decimalSeparator : Char
  argumentSeparator : Char
  deriving DecidableEq, Repr

namespace Locale

def enUs : Locale := ⟨'.', ','⟩

def deDe : Locale := ⟨',', ';'⟩

end Locale

end FormulaEngine
