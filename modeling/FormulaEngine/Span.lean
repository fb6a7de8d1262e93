/-!
Stretches of a formula text, from a first character up to but not including a last
one, counted in characters.
-/
namespace FormulaEngine

structure Span where
  start : Nat
  stop : Nat
  deriving DecidableEq, Repr

namespace Span

def point (position : Nat) : Span := ⟨position, position + 1⟩

/-- The shortest stretch that holds both. -/
def cover (a b : Span) : Span := ⟨min a.start b.start, max a.stop b.stop⟩

end Span

end FormulaEngine
