import FormulaEngine.Random.ChaCha

/-!
Pseudo-random numbers. A seed is stretched into a key by a congruential generator
with a permuted output; two words of the cipher stream under that key make 64 bits,
of which the upper 53 become a number from zero up to but not including one.
-/
namespace FormulaEngine

/-- A generator after some draws. -/
structure Generator where
  key : List UInt32
  drawn : Nat
  deriving DecidableEq, Repr

namespace Generator

def advance (state : UInt64) : UInt64 := state * 6364136223846793005 + 11634580027462260723

def rotateRight (x : UInt32) (count : UInt32) : UInt32 :=
  (x >>> count) ||| (x <<< (32 - count))

/-- The output of the congruential generator in a state. -/
def output (state : UInt64) : UInt32 :=
  rotateRight (((state >>> 18) ^^^ state) >>> 27).toUInt32 (state >>> 59).toUInt32

/-- The outputs of the states that follow. -/
def outputs : Nat → UInt64 → List UInt32
  | 0, _ => []
  | count + 1, state => output (advance state) :: outputs count (advance state)

def ofSeed (seed : UInt64) : Generator := ⟨outputs 8 seed, 0⟩

/-- The 64 bits of a draw; a block serves eight draws. -/
def bits (key : List UInt32) (draw : Nat) : Nat :=
  let words := ChaCha.block key (draw / 8)
  let low := words.getD (2 * (draw % 8)) 0
  let high := words.getD (2 * (draw % 8) + 1) 0
  high.toNat * 2 ^ 32 + low.toNat

/-- The next number and the generator that draws the numbers after it. -/
def next (g : Generator) : Float × Generator :=
  let upper := bits g.key g.drawn / 2 ^ 11
  (Float.ofNat upper / Float.ofNat (2 ^ 53), { g with drawn := g.drawn + 1 })

/-- The next numbers, in the order in which they are drawn. -/
def draw : Nat → Generator → List Float
  | 0, _ => []
  | count + 1, g => g.next.1 :: draw count g.next.2

end Generator

end FormulaEngine
