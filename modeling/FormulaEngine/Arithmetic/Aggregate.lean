import FormulaEngine.Binary64

/-!
Functions of any number of numbers. Extremes leave out what is not a number while
there is anything else. The median sorts the words of doubles by their total order,
in which every two different words differ, also those of two NaNs.
-/
namespace FormulaEngine.Arithmetic

open Binary64

def larger (x y : Float) : Float :=
  if x.isNaN then y else if y.isNaN then x else if x < y then y else x

def smaller (x y : Float) : Float :=
  if x.isNaN then y else if y.isNaN then x else if y < x then y else x

/-- Combines the elements of a list from the left; of no elements there is no number. -/
def reduce (combine : Float → Float → Float) : List Float → Float
  | [] => nan
  | x :: xs => xs.foldl combine x

def maximum (xs : List Float) : Float := reduce larger xs

def minimum (xs : List Float) : Float := reduce smaller xs

/-- Addition from the left, starting with negative zero, which changes no summand. -/
def sum (xs : List Float) : Float := xs.foldl (· + ·) (-0.0)

def average (xs : List Float) : Float :=
  if xs.isEmpty then nan else sum xs / Float.ofNat xs.length

/-- The place of a word in the total order of the doubles that words stand for: those with the sign
come first, by descending magnitude, then the others by ascending magnitude. A NaN has a magnitude
like any other word, beyond that of the infinities. -/
def orderKey (word : UInt64) : Int :=
  if 2 ^ 63 ≤ word.toNat then 2 ^ 63 - 1 - (word.toNat : Int) else word.toNat

def sorted (words : List UInt64) : List UInt64 :=
  words.mergeSort fun v w => orderKey v ≤ orderKey w

/-- Addition and division as they act on the words of doubles. Which NaN comes out, where one does,
is left to the machine. -/
structure WordArithmetic where
  add : UInt64 → UInt64 → UInt64
  divide : UInt64 → UInt64 → UInt64

/-- The arithmetic of doubles with a single NaN. -/
def WordArithmetic.standard : WordArithmetic where
  add v w := (Float.ofBits v + Float.ofBits w).toBits
  divide v w := (Float.ofBits v / Float.ofBits w).toBits

/-- The middle word, or half the sum of the two middle ones. -/
def medianWord (arithmetic : WordArithmetic) (words : List UInt64) : UInt64 :=
  let ascending := sorted words
  let middle := ascending.length / 2
  if ascending.isEmpty then nan.toBits
  else if ascending.length % 2 = 1 then ascending.getD middle nan.toBits
  else
    let sum := arithmetic.add (ascending.getD (middle - 1) nan.toBits)
      (ascending.getD middle nan.toBits)
    arithmetic.divide sum (2 : Float).toBits

/-- The median of doubles that are computed with. Only one of them is a NaN, and its word lacks
the sign. -/
def median (xs : List Float) : Float :=
  Float.ofBits (medianWord .standard (xs.map Float.toBits))

end FormulaEngine.Arithmetic
