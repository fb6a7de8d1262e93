/-!
Blocks of the ChaCha stream cipher with twelve rounds: sixteen words that a key of
eight words and the number of the block determine.
-/
-- Powers are those of the core library, whatever else is imported.
attribute [default_instance 20000] instPowNat

namespace FormulaEngine.ChaCha

def rotateLeft (x : UInt32) (count : UInt32) : UInt32 :=
  (x <<< count) ||| (x >>> (32 - count))

/-- Stirs four words of a block, given by their places. -/
def quarterRound (words : Array UInt32) (places : Nat × Nat × Nat × Nat) : Array UInt32 :=
  let (i, j, k, l) := places
  let a := words.getD i 0
  let b := words.getD j 0
  let c := words.getD k 0
  let d := words.getD l 0
  let a := a + b
  let d := rotateLeft (d ^^^ a) 16
  let c := c + d
  let b := rotateLeft (b ^^^ c) 12
  let a := a + b
  let d := rotateLeft (d ^^^ a) 8
  let c := c + d
  let b := rotateLeft (b ^^^ c) 7
  (((words.setIfInBounds i a).setIfInBounds j b).setIfInBounds k c).setIfInBounds l d

/-- The columns of the block and then its diagonals. -/
def doubleRoundPlaces : List (Nat × Nat × Nat × Nat) :=
  [(0, 4, 8, 12), (1, 5, 9, 13), (2, 6, 10, 14), (3, 7, 11, 15),
    (0, 5, 10, 15), (1, 6, 11, 12), (2, 7, 8, 13), (3, 4, 9, 14)]

def doubleRound (words : Array UInt32) : Array UInt32 := doubleRoundPlaces.foldl quarterRound words

def doubleRounds : Nat → Array UInt32 → Array UInt32
  | 0, words => words
  | count + 1, words => doubleRounds count (doubleRound words)

/-- The constant that fills the first row of every block. -/
def header : List UInt32 := [0x61707865, 0x3320646e, 0x79622d32, 0x6b206574]

def initial (key : List UInt32) (number : Nat) : Array UInt32 :=
  (header ++ key ++ [UInt32.ofNat number, UInt32.ofNat (number / 2 ^ 32), 0, 0]).toArray

def block (key : List UInt32) (number : Nat) : Array UInt32 :=
  let words := initial key number
  (words.zip (doubleRounds 6 words)).map fun (x, y) => x + y

end FormulaEngine.ChaCha
