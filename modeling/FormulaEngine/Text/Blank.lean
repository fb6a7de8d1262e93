/-!
Blank characters: the white space of Unicode, which separates tokens and never
belongs to one. A text of nothing but blanks holds no formula.
-/
namespace FormulaEngine.Text

/-- The code points with the property White_Space, as inclusive ranges in ascending order. -/
def blankRanges : List (Nat × Nat) :=
  [(0x9, 0xd), (0x20, 0x20), (0x85, 0x85), (0xa0, 0xa0), (0x1680, 0x1680), (0x2000, 0x200a),
    (0x2028, 0x2029), (0x202f, 0x202f), (0x205f, 0x205f), (0x3000, 0x3000)]

def isBlank (c : Char) : Bool :=
  blankRanges.any fun range => range.1 ≤ c.toNat && c.toNat ≤ range.2

def isBlankText (text : List Char) : Bool := text.all isBlank

example : (blankRanges.map fun range => range.2 + 1 - range.1).sum = 25 := by decide

end FormulaEngine.Text
