import FormulaEngine.Decimal.Notation
import FormulaEngine.Tree

/-!
Trees as formula text. Every operation stands in brackets, so the text shows how the
formula groups; a number without a literal of its own is written as a quotient.
-/
namespace FormulaEngine

open Decimal

def floatText (x : Float) : List Char :=
  if x.isNaN then "(0.0 / 0.0)".toList
  else if x.isInf then
    if 0 < x then "(1.0 / 0.0)".toList else "-(1.0 / 0.0)".toList
  else Notation.literal.text x

namespace Tree

mutual

/-- The text of a tree, followed by `rest`. -/
def print : Tree → List Char → List Char
  | integer value, rest => Notation.integerText value.toInt ++ rest
  | float value, rest => floatText value ++ rest
  | var name, rest => name.toList ++ rest
  | negate argument, rest => '-' :: '(' :: argument.print (')' :: rest)
  | binary op left right, rest =>
    '(' :: left.print
      (' ' :: op.spelling.toList ++ ' ' :: right.print (')' :: rest))
  | call name arguments _, rest =>
    name.toList ++ '(' :: printArguments arguments (')' :: rest)

/-- Arguments with a comma and a blank between them. -/
def printArguments : List Tree → List Char → List Char
  | [], rest => rest
  | [t], rest => t.print rest
  | t :: ts, rest => t.print (',' :: ' ' :: printArguments ts rest)

end

def text (t : Tree) : String := String.ofList (t.print [])

end Tree

end FormulaEngine
