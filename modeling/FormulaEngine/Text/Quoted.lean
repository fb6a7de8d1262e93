import FormulaEngine.Text.GraphemeExtend
import FormulaEngine.Text.Unprintable

/-!
Characters and names in quotes, as diagnostics show them. A character that could be
misread, because it is the quote itself, controls the terminal, joins its neighbour
or leaves no mark, is written as an escape.
-/
namespace FormulaEngine.Text

/-- An escape by code point: `\u` and the hexadecimal digits in braces. -/
def codePointEscape (c : Char) : List Char :=
  ['\\', 'u', '\x7b'] ++ Nat.toDigits 16 c.toNat ++ ['\x7d']

/-- The escape of a character that has a short one inside the given kind of quotes. -/
def shortEscape? (quote c : Char) : Option (List Char) :=
  if c = '\x00' then some ['\\', '0']
  else if c = '\t' then some ['\\', 't']
  else if c = '\n' then some ['\\', 'n']
  else if c = '\r' then some ['\\', 'r']
  else if c = '\\' ∨ c = quote then some ['\\', c]
  else none

def escape (quote c : Char) : List Char :=
  match shortEscape? quote c with
  | some text => text
  | none => if isCombining c || isUnprintable c then codePointEscape c else [c]

def quotedChar (c : Char) : String :=
  String.ofList ('\'' :: escape '\'' c ++ ['\''])

def quotedName (name : String) : String :=
  String.ofList ('"' :: name.toList.flatMap (escape '"') ++ ['"'])

example : quotedChar ',' = "','" := by decide +kernel
example : quotedChar '"' = "'\"'" := by decide +kernel
example : quotedChar '\'' = "'\\''" := by cbv

end FormulaEngine.Text
