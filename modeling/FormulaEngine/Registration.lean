import FormulaEngine.Function

/-!
What can be registered under a name, and why a registration can be refused. A
constant may take the place of any constant that allows it; a function keeps the
number of arguments of the function whose place it takes.
-/
namespace FormulaEngine

inductive RegistrationError
  | notOverwritable (name : String)
  | arityMismatch (name : String) (existing requested : Nat)
  | variadicMismatch (name : String)
  | invalidName (name : String)
  deriving DecidableEq, Repr

def RegistrationError.message : RegistrationError → String
  | notOverwritable name => s!"the name \"{name}\" is already registered and cannot be overwritten"
  | arityMismatch name existing requested =>
    s!"the number of parameters of \"{name}\" cannot change when overwriting it " ++
      s!"(existing: {existing}, requested: {requested})"
  | variadicMismatch name =>
    s!"\"{name}\" cannot switch between a fixed-arity and a variadic function"
  | invalidName name => s!"\"{name}\" is not a valid function or constant name"

/-- Things that are kept in tables by name. -/
class Entry (ε : Type) where
  name : ε → String
  overwritable : ε → Bool
  /-- Why `replacement` cannot take the place of an entry, if it allows any at all. -/
  replacementError? (existing replacement : ε) : Option RegistrationError

structure Constant where
  name : String
  value : Float
  overwritable : Bool

instance : Entry Constant where
  name := Constant.name
  overwritable := Constant.overwritable
  replacementError? _ _ := none

def Signature.replacementError? (existing replacement : Signature) : Option RegistrationError :=
  match existing.arity, replacement.arity with
  | some m, some n => if m = n then none else some (.arityMismatch existing.name m n)
  | none, none => none
  | _, _ => some (.variadicMismatch existing.name)

instance {σ : Type} : Entry (Function σ) where
  name f := f.name
  overwritable f := f.overwritable
  replacementError? existing replacement :=
    existing.toSignature.replacementError? replacement.toSignature

end FormulaEngine
