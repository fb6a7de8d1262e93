import FormulaEngine.Evaluation
import FormulaEngine.Options
import FormulaEngine.ParseError

/-!
Why an engine refuses a request.
-/
namespace FormulaEngine

inductive CalculationError
  | parse (error : ParseError)
  | registration (error : RegistrationError)
  | evaluation (error : EvaluationError)
  | reservedConstantName (name : String)
  | functionNameAsVariable (name : String)
  | emptyFormula
  | invalidOptions (error : OptionsError)

def CalculationError.message : CalculationError → String
  | parse error => error.message
  | registration error => error.message
  | evaluation error => error.message
  | reservedConstantName name =>
    s!"the name \"{name}\" is a reserved constant name that cannot be overwritten"
  | functionNameAsVariable name =>
    s!"the name \"{name}\" is a function name; variables cannot have this name"
  | emptyFormula => "the formula text is empty"
  | invalidOptions error => "invalid engine options: " ++ error.message

end FormulaEngine
