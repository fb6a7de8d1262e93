import FormulaEngine.Engine
import FormulaEngine.Table.Handles

/-!
Descriptions of functions, constants, tables and engines for diagnostics: the name of
the structure and its fields in braces, and two points for what is left out.
-/
namespace FormulaEngine

/-- A structure with its fields in braces. -/
def describeFields (name : String) (fields : List String) : String :=
  name ++ " \x7b " ++ String.intercalate ", " fields ++ " \x7d"

namespace Signature

def describeArity (f : Signature) : String :=
  match f.arity with
  | some n => describeFields "Fixed" [s!"arity: {n}"]
  | none => "Variadic"

def describe (f : Signature) : String :=
  describeFields "FunctionInfo"
    ["name: " ++ Text.quotedName f.name, "callable: " ++ f.describeArity,
      s!"is_idempotent: {f.idempotent}", s!"is_overwritable: {f.overwritable}"]

end Signature

def Constant.describe (c : Constant) : String :=
  describeFields "ConstantInfo"
    ["name: " ++ Text.quotedName c.name,
      "value: " ++ String.ofList (Decimal.Notation.literal.text c.value),
      s!"is_overwritable: {c.overwritable}"]

def Table.describe {ε : Type} [Entry ε] (t : Table ε) : String :=
  describeFields "Registry"
    [s!"case_sensitive: {t.caseSensitive}",
      "names: [" ++ String.intercalate ", " (t.names.map Text.quotedName) ++ "]"]

def Shelf.describe? {ε : Type} [Entry ε] (s : Shelf ε) (handle : Nat) : Option String := do
  let text := (← s.table? handle).describe
  pure (if (← s.handles[handle]?).readOnly then "ReadOnlyRegistry(" ++ text ++ ")" else text)

def Cache.describe {α : Type} (c : Cache α) : String :=
  describeFields "FormulaCache"
    [s!"maximum_size: {c.maximum}", s!"reduction_size: {c.reduction}", ".."]

def Locale.describe (l : Locale) : String :=
  describeFields "LocaleConfig"
    ["decimal_separator: " ++ Text.quotedChar l.decimalSeparator,
      "argument_separator: " ++ Text.quotedChar l.argumentSeparator]

def Options.describe (o : Options) : String :=
  describeFields "EngineOptions"
    ["locale: " ++ o.locale.describe, "execution_mode: " ++ o.executionMode.name,
      s!"cache_enabled: {o.cacheEnabled}", s!"cache_maximum_size: {o.cacheMaximumSize}",
      s!"cache_reduction_size: {o.cacheReductionSize}",
      s!"optimizer_enabled: {o.optimizerEnabled}", s!"case_sensitive: {o.caseSensitive}",
      s!"default_functions: {o.defaultFunctions}", s!"default_constants: {o.defaultConstants}",
      "random_seed: " ++ match o.randomSeed with
        | some seed => s!"Some({seed.toNat})"
        | none => "None"]

def Formula.describe {σ : Type} (f : Formula σ) : String :=
  describeFields "Formula" [s!"case_sensitive: {f.caseSensitive}", ".."]

def Engine.describe {σ : Type} (e : Engine σ) : String :=
  describeFields "CalculationEngine"
    ["options: " ++ e.options.describe, s!"functions: {e.functions.size}",
      s!"constants: {e.constants.size}",
      "cache: " ++ match e.cache with
        | some cache => "Some(" ++ cache.describe ++ ")"
        | none => "None",
      ".."]

end FormulaEngine
