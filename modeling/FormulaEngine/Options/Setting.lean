import FormulaEngine.Options

/-!
Options from a record of settings. What is missing keeps its default and what is
unknown is ignored; a setting of the wrong form makes the whole record unreadable.
A record may also be written as the list of its fields in their order.
-/
namespace FormulaEngine

inductive Setting
  | null
  | flag (value : Bool)
  | natural (value : Nat)
  | text (value : String)
  | list (items : List Setting)
  | record (fields : List (String × Setting))
  /-- Anything that is no setting at all: a fraction or a negative number. -/
  | other
  deriving Inhabited

namespace Setting

def flag? : Setting → Option Bool
  | flag value => some value
  | _ => none

/-- A number of at most 64 bits. -/
def word? : Setting → Option Nat
  | natural value => if value < 2 ^ 64 then some value else none
  | _ => none

def seed? : Setting → Option (Option UInt64)
  | null => some none
  | s => s.word?.map fun value => some (UInt64.ofNat value)

def char? : Setting → Option Char
  | text value =>
    match value.toList with
    | [c] => some c
    | _ => none
  | _ => none

/-- The fields of a record with the given names. A list gives them in order; it may end early but
not go on. -/
def fields? (names : List String) : Setting → Option (List (String × Setting))
  | record fields => some fields
  | list items => if items.length ≤ names.length then some (names.zip items) else none
  | _ => none

def localeFields : List String := ["decimal_separator", "argument_separator"]

/-- A locale, of which nothing may be missing. -/
def locale? (s : Setting) : Option Locale := do
  let fields ← s.fields? localeFields
  let decimal ← (← fields.lookup "decimal_separator").char?
  let argument ← (← fields.lookup "argument_separator").char?
  pure ⟨decimal, argument⟩

def executionModeOfName? : String → Option ExecutionMode
  | "compiled" => some .compiled
  | "interpreted" => some .interpreted
  | _ => none

/-- An execution mode by its name, or as a record in which its name has no value. -/
def executionMode? : Setting → Option ExecutionMode
  | text name => executionModeOfName? name
  | record [(name, null)] => executionModeOfName? name
  | _ => none

/-- A field of a record, or its default if it is missing. -/
def fieldD {α : Type} (fields : List (String × Setting)) (name : String)
    (read? : Setting → Option α) (default : α) : Option α :=
  match fields.lookup name with
  | none => some default
  | some s => read? s

def optionFields : List String :=
  ["locale", "execution_mode", "cache_enabled", "cache_maximum_size", "cache_reduction_size",
    "optimizer_enabled", "case_sensitive", "default_functions", "default_constants", "random_seed"]

def options? (s : Setting) : Option Options := do
  let fields ← s.fields? optionFields
  let d : Options := {}
  pure {
    locale := ← fieldD fields "locale" locale? d.locale
    executionMode := ← fieldD fields "execution_mode" executionMode? d.executionMode
    cacheEnabled := ← fieldD fields "cache_enabled" flag? d.cacheEnabled
    cacheMaximumSize := ← fieldD fields "cache_maximum_size" word? d.cacheMaximumSize
    cacheReductionSize := ← fieldD fields "cache_reduction_size" word? d.cacheReductionSize
    optimizerEnabled := ← fieldD fields "optimizer_enabled" flag? d.optimizerEnabled
    caseSensitive := ← fieldD fields "case_sensitive" flag? d.caseSensitive
    defaultFunctions := ← fieldD fields "default_functions" flag? d.defaultFunctions
    defaultConstants := ← fieldD fields "default_constants" flag? d.defaultConstants
    randomSeed := ← fieldD fields "random_seed" seed? d.randomSeed }

end Setting

end FormulaEngine
