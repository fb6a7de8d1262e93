import FormulaEngine.Builtin
import FormulaEngine.CalculationError
import FormulaEngine.Event
import FormulaEngine.Text.Blank
import FormulaEngine.Tree.Assembly

/-!
The engine: tables of functions and constants, and the formulas built from them.
Constants become literals when a formula is built, functions are called as they are
when it is evaluated. So a new constant or a new function name empties the cache of
built formulas, while a function that takes the place of another leaves it alone.
-/
namespace FormulaEngine

/-- A built formula. -/
structure Formula (σ : Type) where
  evaluator : Evaluator σ
  /-- The constants it was built with, if they are not those of the engine. -/
  ownConstants : Option (Table Constant)
  caseSensitive : Bool

structure Engine (σ : Type) where
  options : Options
  functions : Table (Function σ)
  constants : Table Constant
  cache : Option (Cache (Formula σ))

/-- An engine with what its functions see, and what it reported so far, the latest first. -/
structure EngineState (σ : Type) where
  engine : Engine σ
  calls : CallState σ
  events : List Event

variable {σ : Type}

namespace EngineState

/-- Adds to the report. -/
def report (s : EngineState σ) (events : List Event) : EngineState σ :=
  { s with events := events.reverse ++ s.events }

def withCache (s : EngineState σ) (cache : Cache (Formula σ)) : EngineState σ :=
  { s with engine := { s.engine with cache := some cache } }

/-- Forgets all built formulas. -/
def clearCache (s : EngineState σ) : EngineState σ :=
  match s.engine.cache with
  | none => s
  | some cache => (s.report cache.clearingEvents).withCache cache.clear

/-- The cached formula of a key, which becomes the most recently used. -/
def cachedFormula? (s : EngineState σ) (key : String) : Option (Formula σ) × EngineState σ :=
  match s.engine.cache with
  | none => (none, s)
  | some cache => let found := cache.get key; (found.1, s.withCache found.2)

end EngineState

/-- What an engine does on request: a result or a complaint, and the state after it. -/
abbrev Action (σ α : Type) := EngineState σ → Except CalculationError α × EngineState σ

namespace Engine

def normalize (e : Engine σ) (bindings : Bindings) : Bindings :=
  bindings.map fun (name, value) => (Text.nameKey e.options.caseSensitive name, value)

/-- The complaint about the first binding that is found whose name belongs to a protected constant or
to a function. -/
def nameError? (e : Engine σ) (bindings : Bindings) : Option CalculationError :=
  bindings.findSome? fun (name, _) =>
    if (e.constants.get? name).any fun constant => !constant.overwritable then
      some (.reservedConstantName name)
    else if e.functions.contains name then some (.functionNameAsVariable name)
    else none

/-- The names that a formula may use, with the given constants. -/
def vocabulary (e : Engine σ) (constants : Table Constant) : Vocabulary :=
  .ofTables e.functions constants e.options.caseSensitive

/-- Folds a tree and reports the replacements. -/
def foldTree (tree : Tree) (constants : Table Constant) : Action σ Tree := fun s =>
  let folding := tree.fold .interpreted s.engine.functions constants
  let (result, final) := folding.run ⟨s.calls, []⟩
  let s := { s with calls := final.calls }
  let s := s.report (final.replacements.reverse.map Event.ofReplacement)
  (result.mapError .evaluation, s)

/-- The tree of a formula with the given constants, folded if the engine does so. -/
def parseWith (formula : String) (constants : Table Constant) : Action σ Tree := fun s =>
  match Tree.parse s.engine.options.locale (s.engine.vocabulary constants) formula with
  | .error e => (.error (.parse e), s)
  | .ok tree =>
    if s.engine.options.optimizerEnabled then foldTree tree constants s else (.ok tree, s)

def parse (formula : String) : Action σ Tree := fun s => parseWith formula s.engine.constants s

/-- Builds a formula, with constants of its own if there are any. -/
def createFormula (formula : String) (ownConstants : Option (Table Constant)) :
    Action σ (Formula σ) := fun s =>
  match parseWith formula (ownConstants.getD s.engine.constants) s with
  | (.error e, s) => (.error e, s)
  | (.ok tree, s) =>
    let evaluator := s.engine.options.executionMode.prepare tree s.engine.functions
    (.ok ⟨evaluator, ownConstants, s.engine.options.caseSensitive⟩, s.report [.built formula tree])

/-- The cached formula of a key, or the one that `create` builds, which is cached then. -/
def throughCache (key : String) (create : Action σ (Formula σ)) : Action σ (Formula σ) := fun s =>
  match s.engine.cache with
  | none => create s
  | some cache =>
    let missed := if cache.contains key then s else s.report [.cacheMiss key]
    match cache.getOrCreate key create missed with
    | (.ok formula, updated, s) =>
      (.ok formula, (s.report (cache.insertionEvents key)).withCache updated)
    | (.error e, _, s) => (.error e, s)

def build (formula : String) : Action σ (Formula σ) := fun s =>
  if Text.isBlankText formula.toList then (.error .emptyFormula, s)
  else throughCache formula (createFormula formula none) s

/-- The cache key of a formula with constants of its own: `formula@name:value,…` -/
def constantsKey (formula : String) (constants : Bindings) : String :=
  let pairs := constants.map fun (name, value) =>
    name ++ ":" ++ String.ofList (Decimal.Notation.plain.text value)
  formula ++ "@" ++ String.intercalate "," pairs

/-- Builds a formula with a copy of the constants of the engine to which others are added. -/
def createWithConstants (formula : String) (constants : Bindings) : Action σ (Formula σ) := fun s =>
  let entries := constants.map fun (name, value) => Constant.mk name value true
  match s.engine.constants.registerAll entries with
  | (events, _, .error e) => (.error (.registration e), s.report events)
  | (events, table, .ok ()) => createFormula formula (some table) (s.report events)

/-- Builds a formula in which the given constants hide constants of the engine that can be
overwritten. -/
def buildWithConstants (formula : String) (constants : Bindings) : Action σ (Formula σ) := fun s =>
  let ordered := constants.mergeSort fun a b => a.1 ≤ b.1
  if constants.isEmpty then build formula s
  else if Text.isBlankText formula.toList then (.error .emptyFormula, s)
  else throughCache (constantsKey formula ordered) (createWithConstants formula ordered) s

/-- Evaluates a formula with bindings whose names are normalized. -/
def evaluateNormalized (formula : Formula σ) (bindings : Bindings) : Action σ Float := fun s =>
  let constants := formula.ownConstants.getD s.engine.constants
  let (result, calls) :=
    (formula.evaluator.evaluate ⟨s.engine.functions, constants, bindings⟩).run s.calls
  (result.mapError .evaluation, { s with calls })

def evaluate (formula : Formula σ) (bindings : Bindings) : Action σ Float := fun s =>
  evaluateNormalized formula (s.engine.normalize bindings) s

/-- Builds a formula and evaluates it at once. The names of bindings are checked first. -/
def calculate (formula : String) (bindings : Bindings) : Action σ Float := fun s =>
  let bindings := s.engine.normalize bindings
  if Text.isBlankText formula.toList then (.error .emptyFormula, s)
  else
    match s.engine.nameError? bindings with
    | some e => (.error e, s)
    | none =>
      match build formula s with
      | (.error e, s) => (.error e, s)
      | (.ok built, s) => evaluateNormalized built bindings s

/-- A built formula may have taken a new name for a variable, so it cannot be kept. -/
def addFunction (f : Function σ) : Action σ Unit := fun s =>
  let reported := s.report (s.engine.functions.registrationEvents f)
  match s.engine.functions.register f with
  | .error e => (.error (.registration e), reported)
  | .ok (replaced, functions) =>
    let s := { reported with engine := { s.engine with functions } }
    (.ok (), if replaced then s else s.clearCache)

/-- Every built formula may hold the old value of the constant. -/
def addConstant (name : String) (value : Float) : Action σ Unit := fun s =>
  let constant : Constant := ⟨name, value, true⟩
  let reported := s.report (s.engine.constants.registrationEvents constant)
  match s.engine.constants.register constant with
  | .error e => (.error (.registration e), reported)
  | .ok (_, constants) =>
    (.ok (), { reported with engine := { s.engine with constants } }.clearCache)

end Engine

namespace EngineState

/-- A new engine over a host memory, and its report. -/
def start (options : Options) (memory : σ) (generator : Generator) :
    Except CalculationError (EngineState σ) :=
  match options.validate with
  | .error e => .error (.invalidOptions e)
  | .ok () =>
    let (functionEvents, functions, _) :=
      (Table.empty options.caseSensitive).registerAll
        (if options.defaultFunctions then Builtin.functions else [])
    let (constantEvents, constants, _) :=
      (Table.empty options.caseSensitive).registerAll
        (if options.defaultConstants then Builtin.constants else [])
    let cache := if options.cacheEnabled then
      some (Cache.empty options.cacheMaximumSize options.cacheReductionSize) else none
    let events := functionEvents ++ constantEvents ++
      [.ready options functions.size constants.size]
    .ok ⟨⟨options, functions, constants, cache⟩, ⟨memory, generator, []⟩, events.reverse⟩

end EngineState

end FormulaEngine
