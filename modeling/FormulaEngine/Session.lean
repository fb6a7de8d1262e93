import FormulaEngine.Description

/-!
Sessions with an engine. A session keeps every formula that was handed out, so that
each can be evaluated at any later time.
-/
namespace FormulaEngine

structure Session (σ : Type) where
  state : EngineState σ
  /-- The formulas handed out so far; the number of a formula is its handle. -/
  formulas : Array (Formula σ)

inductive Request (σ : Type)
  | calculate (formula : String) (bindings : Bindings)
  | build (formula : String)
  | buildWithConstants (formula : String) (constants : Bindings)
  | evaluate (handle : Nat) (bindings : Bindings)
  | parse (formula : String)
  | addFunction (f : Function σ)
  | addConstant (name : String) (value : Float)
  | functionExists (name : String)
  | constantExists (name : String)
  | functions
  | constants
  | cacheContains (key : String)
  | cacheGet (key : String)
  | cacheClear
  | options
  | describe
  | describeFormula (handle : Nat)

inductive Outcome
  | done
  | value (x : Float)
  | handle (number : Nat)
  | tree (t : Tree)
  | truth (b : Bool)
  | functions (signatures : List Signature)
  | constants (entries : List Constant)
  | options (o : Options)
  | text (description : String)
  /-- There is nothing to tell: no cache, no entry in it, or no formula with this handle. -/
  | nothing

variable {σ : Type}

namespace Session

abbrev Answer (σ : Type) := Except CalculationError Outcome × Session σ

def start (state : EngineState σ) : Session σ := ⟨state, #[]⟩

def tell (s : Session σ) (outcome : Outcome) : Answer σ := (.ok outcome, s)

/-- Does something with the engine and tells its result. -/
def perform {α : Type} (s : Session σ) (action : Action σ α) (outcome : α → Outcome) : Answer σ :=
  match action s.state with
  | (.ok result, state) => (.ok (outcome result), { s with state })
  | (.error e, state) => (.error e, { s with state })

def handOut (s : Session σ) (formula : Formula σ) : Answer σ :=
  (.ok (.handle s.formulas.size), { s with formulas := s.formulas.push formula })

/-- Builds a formula and hands it out. -/
def performBuild (s : Session σ) (action : Action σ (Formula σ)) : Answer σ :=
  match action s.state with
  | (.ok formula, state) => { s with state }.handOut formula
  | (.error e, state) => (.error e, { s with state })

def handle (s : Session σ) : Request σ → Answer σ
  | .calculate formula bindings => s.perform (Engine.calculate formula bindings) .value
  | .build formula => s.performBuild (Engine.build formula)
  | .buildWithConstants formula constants =>
    s.performBuild (Engine.buildWithConstants formula constants)
  | .evaluate handle bindings =>
    match s.formulas[handle]? with
    | some formula => s.perform (Engine.evaluate formula bindings) .value
    | none => s.tell .nothing
  | .parse formula => s.perform (Engine.parse formula) .tree
  | .addFunction f => s.perform (Engine.addFunction f) fun () => .done
  | .addConstant name value => s.perform (Engine.addConstant name value) fun () => .done
  | .functionExists name => s.tell (.truth (s.state.engine.functions.contains name))
  | .constantExists name => s.tell (.truth (s.state.engine.constants.contains name))
  | .functions =>
    s.tell (.functions (s.state.engine.functions.entries.map Function.toSignature))
  | .constants => s.tell (.constants s.state.engine.constants.entries)
  | .cacheContains key =>
    match s.state.engine.cache with
    | some cache => s.tell (.truth (cache.contains key))
    | none => s.tell .nothing
  | .cacheGet key =>
    match s.state.cachedFormula? key with
    | (some formula, state) => { s with state }.handOut formula
    | (none, state) => { s with state }.tell .nothing
  | .cacheClear => { s with state := s.state.clearCache }.tell .done
  | .options => s.tell (.options s.state.engine.options)
  | .describe => s.tell (.text s.state.engine.describe)
  | .describeFormula handle =>
    match s.formulas[handle]? with
    | some formula => s.tell (.text formula.describe)
    | none => s.tell .nothing

end Session

end FormulaEngine
