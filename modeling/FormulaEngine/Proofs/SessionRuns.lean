import FormulaEngine.Proofs.FunctionArities
import FormulaEngine.Session

/-!
Whole sessions: a new engine, and one request after another, each handled in the state that those
before it have left.
-/
namespace FormulaEngine

variable {σ : Type}

namespace EngineState

/-- What a new engine has: the built-in entries up to one that is refused, nothing in its cache and
nothing called. -/
structure IsNew (options : Options) (s : EngineState σ) : Prop where
  functions : ∃ tried, tried <+: (if options.defaultFunctions then Builtin.functions else []) ∧
    s.engine.functions = (Table.empty options.caseSensitive).attemptAll tried
  constants : ∃ tried, tried <+: (if options.defaultConstants then Builtin.constants else []) ∧
    s.engine.constants = (Table.empty options.caseSensitive).attemptAll tried
  cache : s.engine.cache = if options.cacheEnabled then
    some (.empty options.cacheMaximumSize options.cacheReductionSize) else none
  calls : s.calls.calls = []
  options : s.engine.options = options

theorem isNew_of_start {options : Options} {memory : σ} {generator : Generator}
    {state : EngineState σ} (h : start options memory generator = .ok state) :
    state.IsNew options := by
  unfold start at h
  split at h
  · cases h
  · cases h
    exact ⟨Table.registerAll_eq_attemptAll _ _, Table.registerAll_eq_attemptAll _ _, rfl, rfl, rfl⟩

variable {options : Options} {s : EngineState σ} (h : s.IsNew options)
include h

theorem IsNew.entries_nil {cache : Cache (Formula σ)} (hcache : s.engine.cache = some cache) :
    cache.entries = [] := by
  rw [h.cache] at hcache
  split at hcache
  · cases hcache
    rfl
  · cases hcache

theorem IsNew.keyed : s.engine.functions.Keyed := by
  obtain ⟨tried, -, htable⟩ := h.functions
  rw [htable]
  exact (Table.keyed_empty _).attemptAll tried

end EngineState

/-- The formula text that comes with a request. -/
def Request.formula? : Request σ → Option String
  | calculate formula _ | build formula | buildWithConstants formula _ | parse formula =>
    some formula
  | _ => none

/-- Whether the reading of a formula broke down, and with it the request: nothing is known then of the
engine that was at it. -/
def CalculationError.isBreakdown : CalculationError → Bool
  | parse ⟨.breakdown _, _⟩ => true
  | _ => false

namespace Session

/-- The session after some requests. -/
def after (s : Session σ) : List (Request σ) → Session σ
  | [] => s
  | request :: requests => (s.handle request).2.after requests

/-- The answers to some requests. -/
def answers (s : Session σ) : List (Request σ) → List (Except CalculationError Outcome)
  | [] => []
  | request :: requests => (s.handle request).1 :: (s.handle request).2.answers requests

/-- The values among some answers. -/
def values (answers : List (Except CalculationError Outcome)) : List Float :=
  answers.filterMap fun
    | .ok (.value x) => some x
    | _ => none

/-- The answers to and with the first at which reading breaks down. -/
def upToBreakdown : List (Except CalculationError Outcome) → List (Except CalculationError Outcome)
  | [] => []
  | .ok outcome :: answers => .ok outcome :: upToBreakdown answers
  | .error e :: answers => .error e :: if e.isBreakdown then [] else upToBreakdown answers

/-- Whether every request meets a condition in the session in which it is handled. -/
def Along (P : Session σ → Request σ → Prop) (s : Session σ) : List (Request σ) → Prop
  | [] => True
  | request :: requests => P s request ∧ (s.handle request).2.Along P requests

/-- What every admissible request keeps holds after all of them. -/
theorem after_keeps {P : Session σ → Prop} {A : Request σ → Prop}
    (hstep : ∀ s request, A request → P s → P (s.handle request).2) {s : Session σ} (hs : P s)
    {requests : List (Request σ)} (h : ∀ request ∈ requests, A request) : P (s.after requests) := by
  induction requests generalizing s with
  | nil => exact hs
  | cons request requests ih =>
    rw [List.forall_mem_cons] at h
    exact ih (hstep s request h.1 hs) h.2

end Session

end FormulaEngine
