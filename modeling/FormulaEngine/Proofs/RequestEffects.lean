import FormulaEngine.Proofs.CacheEntries
import FormulaEngine.Proofs.FoldedNodes
import FormulaEngine.Proofs.SessionRuns

/-!
What a request changes in an engine. Only registrations write the tables; everything else changes
the cache at most. A request that is refused changes neither the tables nor the cache and calls
nothing, at whatever stage it fails: folding, the only stage of building that calls functions, never
does, and the cache takes a formula in only when it is made.
-/
namespace FormulaEngine

variable {σ : Type}

/-- Whether a state differs from another in what was reported at most. -/
structure EngineState.Untouched (s s' : EngineState σ) : Prop where
  engine : s'.engine = s.engine
  calls : s'.calls = s.calls

namespace EngineState

theorem Untouched.refl (s : EngineState σ) : s.Untouched s := ⟨rfl, rfl⟩

theorem untouched_report (s : EngineState σ) (events : List Event) :
    s.Untouched (s.report events) :=
  ⟨rfl, rfl⟩

theorem Untouched.trans {s s' s'' : EngineState σ} (h : s.Untouched s') (h' : s'.Untouched s'') :
    s.Untouched s'' :=
  ⟨h'.engine.trans h.engine, h'.calls.trans h.calls⟩

/-- Forgetting formulas changes the cache at most. -/
theorem clearCache_engine (s : EngineState σ) :
    ∃ cache, s.clearCache.engine = { s.engine with cache } := by
  unfold clearCache
  split
  · exact ⟨s.engine.cache, rfl⟩
  · exact ⟨_, rfl⟩

end EngineState

namespace Engine

section Uncached

variable {s : EngineState σ} (hcache : s.engine.cache = none)
include hcache

theorem throughCache_of_uncached (key : String) (create : Action σ (Formula σ)) :
    throughCache key create s = create s := by
  unfold throughCache
  rw [hcache]

theorem build_of_uncached (formula : String) :
    build formula s =
      if Text.isBlankText formula.toList then (.error .emptyFormula, s)
      else createFormula formula none s := by
  unfold build
  rw [throughCache_of_uncached hcache]

end Uncached

open EngineState

/-- Whether an action leaves the engine alone, and touches nothing at all if it fails. -/
def KeepsEngine {α : Type} (action : Action σ α) : Prop :=
  ∀ s : EngineState σ, Yields (fun _ s' => s'.engine = s.engine) s.Untouched (action s)

/-- Whether an action changes the cache at most, and touches nothing at all if it fails. -/
def KeepsTables {α : Type} (action : Action σ α) : Prop :=
  ∀ s : EngineState σ, Yields (fun _ s' => ∃ cache, s'.engine = { s.engine with cache })
    s.Untouched (action s)

theorem KeepsEngine.engine {α : Type} {action : Action σ α} (h : KeepsEngine action)
    (s : EngineState σ) : (action s).2.engine = s.engine := by
  have hkept := h s
  revert hkept
  rcases action s with ⟨e | x, s'⟩ <;> intro hkept
  · exact hkept.engine
  · exact hkept

theorem KeepsTables.engine {α : Type} {action : Action σ α} (h : KeepsTables action)
    (s : EngineState σ) : ∃ cache, (action s).2.engine = { s.engine with cache } := by
  have hkept := h s
  revert hkept
  rcases action s with ⟨e | x, s'⟩ <;> intro hkept
  · exact ⟨s.engine.cache, hkept.engine⟩
  · exact hkept

theorem KeepsEngine.keepsTables {α : Type} {action : Action σ α} (h : KeepsEngine action) :
    KeepsTables action :=
  fun s => (h s).mono fun _ _ hs => ⟨s.engine.cache, hs⟩

/-- Folding for an engine succeeds. -/
theorem exists_foldTree (t : Tree) (constants : Table Constant) (s : EngineState σ) :
    ∃ u s', foldTree t constants s = (.ok u, s') ∧ s'.engine = s.engine ∧ t.LeftOf u ∧
      u.postorder.length ≤ t.postorder.length := by
  obtain ⟨u, final, hfold, hu⟩ :=
    t.exists_fold .interpreted s.engine.functions constants nofun ⟨s.calls, []⟩
  refine ⟨u, { s with calls := final.calls }.report
    (final.replacements.reverse.map Event.ofReplacement), ?_, rfl, hu⟩
  unfold foldTree
  dsimp only [ExceptT.run, StateT.run]
  rw [hfold]
  rfl

/-- The tree of a formula, before it is folded if the engine folds, or the reason why there is
none. -/
theorem parseWith_cases (formula : String) (constants : Table Constant) (s : EngineState σ) :
    (∃ e, parseWith formula constants s = (.error (.parse e), s)) ∨
    ∃ t u s', Tree.parse s.engine.options.locale (s.engine.vocabulary constants) formula = .ok t ∧
      parseWith formula constants s = (.ok u, s') ∧ s'.engine = s.engine ∧ t.LeftOf u ∧
      u.postorder.length ≤ t.postorder.length := by
  unfold parseWith
  cases hparse : Tree.parse s.engine.options.locale (s.engine.vocabulary constants) formula with
  | error e => exact .inl ⟨e, rfl⟩
  | ok t =>
    dsimp only
    split
    · obtain ⟨u, s', hfold, hengine, hu⟩ := exists_foldTree t constants s
      exact .inr ⟨t, u, s', rfl, hfold, hengine, hu⟩
    · exact .inr ⟨t, t, s, rfl, rfl, rfl, fun _ hnode => .inl hnode, Nat.le_refl _⟩

theorem parseWith_keepsEngine (formula : String) (constants : Table Constant) :
    KeepsEngine (σ := σ) (parseWith formula constants) := by
  intro s
  rcases parseWith_cases formula constants s with ⟨e, hparse⟩ | ⟨-, u, s', -, hparse, hengine, -⟩
  · rw [hparse]
    exact .refl s
  · rw [hparse]
    exact hengine

theorem parse_keepsEngine (formula : String) : KeepsEngine (σ := σ) (parse formula) :=
  fun s => parseWith_keepsEngine formula s.engine.constants s

theorem createFormula_keepsEngine (formula : String) (ownConstants : Option (Table Constant)) :
    KeepsEngine (σ := σ) (createFormula formula ownConstants) := by
  intro s
  have hparse := parseWith_keepsEngine formula (ownConstants.getD s.engine.constants) s
  unfold createFormula
  revert hparse
  rcases parseWith formula (ownConstants.getD s.engine.constants) s with ⟨e | t, s'⟩ <;>
    exact id

/-- Also when some of the constants were registered in the copy before one was refused. -/
theorem createWithConstants_keepsEngine (formula : String) (constants : Bindings) :
    KeepsEngine (σ := σ) (createWithConstants formula constants) := by
  intro s
  unfold createWithConstants
  dsimp only
  split
  · exact s.untouched_report _
  · rename_i events table _
    have hcreate := createFormula_keepsEngine formula (some table) (s.report events)
    revert hcreate
    rcases createFormula formula (some table) (s.report events) with ⟨e | φ, s'⟩
    · exact (s.untouched_report events).trans
    · exact id

/-- Looking for a formula that is not there changes nothing before the formula is made. -/
theorem throughCache_keepsTables (key : String) {create : Action σ (Formula σ)}
    (hcreate : KeepsEngine create) : KeepsTables (throughCache key create) := by
  intro s
  unfold throughCache
  split
  · exact hcreate.keepsTables s
  · rename_i cache hcache
    have hmissed : s.Untouched
        (if cache.contains key then s else s.report [.cacheMiss key]) := by
      split
      · exact .refl s
      · exact s.untouched_report _
    generalize (if cache.contains key then s else s.report [.cacheMiss key]) = missed at hmissed ⊢
    dsimp only
    have hmade := hcreate missed
    rcases cache.getOrCreate_cases key create missed with
      ⟨φ, touched, hresult, -⟩ | ⟨φ, s', hcreated, hresult⟩ | ⟨e, s', hcreated, hresult⟩
    · rw [hresult]
      exact ⟨some touched, by rw [← hmissed.engine]; rfl⟩
    · rw [hcreated] at hmade
      rw [hresult]
      refine ⟨some (cache.insert key φ), ?_⟩
      rw [← hmissed.engine, ← show s'.engine = missed.engine from hmade]
      rfl
    -- Nothing was found, so the search has moved no entry either.
    · rw [hcreated] at hmade
      rw [hresult]
      exact hmissed.trans hmade

theorem build_keepsTables (formula : String) : KeepsTables (σ := σ) (build formula) := by
  intro s
  unfold build
  split
  · exact .refl s
  · exact throughCache_keepsTables formula (createFormula_keepsEngine formula none) s

theorem buildWithConstants_keepsTables (formula : String) (constants : Bindings) :
    KeepsTables (σ := σ) (buildWithConstants formula constants) := by
  intro s
  unfold buildWithConstants
  dsimp only
  split
  · exact build_keepsTables formula s
  · split
    · exact .refl s
    · exact throughCache_keepsTables _ (createWithConstants_keepsEngine formula _) s

theorem evaluateNormalized_result (φ : Formula σ) (bindings : Bindings) (s : EngineState σ) :
    (evaluateNormalized φ bindings s).1 =
      (φ.evaluator.evaluate ⟨s.engine.functions, φ.ownConstants.getD s.engine.constants,
        bindings⟩ s.calls).1.mapError .evaluation :=
  rfl

theorem evaluateNormalized_calls (φ : Formula σ) (bindings : Bindings) (s : EngineState σ) :
    (evaluateNormalized φ bindings s).2.calls =
      (φ.evaluator.evaluate ⟨s.engine.functions, φ.ownConstants.getD s.engine.constants,
        bindings⟩ s.calls).2 :=
  rfl

/-- An evaluation fails for no other reason than that it does. -/
theorem evaluateNormalized_error {φ : Formula σ} {bindings : Bindings} {s : EngineState σ}
    {e : CalculationError} (h : (evaluateNormalized φ bindings s).1 = .error e) :
    ∃ cause, e = .evaluation cause := by
  rw [evaluateNormalized_result] at h
  revert h
  cases (φ.evaluator.evaluate ⟨s.engine.functions, φ.ownConstants.getD s.engine.constants,
    bindings⟩ s.calls).1 with
  | error cause => exact fun h => ⟨cause, (Except.error.inj h).symm⟩
  | ok x => exact nofun

theorem calculate_tables (formula : String) (bindings : Bindings) (s : EngineState σ) :
    ∃ cache, (calculate formula bindings s).2.engine = { s.engine with cache } := by
  unfold calculate
  dsimp only
  split
  · exact ⟨s.engine.cache, rfl⟩
  · split
    · exact ⟨s.engine.cache, rfl⟩
    · have hbuild := (build_keepsTables formula).engine s
      revert hbuild
      rcases build formula s with ⟨e | φ, s'⟩ <;> exact id

theorem calculate_error {formula : String} {bindings : Bindings} {s : EngineState σ}
    {e : CalculationError} (h : (calculate formula bindings s).1 = .error e)
    (hcause : ∀ cause, e ≠ .evaluation cause) :
    s.Untouched (calculate formula bindings s).2 := by
  unfold calculate at h ⊢
  dsimp only at h ⊢
  split
  · exact .refl s
  · rename_i hblank
    rw [if_neg hblank] at h
    split
    · exact .refl s
    · rename_i hnames
      rw [hnames] at h
      have hbuild := build_keepsTables formula s
      revert hbuild h
      rcases build formula s with ⟨e' | φ, s'⟩ <;> intro h hbuild
      · exact hbuild
      · obtain ⟨cause, rfl⟩ := evaluateNormalized_error h
        exact (hcause cause rfl).elim

theorem addFunction_engine (f : Function σ) (s : EngineState σ) :
    ∃ cache, (addFunction f s).2.engine =
      { s.engine with functions := s.engine.functions.attempt f, cache } := by
  unfold addFunction
  dsimp only
  cases hregister : s.engine.functions.register f with
  | error e =>
    rw [Table.attempt_of_register_error hregister]
    exact ⟨s.engine.cache, rfl⟩
  | ok registered =>
    obtain ⟨replaced, next⟩ := registered
    rw [Table.attempt_of_register_ok hregister]
    cases replaced with
    | true => exact ⟨s.engine.cache, rfl⟩
    | false => exact clearCache_engine _

theorem addFunction_error {f : Function σ} {s : EngineState σ} {e : CalculationError}
    (h : (addFunction f s).1 = .error e) : s.Untouched (addFunction f s).2 := by
  unfold addFunction at h ⊢
  dsimp only at h ⊢
  cases hregister : s.engine.functions.register f with
  | error e => exact s.untouched_report _
  | ok registered =>
    rw [hregister] at h
    cases h

theorem addConstant_engine (name : String) (value : Float) (s : EngineState σ) :
    ∃ cache, (addConstant name value s).2.engine =
      { s.engine with constants := s.engine.constants.attempt ⟨name, value, true⟩, cache } := by
  unfold addConstant
  dsimp only
  cases hregister : s.engine.constants.register ⟨name, value, true⟩ with
  | error e =>
    rw [Table.attempt_of_register_error hregister]
    exact ⟨s.engine.cache, rfl⟩
  | ok registered =>
    rw [Table.attempt_of_register_ok hregister]
    exact clearCache_engine _

theorem addConstant_error {name : String} {value : Float} {s : EngineState σ}
    {e : CalculationError} (h : (addConstant name value s).1 = .error e) :
    s.Untouched (addConstant name value s).2 := by
  unfold addConstant at h ⊢
  dsimp only at h ⊢
  cases hregister : s.engine.constants.register ⟨name, value, true⟩ with
  | error e => exact s.untouched_report _
  | ok registered =>
    rw [hregister] at h
    cases h

end Engine

namespace Request

/-- The function that a request registers. -/
def function? : Request σ → Option (Function σ)
  | addFunction f => some f
  | _ => none

/-- The constant that a request registers. -/
def constant? : Request σ → Option Constant
  | addConstant name value => some ⟨name, value, true⟩
  | _ => none

/-- Whether a request evaluates a formula, so that it may fail for what a formula does. -/
def evaluates : Request σ → Bool
  | calculate _ _ | evaluate _ _ => true
  | _ => false

end Request

namespace Session

open Engine

variable {s : Session σ} {α : Type} {e : CalculationError}

theorem perform_eq (s : Session σ) (action : Action σ α) (outcome : α → Outcome) :
    s.perform action outcome =
      ((action s.state).1.map outcome, { s with state := (action s.state).2 }) := by
  unfold Session.perform
  rcases action s.state with ⟨e | x, state⟩ <;> rfl

theorem performBuild_state (s : Session σ) (action : Action σ (Formula σ)) :
    (s.performBuild action).2.state = (action s.state).2 := by
  unfold Session.performBuild
  rcases action s.state with ⟨e | φ, state⟩ <;> rfl

theorem performBuild_answer (s : Session σ) (action : Action σ (Formula σ)) :
    (s.performBuild action).1 = (action s.state).1.map fun _ => .handle s.formulas.size := by
  unfold Session.performBuild
  rcases action s.state with ⟨e | φ, state⟩ <;> rfl

/-- Only registrations write the tables. -/
theorem handle_engine (s : Session σ) (request : Request σ) :
    ∃ cache, (s.handle request).2.state.engine =
      { s.state.engine with
        functions := s.state.engine.functions.attemptAll request.function?.toList
        constants := s.state.engine.constants.attemptAll request.constant?.toList
        cache } := by
  cases request with
  | calculate formula bindings =>
    simp only [Session.handle, perform_eq]
    exact calculate_tables formula bindings s.state
  | build formula =>
    simp only [Session.handle, performBuild_state]
    exact (build_keepsTables formula).engine s.state
  | buildWithConstants formula constants =>
    simp only [Session.handle, performBuild_state]
    exact (buildWithConstants_keepsTables formula constants).engine s.state
  | evaluate handle bindings =>
    simp only [Session.handle]
    split
    · rw [perform_eq]
      exact ⟨s.state.engine.cache, rfl⟩
    · exact ⟨s.state.engine.cache, rfl⟩
  | parse formula =>
    simp only [Session.handle, perform_eq]
    exact (parse_keepsEngine formula).keepsTables.engine s.state
  | addFunction f =>
    simp only [Session.handle, perform_eq]
    exact addFunction_engine f s.state
  | addConstant name value =>
    simp only [Session.handle, perform_eq]
    exact addConstant_engine name value s.state
  | cacheGet key =>
    simp only [Session.handle]
    have hfound : ∃ cache,
        (s.state.cachedFormula? key).2.engine = { s.state.engine with cache } := by
      unfold EngineState.cachedFormula?
      split
      · exact ⟨s.state.engine.cache, rfl⟩
      · exact ⟨_, rfl⟩
    revert hfound
    rcases s.state.cachedFormula? key with ⟨_ | φ, state⟩ <;> exact id
  | cacheClear => exact s.state.clearCache_engine
  | cacheContains | describeFormula =>
    simp only [Session.handle]
    split <;> exact ⟨s.state.engine.cache, rfl⟩
  | functionExists | constantExists | functions | constants | options | describe =>
    exact ⟨s.state.engine.cache, rfl⟩

/-- After some requests the tables have what was registered by them over what was there before. -/
theorem after_engine (s : Session σ) (requests : List (Request σ)) :
    ∃ cache, (s.after requests).state.engine =
      { s.state.engine with
        functions := s.state.engine.functions.attemptAll (requests.filterMap Request.function?)
        constants := s.state.engine.constants.attemptAll (requests.filterMap Request.constant?)
        cache } := by
  induction requests generalizing s with
  | nil => exact ⟨s.state.engine.cache, rfl⟩
  | cons request requests ih =>
    have hsplit : ∀ {β : Type} (given : Request σ → Option β),
        (request :: requests).filterMap given =
          (given request).toList ++ requests.filterMap given := by
      intro β given
      rw [List.filterMap_cons]
      cases given request <;> rfl
    obtain ⟨cache, hengine⟩ := s.handle_engine request
    obtain ⟨cache', hlater⟩ := ih (s.handle request).2
    refine ⟨cache', ?_⟩
    rw [after, hlater, hengine, hsplit, hsplit]
    simp only [Table.attemptAll, List.foldl_append]

theorem options_after (s : Session σ) (requests : List (Request σ)) :
    (s.after requests).state.engine.options = s.state.engine.options := by
  obtain ⟨cache, hengine⟩ := s.after_engine requests
  rw [hengine]

theorem functions_after (s : Session σ) (requests : List (Request σ)) :
    (s.after requests).state.engine.functions =
      s.state.engine.functions.attemptAll (requests.filterMap Request.function?) := by
  obtain ⟨cache, hengine⟩ := s.after_engine requests
  rw [hengine]

theorem constants_after (s : Session σ) (requests : List (Request σ)) :
    (s.after requests).state.engine.constants =
      s.state.engine.constants.attemptAll (requests.filterMap Request.constant?) := by
  obtain ⟨cache, hengine⟩ := s.after_engine requests
  rw [hengine]

/-- Whether a session differs from another in what was reported at most. -/
structure Untouched (s s' : Session σ) : Prop where
  state : s.state.Untouched s'.state
  formulas : s'.formulas = s.formulas

/-- A request that fails does what its action does. -/
theorem perform_error {action : Action σ α} {outcome : α → Outcome}
    (h : (s.perform action outcome).1 = .error e) :
    (action s.state).1 = .error e ∧
      (s.perform action outcome).2 = { s with state := (action s.state).2 } := by
  rw [perform_eq] at h ⊢
  refine ⟨?_, rfl⟩
  revert h
  cases (action s.state).1 with
  | error e' => exact fun h => congrArg Except.error (Except.error.inj h)
  | ok x => exact nofun

theorem performBuild_error {action : Action σ (Formula σ)}
    (h : (s.performBuild action).1 = .error e) :
    (action s.state).1 = .error e ∧
      (s.performBuild action).2 = { s with state := (action s.state).2 } := by
  unfold Session.performBuild at h ⊢
  revert h
  rcases action s.state with ⟨e' | φ, state⟩
  · exact fun h => ⟨congrArg Except.error (Except.error.inj h), rfl⟩
  · exact nofun

theorem untouched_of_keepsTables {action : Action σ α} (haction : KeepsTables action)
    (h : (action s.state).1 = .error e) :
    s.Untouched { s with state := (action s.state).2 } := by
  have hkept := haction s.state
  revert h hkept
  rcases action s.state with ⟨e' | x, state⟩ <;> intro h hkept
  · exact ⟨hkept, rfl⟩
  · cases h

/-- A request that fails for any reason but the evaluation of a formula. -/
theorem handle_error {request : Request σ} (h : (s.handle request).1 = .error e)
    (hcause : request.evaluates = true → ∀ cause, e ≠ .evaluation cause) :
    s.Untouched (s.handle request).2 := by
  cases request with
  | calculate formula bindings =>
    obtain ⟨hresult, hsession⟩ := perform_error h
    simp only [Session.handle, hsession]
    exact ⟨calculate_error hresult (hcause rfl), rfl⟩
  | build formula =>
    obtain ⟨hresult, hsession⟩ := performBuild_error h
    simp only [Session.handle, hsession]
    exact untouched_of_keepsTables (build_keepsTables formula) hresult
  | buildWithConstants formula constants =>
    obtain ⟨hresult, hsession⟩ := performBuild_error h
    simp only [Session.handle, hsession]
    exact untouched_of_keepsTables (buildWithConstants_keepsTables formula constants) hresult
  | evaluate handle bindings =>
    simp only [Session.handle] at h ⊢
    split at h
    · obtain ⟨hresult, -⟩ := perform_error h
      obtain ⟨cause, rfl⟩ := evaluateNormalized_error hresult
      exact (hcause rfl cause rfl).elim
    · cases h
  | parse formula =>
    obtain ⟨hresult, hsession⟩ := perform_error h
    simp only [Session.handle, hsession]
    exact untouched_of_keepsTables (parse_keepsEngine formula).keepsTables hresult
  | addFunction f =>
    obtain ⟨hresult, hsession⟩ := perform_error h
    simp only [Session.handle, hsession]
    exact ⟨addFunction_error hresult, rfl⟩
  | addConstant name value =>
    obtain ⟨hresult, hsession⟩ := perform_error h
    simp only [Session.handle, hsession]
    exact ⟨addConstant_error hresult, rfl⟩
  | cacheContains key =>
    simp only [Session.handle] at h
    split at h <;> cases h
  | cacheGet key =>
    simp only [Session.handle] at h
    split at h <;> cases h
  | describeFormula handle =>
    simp only [Session.handle] at h
    split at h <;> cases h
  | functionExists | constantExists | functions | constants | cacheClear | options | describe =>
    cases h

/-- A request that is refused leaves the engine as it was, with all that its functions see: both
tables, and the cache with its order. Only an evaluation that fails may have called functions
before. What is built with constants of its own leaves the constants of the engine alone, also if it
succeeds. -/
theorem refused_request_unchanged (s : Session σ) (request : Request σ) :
    (∀ e, (s.handle request).1 = .error e →
      (request.evaluates = true → ∀ cause, e ≠ .evaluation cause) →
      (s.handle request).2.state.engine = s.state.engine ∧
        (s.handle request).2.state.calls = s.state.calls ∧
        (s.handle request).2.formulas = s.formulas) ∧
    ∀ formula constants, request = .buildWithConstants formula constants →
      (s.handle request).2.state.engine.constants = s.state.engine.constants := by
  refine ⟨fun e h hcause => ?_, ?_⟩
  · obtain ⟨⟨hengine, hcalls⟩, hformulas⟩ := handle_error h hcause
    exact ⟨hengine, hcalls, hformulas⟩
  · rintro formula constants rfl
    obtain ⟨cache, hengine⟩ := s.handle_engine (.buildWithConstants formula constants)
    rw [hengine]
    rfl

/-- The cache is full, a function with a memory was called by folding before, and the formula breaks
off only after its constant was registered in the copy. -/
theorem refused_request_unchanged_full :
    let options : Options :=
      { cacheMaximumSize := 1, cacheReductionSize := 1, defaultFunctions := false
        defaultConstants := false }
    let next : Function Nat :=
      ⟨⟨"next", some 0, true, false⟩, .host fun _ n => (Float.ofNat n, n + 1)⟩
    let state : EngineState Nat := ⟨⟨options, .empty false, .empty false, some (.empty 1 1)⟩,
      ⟨0, ⟨[], 0⟩, []⟩, []⟩
    let s := (start state).after [.addFunction next, .build "next()+y"]
    let request : Request Nat := .buildWithConstants "next()+x*" [("x", 1)]
    (∃ e, (s.handle request).1 = .error e ∧
      (s.handle request).2.state.engine = s.state.engine ∧
      (s.handle request).2.state.calls = s.state.calls ∧
      (s.handle request).2.formulas = s.formulas) ∧
    s.state.engine.cache.map Cache.keys = some ["next()+y"] ∧ s.state.calls.memory = 1 := by
  intro options next state s request
  obtain ⟨e, herror⟩ : ∃ e, (s.handle request).1 = .error e := by
    have hrefused : (s.handle request).1.isOk = false := by decide +kernel
    revert hrefused
    rcases (s.handle request).1 with e | outcome
    · exact fun _ => ⟨e, rfl⟩
    · nofun
  exact ⟨⟨e, herror, (refused_request_unchanged s request).1 e herror nofun⟩, by decide +kernel⟩

end Session

end FormulaEngine
