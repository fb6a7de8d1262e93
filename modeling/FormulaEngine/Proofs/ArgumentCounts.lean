import FormulaEngine.Proofs.CacheEntries
import FormulaEngine.Proofs.CrowdedCalls
import FormulaEngine.Proofs.FittingCalls
import FormulaEngine.Proofs.RequestEffects
import FormulaEngine.Proofs.SessionRuns
import FormulaEngine.Proofs.TreeSize

/-!
Argument counts over whole sessions. However functions are registered and replaced while
formulas are built and evaluated, at once or much later, no function is ever called with
another number of arguments than it takes, unless a program is made of a formula with more
arguments than an instruction can count.
-/
namespace FormulaEngine

variable {σ : Type}

/-- The invariant of an engine with the given functions: all calls that were made fit, and those
of the formulas in its cache will. -/
structure EngineState.Fits (options : Options) (functions : Table (Function σ))
    (s : EngineState σ) : Prop where
  options_eq : s.engine.options = options
  functions_eq : s.engine.functions = functions
  keyed : functions.Keyed
  calls : s.calls.Fits
  cached : ∀ cache, s.engine.cache = some cache → ∀ entry ∈ cache.entries,
    entry.2.evaluator.Admitted functions

variable {options : Options} {functions : Table (Function σ)} {s : EngineState σ}

namespace EngineState

theorem Fits.report (h : s.Fits options functions) (events : List Event) :
    (s.report events).Fits options functions :=
  ⟨h.options_eq, h.functions_eq, h.keyed, h.calls, h.cached⟩

theorem Fits.withCache (h : s.Fits options functions) {cache : Cache (Formula σ)}
    (hcache : ∀ entry ∈ cache.entries, entry.2.evaluator.Admitted functions) :
    (s.withCache cache).Fits options functions := by
  refine ⟨h.options_eq, h.functions_eq, h.keyed, h.calls, fun other hother => ?_⟩
  cases hother
  exact hcache

theorem Fits.clearCache (h : s.Fits options functions) : s.clearCache.Fits options functions := by
  unfold EngineState.clearCache
  split
  · exact h
  · exact (h.report _).withCache nofun

theorem Fits.cachedFormula? (h : s.Fits options functions) (key : String) :
    (s.cachedFormula? key).2.Fits options functions ∧
      ∀ formula, (s.cachedFormula? key).1 = some formula →
        formula.evaluator.Admitted functions := by
  unfold EngineState.cachedFormula?
  split
  · exact ⟨h, nofun⟩
  · rename_i cache hcache
    have hentries := h.cached cache hcache
    rcases hget : cache.get key with ⟨_ | formula, touched⟩
    · obtain ⟨-, rfl⟩ := Cache.get_none hget
      exact ⟨h.withCache hentries, nofun⟩
    · obtain ⟨hmem, htouched⟩ := Cache.get_some hget
      refine ⟨h.withCache fun entry hentry => hentries entry (htouched entry hentry), ?_⟩
      rintro _ ⟨⟩
      exact hentries _ hmem

/-- A registered function changes no number of arguments. -/
theorem Fits.attempt (h : s.Fits options functions) (f : Function σ)
    {registered : Table (Function σ)}
    (hregistered : functions.attempt f = registered) :
    Fits options registered { s with engine := { s.engine with functions := registered } } := by
  subst hregistered
  exact ⟨h.options_eq, rfl, h.keyed.attempt f, h.calls,
    fun cache hcache entry hentry => (h.cached cache hcache entry hentry).attempt f⟩

end EngineState

namespace Engine

open EngineState

/-- Whether an action keeps the invariant, and its result has a property. -/
def Keeps {α : Type} (options : Options) (functions : Table (Function σ)) (P : α → Prop)
    (action : Action σ α) : Prop :=
  ∀ s : EngineState σ, s.Fits options functions →
    Yields (fun x s => s.Fits options functions ∧ P x) (EngineState.Fits options functions)
      (action s)

theorem foldTree_keeps {t : Tree} (ht : t.Admitted functions) (constants : Table Constant) :
    Keeps options functions
      (fun t' => t'.Admitted functions ∧ t'.postorder.length ≤ t.postorder.length)
      (foldTree t constants) := by
  intro s hs
  have hstart : (⟨s.calls, []⟩ : FoldingState σ).calls.Fits := hs.calls
  have hfold := Tree.fold_fits constants ht hstart
  rw [← hs.functions_eq] at hfold
  unfold foldTree
  dsimp only [ExceptT.run, StateT.run] at hfold ⊢
  revert hfold
  rcases t.fold .interpreted s.engine.functions constants ⟨s.calls, []⟩ with ⟨e | t', final⟩ <;>
    intro hfold
  · exact ⟨hs.options_eq, hs.functions_eq, hs.keyed, hfold, hs.cached⟩
  · obtain ⟨hcalls, hadmitted, hle⟩ := hfold
    rw [hs.functions_eq] at hadmitted
    exact ⟨⟨hs.options_eq, hs.functions_eq, hs.keyed, hcalls, hs.cached⟩, hadmitted, hle⟩

theorem parseWith_keeps (formula : String) (constants : Table Constant) :
    Keeps options functions
      (fun t => t.Admitted functions ∧ t.postorder.length ≤ formula.length)
      (parseWith formula constants) := by
  intro s hs
  unfold parseWith
  split
  · exact hs
  · rename_i t ht
    have hadmitted : t.Admitted functions := by
      rw [Engine.vocabulary, hs.functions_eq] at ht
      exact Tree.parse_admitted hs.keyed ht
    have hsize := Tree.length_postorder_le_of_parse ht
    split
    · exact (foldTree_keeps hadmitted constants s hs).mono
        fun t' s h => ⟨h.1, h.2.1, Nat.le_trans h.2.2 hsize⟩
    · exact ⟨hs, hadmitted, hsize⟩

/-- A formula that is evaluated calls functions with arguments that fit. -/
theorem evaluateNormalized_keeps {φ : Formula σ} (hφ : φ.evaluator.Admitted functions)
    (bindings : Bindings) :
    Keeps options functions (fun _ => True) (evaluateNormalized φ bindings) := by
  intro s hs
  let scope : Scope σ := ⟨s.engine.functions, φ.ownConstants.getD s.engine.constants, bindings⟩
  have hcalls : (φ.evaluator.evaluate scope s.calls).2.Fits := by
    refine Evaluator.Admitted.evaluate_fits ?_ hs.calls
    rwa [show scope.functions = functions from hs.functions_eq]
  have hstate : EngineState.Fits options functions
      { s with calls := (φ.evaluator.evaluate scope s.calls).2 } :=
    ⟨hs.options_eq, hs.functions_eq, hs.keyed, hcalls, hs.cached⟩
  unfold evaluateNormalized
  dsimp only [ExceptT.run, StateT.run]
  change Yields _ _ (Except.mapError _ (φ.evaluator.evaluate scope s.calls).1, _)
  cases (φ.evaluator.evaluate scope s.calls).1 with
  | error e => exact hstate
  | ok x => exact ⟨hstate, trivial⟩

theorem throughCache_keeps (key : String) {create : Action σ (Formula σ)}
    (hcreate : Keeps options functions (fun φ => φ.evaluator.Admitted functions) create) :
    Keeps options functions (fun φ => φ.evaluator.Admitted functions)
      (throughCache key create) := by
  intro s hs
  unfold throughCache
  split
  · exact hcreate s hs
  · rename_i cache hcache
    have hentries := hs.cached cache hcache
    have hmissed : EngineState.Fits options functions
        (if cache.contains key then s else s.report [.cacheMiss key]) := by
      split
      · exact hs
      · exact hs.report _
    generalize (if cache.contains key then s else s.report [.cacheMiss key]) = missed at hmissed ⊢
    dsimp only
    have hcreated := hcreate missed hmissed
    rcases cache.getOrCreate_cases key create missed with
      ⟨φ, touched, hresult, hmem, htouched⟩ | ⟨φ, s', hmade, hresult⟩ | ⟨e, s', hmade, hresult⟩
    · rw [hresult]
      refine ⟨(hmissed.report _).withCache fun entry hentry => ?_, hentries _ hmem⟩
      exact hentries entry (htouched entry hentry)
    · rw [hmade] at hcreated
      rw [hresult]
      refine ⟨(hcreated.1.report _).withCache fun entry hentry => ?_, hcreated.2⟩
      rcases Cache.mem_insert hentry with rfl | hentry
      · exact hcreated.2
      · exact hentries entry hentry
    · rw [hmade] at hcreated
      rw [hresult]
      exact hcreated

section Formulas

variable {formula : String}
  (hsize : options.executionMode = .compiled → formula.length < 2 ^ 28)
include hsize

theorem createFormula_keeps (ownConstants : Option (Table Constant)) :
    Keeps options functions (fun φ => φ.evaluator.Admitted functions)
      (createFormula formula ownConstants) := by
  intro s hs
  have hparse := parseWith_keeps formula (ownConstants.getD s.engine.constants) s hs
  unfold createFormula
  revert hparse
  rcases parseWith formula (ownConstants.getD s.engine.constants) s with ⟨e | t, s'⟩ <;>
    intro hparse
  · exact hparse
  · obtain ⟨hs', hadmitted, hle⟩ := hparse
    refine ⟨hs'.report _, ?_⟩
    rw [hs'.functions_eq, hs'.options_eq]
    exact ExecutionMode.prepare_admitted (fun hmode => Nat.lt_of_le_of_lt hle (hsize hmode))
      hadmitted

theorem build_keeps :
    Keeps options functions (fun φ => φ.evaluator.Admitted functions) (build formula) := by
  intro s hs
  unfold build
  split
  · exact hs
  · exact throughCache_keeps formula (createFormula_keeps hsize none) s hs

theorem createWithConstants_keeps (constants : Bindings) :
    Keeps options functions (fun φ => φ.evaluator.Admitted functions)
      (createWithConstants formula constants) := by
  intro s hs
  unfold createWithConstants
  dsimp only
  split
  · exact hs.report _
  · exact createFormula_keeps hsize _ _ (hs.report _)

theorem buildWithConstants_keeps (constants : Bindings) :
    Keeps options functions (fun φ => φ.evaluator.Admitted functions)
      (buildWithConstants formula constants) := by
  intro s hs
  unfold buildWithConstants
  dsimp only
  split
  · exact build_keeps hsize s hs
  · split
    · exact hs
    · exact throughCache_keeps _ (createWithConstants_keeps hsize _) s hs

theorem calculate_keeps (bindings : Bindings) :
    Keeps options functions (fun _ => True) (calculate formula bindings) := by
  intro s hs
  unfold calculate
  dsimp only
  split
  · exact hs
  · split
    · exact hs
    · have hbuild := build_keeps hsize s hs
      revert hbuild
      rcases build formula s with ⟨e | φ, s'⟩ <;> intro hbuild
      · exact hbuild
      · exact evaluateNormalized_keeps hbuild.2 _ s' hbuild.1

end Formulas

theorem addConstant_keeps (name : String) (value : Float) :
    Keeps options functions (fun _ => True) (addConstant (σ := σ) name value) := by
  intro s hs
  unfold addConstant
  dsimp only
  split
  · exact hs.report _
  · refine ⟨EngineState.Fits.clearCache ?_, trivial⟩
    exact ⟨hs.options_eq, hs.functions_eq, hs.keyed, hs.calls, hs.cached⟩

/-- A registered function changes the table, but no number of arguments. -/
theorem addFunction_fits (hs : s.Fits options functions) (f : Function σ) :
    (addFunction f s).2.Fits options (functions.attempt f) := by
  unfold addFunction
  rw [hs.functions_eq]
  dsimp only
  cases hregister : functions.register f with
  | error e =>
    rw [Table.attempt_of_register_error hregister]
    exact hs.report _
  | ok registered =>
    obtain ⟨replaced, next⟩ := registered
    rw [Table.attempt_of_register_ok hregister]
    have hnext := (hs.report (functions.registrationEvents f)).attempt f
      (Table.attempt_of_register_ok hregister)
    cases replaced with
    | true => exact hnext
    | false => exact hnext.clearCache

/-- The calls that are made when a formula is calculated without a cache and without folding. -/
theorem calls_calculate {formula : String} {bindings : Bindings} {s : EngineState σ} {t : Tree}
    (hformula : Text.isBlankText formula.toList = false)
    (haccepted : s.engine.nameError? (s.engine.normalize bindings) = none)
    (hcache : s.engine.cache = none) (hoptimizer : s.engine.options.optimizerEnabled = false)
    (hparse : Tree.parse s.engine.options.locale (s.engine.vocabulary s.engine.constants) formula =
      .ok t) :
    (calculate formula bindings s).2.calls =
      ((s.engine.options.executionMode.prepare t s.engine.functions).evaluate
        ⟨s.engine.functions, s.engine.constants, s.engine.normalize bindings⟩ s.calls).2 := by
  have hread : parseWith formula s.engine.constants s = (.ok t, s) := by
    rw [parseWith, hparse, hoptimizer]
    rfl
  have hbuild : build formula s = createFormula formula none s := by
    rw [build_of_uncached hcache, hformula, if_neg Bool.false_ne_true]
  have hcreate : createFormula formula none s =
      (.ok ⟨s.engine.options.executionMode.prepare t s.engine.functions, none,
        s.engine.options.caseSensitive⟩, s.report [.built formula t]) := by
    rw [createFormula, Option.getD_none, hread]
  unfold calculate
  dsimp only
  rw [hformula, if_neg Bool.false_ne_true, haccepted, hbuild, hcreate]
  rfl

end Engine

namespace Session

/-- The invariant of a session: it extends to the formulas that were handed out. -/
structure Fits (options : Options) (s : Session σ) : Prop where
  state : s.state.Fits options s.state.engine.functions
  formulas : ∀ φ ∈ s.formulas, φ.evaluator.Admitted s.state.engine.functions

variable {s : Session σ}

/-- A session goes on with a state that has the same functions. -/
theorem Fits.withState (h : s.Fits options) {state : EngineState σ}
    (hstate : state.Fits options s.state.engine.functions) : Fits options { s with state } := by
  refine ⟨?_, ?_⟩
  · rwa [hstate.functions_eq]
  · rw [hstate.functions_eq]
    exact h.formulas

theorem Fits.handOut (h : s.Fits options) {state : EngineState σ}
    (hstate : state.Fits options s.state.engine.functions) {φ : Formula σ}
    (hφ : φ.evaluator.Admitted s.state.engine.functions) :
    (Session.handOut { s with state } φ).2.Fits options := by
  have hfits := h.withState hstate
  refine ⟨hfits.state, fun other hother => ?_⟩
  rcases Array.mem_push.mp hother with hother | rfl
  · exact hfits.formulas other hother
  · rw [← hstate.functions_eq] at hφ
    exact hφ

theorem calls_after_calculate (s : Session σ) (requests : List (Request σ)) (formula : String)
    (bindings : Bindings) :
    (s.after (requests ++ [.calculate formula bindings])).state.calls =
      (Engine.calculate formula bindings (s.after requests).state).2.calls := by
  induction requests generalizing s with
  | nil =>
    change (s.perform (Engine.calculate formula bindings) .value).2.state.calls = _
    unfold Session.perform
    change _ = (Engine.calculate formula bindings s.state).2.calls
    rcases Engine.calculate formula bindings s.state with ⟨_ | _, _⟩ <;> rfl
  | cons request requests ih => exact ih _

theorem Fits.perform (h : s.Fits options) {α : Type} {P : α → Prop} {action : Action σ α}
    (haction : Engine.Keeps options s.state.engine.functions P action) (outcome : α → Outcome) :
    (s.perform action outcome).2.Fits options := by
  have hresult := haction s.state h.state
  unfold Session.perform
  revert hresult
  rcases action s.state with ⟨e | x, state⟩ <;> intro hresult
  · exact h.withState hresult
  · exact h.withState hresult.1

theorem Fits.performBuild (h : s.Fits options) {action : Action σ (Formula σ)}
    (haction : Engine.Keeps options s.state.engine.functions
      (fun φ => φ.evaluator.Admitted s.state.engine.functions) action) :
    (s.performBuild action).2.Fits options := by
  have hresult := haction s.state h.state
  unfold Session.performBuild
  revert hresult
  rcases action s.state with ⟨e | φ, state⟩ <;> intro hresult
  · exact h.withState hresult
  · exact h.handOut hresult.1 hresult.2

theorem Fits.addFunction (h : s.Fits options) (f : Function σ) :
    (s.perform (Engine.addFunction f) fun () => Outcome.done).2.Fits options := by
  have hresult := Engine.addFunction_fits h.state f
  have hfits : Fits options { s with state := (Engine.addFunction f s.state).2 } := by
    refine ⟨?_, fun φ hφ => ?_⟩
    · rwa [hresult.functions_eq]
    · rw [hresult.functions_eq]
      exact (h.formulas φ hφ).attempt f
  unfold Session.perform
  revert hfits
  rcases Engine.addFunction f s.state with ⟨e | ⟨⟩, state⟩ <;> exact id

/-- Whatever is requested, with a formula that is not too long for a program. -/
theorem Fits.handle (h : s.Fits options) {request : Request σ}
    (hsize : options.executionMode = .compiled →
      ∀ formula, request.formula? = some formula → formula.length < 2 ^ 28) :
    (s.handle request).2.Fits options := by
  cases request with
  | calculate formula bindings =>
    exact h.perform (Engine.calculate_keeps (fun hmode => hsize hmode formula rfl) bindings) _
  | build formula =>
    exact h.performBuild (Engine.build_keeps fun hmode => hsize hmode formula rfl)
  | buildWithConstants formula constants =>
    exact h.performBuild
      (Engine.buildWithConstants_keeps (fun hmode => hsize hmode formula rfl) constants)
  | evaluate handle bindings =>
    simp only [Session.handle]
    split
    · rename_i φ hφ
      have hadmitted := h.formulas φ (Array.mem_of_getElem? hφ)
      exact h.perform (fun state hstate =>
        Engine.evaluateNormalized_keeps hadmitted (state.engine.normalize bindings) state hstate) _
    · exact h
  | parse formula =>
    exact h.perform (fun state hstate =>
      Engine.parseWith_keeps formula state.engine.constants state hstate) _
  | addFunction f => exact h.addFunction f
  | addConstant name value => exact h.perform (Engine.addConstant_keeps name value) _
  | cacheGet key =>
    have hresult := h.state.cachedFormula? key
    simp only [Session.handle]
    revert hresult
    rcases s.state.cachedFormula? key with ⟨_ | φ, state⟩ <;> rintro ⟨hstate, hfound⟩
    · exact h.withState hstate
    · exact h.handOut hstate (hfound φ rfl)
  | cacheContains key =>
    simp only [Session.handle]
    split <;> exact h
  | cacheClear => exact h.withState h.state.clearCache
  | describeFormula handle =>
    simp only [Session.handle]
    split <;> exact h
  | functionExists | constantExists | functions | constants | options | describe => exact h

theorem fits_start {memory : σ} {generator : Generator} {state : EngineState σ}
    (h : EngineState.start options memory generator = .ok state) :
    (Session.start state).Fits options := by
  have hnew := EngineState.isNew_of_start h
  refine ⟨⟨hnew.options, rfl, hnew.keyed, ?_, fun cache hcache => ?_⟩, nofun⟩
  · change state.calls.Fits
    rw [CallState.Fits, hnew.calls]
    nofun
  · rw [hnew.entries_nil hcache]
    nofun

/-- In a session with a new engine, every function that takes a fixed number of arguments is called
with this number of them: whatever was registered, replaced or refused in between, by folding, by
the walk over a tree and by the run of a program, for formulas evaluated at once and at any later
time. Programs, whose instructions hold numbers below `2 ^ 28` only, are made of formulas with
fewer characters: the word for a call with `2 ^ 28` arguments is the one for a call of the next
target with none. -/
theorem argument_counts {memory : σ} {generator : Generator} {state : EngineState σ}
    (hstart : EngineState.start options memory generator = .ok state)
    (requests : List (Request σ))
    (hsize : options.executionMode = .compiled → ∀ request ∈ requests,
      ∀ formula, request.formula? = some formula → formula.length < 2 ^ 28) :
    ∀ call ∈ ((Session.start state).after requests).state.calls.calls,
      ∀ n, call.callee.arity = some n → call.arguments.length = n := by
  have hfits := Session.after_keeps (P := Fits options)
    (A := fun request => options.executionMode = .compiled →
      ∀ formula, request.formula? = some formula → formula.length < 2 ^ 28)
    (fun _ _ hrequest hs => hs.handle hrequest) (fits_start hstart)
    fun request hrequest hmode => hsize hmode request hrequest
  intro call hcall n hn
  exact (Signature.accepts_iff _ _).mp (hfits.state.calls call hcall) n hn

/-- A function is replaced between the building of a formula and its evaluation. -/
theorem argument_counts_replaced :
    let options : Options := { defaultFunctions := false, defaultConstants := false }
    let first : Function Nat :=
      ⟨⟨"f", some 2, true, true⟩, .host fun xs n => (xs.getD 0 0, n + 1)⟩
    let second : Function Nat := ⟨⟨"f", some 2, true, false⟩, .pure fun xs => xs.getD 1 0⟩
    let requests : List (Request Nat) := [.addFunction first, .build "f(1, f(x, 2))",
      .addFunction second, .addFunction ⟨⟨"f", some 1, true, true⟩, .random⟩,
      .evaluate 0 [("x", 3)], .calculate "f(4, 5)" []]
    let state : EngineState Nat := ⟨⟨options, .empty false, .empty false, some (.empty 500 50)⟩,
      ⟨0, ⟨[], 0⟩, []⟩, [.ready options 0 0]⟩
    EngineState.start options 0 ⟨[], 0⟩ = .ok state ∧
      (options.executionMode = .compiled → ∀ request ∈ requests,
        ∀ formula, request.formula? = some formula → formula.length < 2 ^ 28) ∧
      (∀ call ∈ ((Session.start state).after requests).state.calls.calls,
        ∀ n, call.callee.arity = some n → call.arguments.length = n) ∧
      ((Session.start state).after requests).state.calls.calls.length = 3 := by
  intro options first second requests state
  have hstart : EngineState.start options 0 ⟨[], 0⟩ = .ok state := rfl
  have hsize : options.executionMode = .compiled → ∀ request ∈ requests,
      ∀ formula, request.formula? = some formula → formula.length < 2 ^ 28 := by
    intro _
    simp [requests, Request.formula?]
    decide
  exact ⟨hstart, hsize, argument_counts hstart requests hsize, by decide +kernel⟩

/-- A formula with `2 ^ 28` arguments is read, but its program calls the next function, which takes
one argument, with none. -/
theorem argument_counts_crowded :
    let options : Options :=
      { cacheEnabled := false, optimizerEnabled := false, defaultFunctions := false,
        defaultConstants := false }
    let max : Function Nat := ⟨⟨"max", none, true, true⟩, .pure Arithmetic.maximum⟩
    let g : Function Nat :=
      ⟨⟨"g", some 1, true, true⟩, .host fun xs calls => (Float.ofNat xs.length, calls + 1)⟩
    let formula := (Tree.crowded "max" "g" (2 ^ 28) ["x"]).text
    let requests : List (Request Nat) :=
      [.addFunction max, .addFunction g, .calculate formula [("x", 1)]]
    let state : EngineState Nat := ⟨⟨options, .empty false, .empty false, none⟩,
      ⟨0, ⟨[], 0⟩, []⟩, [.ready options 0 0]⟩
    EngineState.start options 0 ⟨[], 0⟩ = .ok state ∧
      ∃ call ∈ ((Session.start state).after requests).state.calls.calls,
        call.callee.arity = some 1 ∧ call.arguments.length = 0 := by
  generalize hones : 2 ^ 28 = ones
  intro options max g formula requests state
  refine ⟨rfl, ?_⟩
  let s := ((Session.start state).after [.addFunction max, .addFunction g]).state
  have hfunctions : s.engine.functions = (Table.empty false).attemptAll [max, g] :=
    functions_after _ _
  let v := s.engine.vocabulary s.engine.constants
  have hmax : v.function? max.name = some max.toSignature := by decide +kernel
  have hg : v.function? g.name = some g.toSignature := by decide +kernel
  have hcallee : s.engine.functions.get? "g" = some g := by
    obtain ⟨callee, hget, hsignature⟩ := Option.map_eq_some_iff.mp hg
    rw [hfunctions] at hget ⊢
    have hmem := (Table.mem_of_get?_attemptAll hget).resolve_right nofun
    rw [List.mem_pair] at hmem
    obtain rfl : callee = g := hmem.resolve_left fun hother =>
      absurd (hother ▸ hsignature) (by decide)
    exact hget
  have hvalue : Scope.variable ⟨s.engine.functions, s.engine.constants,
      s.engine.normalize [("x", 1)]⟩ "x" = .ok 1 := by
    have hbindings : s.engine.normalize [("x", 1)] = [("x", 1)] := by decide +kernel
    rw [hbindings]
    rfl
  have hparse : Tree.parse s.engine.options.locale v formula =
      .ok (Tree.crowded "max" "g" ones ["x"]) := by
    have hlocale : s.engine.options.locale = .enUs := by decide +kernel
    have hnamed : ∀ name callee, v.function? name = some callee →
        Text.isName callee.name = true := by
      intro name callee hcallee
      obtain ⟨f, hget, rfl⟩ := Option.map_eq_some_iff.mp hcallee
      rw [hfunctions] at hget
      exact (Table.named_empty false).attemptAll [max, g] name f hget
    have hvars : ∀ name ∈ ["x"], Node.IsKnown v (.var name) := by
      rw [List.forall_mem_singleton]
      exact ⟨by decide +kernel, by decide +kernel, by decide +kernel, by decide +kernel⟩
    rw [hlocale]
    exact Tree.parse_crowded hnamed hmax rfl hg ⟨rfl, rfl⟩ rfl hvars ones
  have hblank : Text.isBlankText formula.toList = false := Tree.isBlankText_crowded ..
  have haccepted : s.engine.nameError? (s.engine.normalize [("x", 1)]) = none := by decide +kernel
  have hcalls := Engine.calls_calculate hblank haccepted (by decide +kernel) (by decide +kernel)
    hparse
  have hcompiled : s.engine.options.executionMode = .compiled := by decide +kernel
  rw [hcompiled, Tree.evaluate_compiled_crowded hcallee (.cons hvalue .nil) "max" hones.symm
    (by decide) (fun _ _ hget _ => hget)] at hcalls
  have hafter : ((Session.start state).after requests).state.calls =
      (Engine.calculate formula [("x", 1)] s).2.calls :=
    calls_after_calculate _ [.addFunction max, .addFunction g] formula [("x", 1)]
  rw [hafter, hcalls]
  exact ⟨_, List.mem_cons_of_mem _ List.mem_cons_self, rfl, rfl⟩

end Session

end FormulaEngine
