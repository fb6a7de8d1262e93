import FormulaEngine.Proofs.CacheTransparency
import FormulaEngine.Proofs.ModeAgreement

/-!
Sessions in the two execution modes. An engine that walks over trees and one that runs programs go
through the same tables and keep formulas under the same keys, and they answer alike as long as
functions cannot tell the two apart. They can after an evaluation that failed for a variable without
a value if functions were called before it: a program looks for all values first.
-/
namespace FormulaEngine

variable {σ : Type}

/-- Whether one formula keeps a tree and the other one the program that was made from it. -/
structure Formula.Counterpart (functions : Table (Function σ)) (φ φ' : Formula σ) : Prop where
  ownConstants : φ'.ownConstants = φ.ownConstants
  caseSensitive : φ'.caseSensitive = φ.caseSensitive
  prepared : ∃ (t : Tree) (earlier : Table (Function σ)), φ.evaluator = .interpreted t ∧
    φ'.evaluator = .compiled (t.compile earlier) ∧ t.postorder.length < 2 ^ 28 ∧
    functions.Follows earlier ∧ ∀ name ∈ t.callees, functions.contains name = true

theorem Formula.Counterpart.attempt {functions : Table (Function σ)} {φ φ' : Formula σ}
    (h : φ.Counterpart functions φ') (f : Function σ) :
    φ.Counterpart (functions.attempt f) φ' := by
  obtain ⟨hown, hcase, t, earlier, hwalk, hprogram, hsize, hfollows, hcallees⟩ := h
  exact ⟨hown, hcase, t, earlier, hwalk, hprogram, hsize, hfollows.attemptAll [f],
    fun name hname => Table.contains_attemptAll (hcallees name hname) [f]⟩

namespace EngineState

/-- Whether two states differ in the execution mode, and in what follows from it for the formulas in
the cache, but in nothing else that functions can see. -/
structure Parallels (s s' : EngineState σ) : Prop where
  mode : s.engine.options.executionMode = .interpreted
  options : s'.engine.options = { s.engine.options with executionMode := .compiled }
  functions : s'.engine.functions = s.engine.functions
  constants : s'.engine.constants = s.engine.constants
  cache : Option.Rel (Cache.Alike (Formula.Counterpart s.engine.functions)) s.engine.cache
    s'.engine.cache
  keyed : s.engine.functions.Keyed
  calls : s.calls.Alike (· = ·) s'.calls

namespace Parallels

variable {s s' t t' : EngineState σ}

theorem of_engine (h : s.Parallels s') (ht : t.engine = s.engine) (ht' : t'.engine = s'.engine)
    (hcalls : t.calls.Alike (· = ·) t'.calls) : t.Parallels t' := by
  obtain ⟨hmode, hoptions, hfunctions, hconstants, hcache, hkeyed, -⟩ := h
  rw [← ht, ← ht'] at *
  exact ⟨hmode, hoptions, hfunctions, hconstants, hcache, hkeyed, hcalls⟩

theorem report (h : s.Parallels s') (events events' : List Event) :
    (s.report events).Parallels (s'.report events') :=
  h.of_engine rfl rfl h.calls

theorem withCache (h : s.Parallels s') {cache cache' : Cache (Formula σ)}
    (hcache : cache.Alike (Formula.Counterpart s.engine.functions) cache') :
    (s.withCache cache).Parallels (s'.withCache cache') :=
  ⟨h.mode, h.options, h.functions, h.constants, .some hcache, h.keyed, h.calls⟩

/-- Both engines have a cache, or none of them. -/
theorem cache_cases (h : s.Parallels s') :
    (s.engine.cache = none ∧ s'.engine.cache = none) ∨
      ∃ cache cache', s.engine.cache = some cache ∧ s'.engine.cache = some cache' ∧
        cache.Alike (Formula.Counterpart s.engine.functions) cache' := by
  have hcache := h.cache
  generalize s.engine.cache = found, s'.engine.cache = found' at hcache
  cases hcache with
  | none => exact .inl ⟨rfl, rfl⟩
  | some hcache => exact .inr ⟨_, _, rfl, rfl, hcache⟩

theorem clearCache (h : s.Parallels s') : s.clearCache.Parallels s'.clearCache := by
  unfold EngineState.clearCache
  rcases h.cache_cases with ⟨hs, hs'⟩ | ⟨cache, cache', hs, hs', hcache⟩
  · rw [hs, hs']
    exact h
  · rw [hs, hs']
    exact (h.report _ _).withCache hcache.clear

theorem cachedFormula? (h : s.Parallels s') (key : String) :
    Option.Rel (Formula.Counterpart s.engine.functions) (s.cachedFormula? key).1
        (s'.cachedFormula? key).1 ∧
      (s.cachedFormula? key).2.Parallels (s'.cachedFormula? key).2 ∧
      (s.cachedFormula? key).2.engine.functions = s.engine.functions := by
  unfold EngineState.cachedFormula?
  rcases h.cache_cases with ⟨hs, hs'⟩ | ⟨cache, cache', hs, hs', hcache⟩
  · rw [hs, hs']
    exact ⟨.none, h, rfl⟩
  · rw [hs, hs']
    exact ⟨(hcache.get key).1, h.withCache (hcache.get key).2, rfl⟩

/-- A function takes the place of another. -/
theorem attempt (h : s.Parallels s') (f : Function σ) :
    Parallels
      { s with engine := { s.engine with functions := s.engine.functions.attempt f } }
      { s' with engine := { s'.engine with functions := s.engine.functions.attempt f } } := by
  refine ⟨h.mode, h.options, rfl, h.constants, ?_, h.keyed.attempt f, h.calls⟩
  have hcache := h.cache
  dsimp only
  generalize s.engine.cache = cache, s'.engine.cache = cache' at hcache
  cases hcache with
  | none => exact .none
  | some hcache => exact .some (hcache.mono fun _ _ hφ => hφ.attempt f)

end Parallels

end EngineState

namespace Engine

open EngineState

/-- Whether two actions agree, and lead to states that differ in the mode, if that is so, again. -/
structure Matches {α : Type} (lossless : Prop) (functions : Table (Function σ))
    (P : α → α → Prop) (r r' : Except CalculationError α × EngineState σ) : Prop where
  results : Agree P r.1 r'.1
  states : lossless → r.2.Parallels r'.2
  functions_eq : r.2.engine.functions = functions

variable {s s' : EngineState σ} (h : s.Parallels s')
include h

theorem foldTree_matches (t : Tree) (constants : Table Constant) :
    Matches True s.engine.functions (· = ·) (foldTree t constants s) (foldTree t constants s') := by
  have hfold := t.fold_respects .interpreted s.engine.functions constants ⟨s.calls, []⟩
    ⟨s'.calls, []⟩ h.calls
  unfold foldTree
  rw [h.functions]
  dsimp only [ExceptT.run, StateT.run]
  revert hfold
  rcases t.fold .interpreted s.engine.functions constants ⟨s.calls, []⟩ with ⟨r, final⟩
  rcases t.fold .interpreted s.engine.functions constants ⟨s'.calls, []⟩ with ⟨r', final'⟩
  rintro ⟨rfl : r = r', hcalls⟩
  exact ⟨.of_eq _, fun _ => h.of_engine rfl rfl hcalls, rfl⟩

theorem parseWith_matches (formula : String) (constants : Table Constant) :
    Matches True s.engine.functions (· = ·) (parseWith formula constants s)
      (parseWith formula constants s') := by
  have hvocabulary : s'.engine.vocabulary constants = s.engine.vocabulary constants := by
    rw [vocabulary, vocabulary, h.functions, h.options]
  unfold parseWith
  rw [hvocabulary, h.options]
  dsimp only
  cases Tree.parse s.engine.options.locale (s.engine.vocabulary constants) formula with
  | error e => exact ⟨.error _, fun _ => h, rfl⟩
  | ok t =>
    dsimp only
    split
    · exact foldTree_matches h t constants
    · exact ⟨.ok rfl, fun _ => h, rfl⟩

theorem normalize_eq (bindings : Bindings) :
    s'.engine.normalize bindings = s.engine.normalize bindings := by
  rw [normalize, normalize, h.options]

theorem evaluateNormalized_matches {φ φ' : Formula σ}
    (hφ : φ.Counterpart s.engine.functions φ') (bindings : Bindings) :
    Matches
      (∀ name, (evaluateNormalized φ bindings s).1 =
          .error (.evaluation (.variableNotDefined name)) →
        (evaluateNormalized φ bindings s).2.calls.Alike (· = ·) s.calls)
      s.engine.functions (· = ·) (evaluateNormalized φ bindings s)
      (evaluateNormalized φ' bindings s') := by
  obtain ⟨hown, -, t, earlier, hwalk, hprogram, hsize, hfollows, hcallees⟩ := hφ
  let scope : Scope σ := ⟨s.engine.functions, φ.ownConstants.getD s.engine.constants, bindings⟩
  obtain ⟨hresult, hcalls⟩ := t.evaluate_compile scope hsize hfollows hcallees h.calls
  have hwalked : φ.evaluator.evaluate scope = t.evaluate scope := by rw [hwalk]; rfl
  have hran : φ'.evaluator.evaluate scope = (t.compile earlier).evaluate scope := by
    rw [hprogram]
    rfl
  have hscope : (⟨s'.engine.functions, φ'.ownConstants.getD s'.engine.constants, bindings⟩ :
      Scope σ) = scope := by
    rw [h.functions, h.constants, hown]
  have hvalue : (evaluateNormalized φ bindings s).1 =
      (t.evaluate scope s.calls).1.mapError .evaluation := by
    rw [evaluateNormalized_result, hwalked]
  refine ⟨?_, fun hlossless => h.of_engine rfl rfl ?_, rfl⟩
  · rw [hvalue, evaluateNormalized_result, hscope, hran, hresult]
    exact .of_eq _
  · rw [evaluateNormalized_calls, evaluateNormalized_calls, hwalked, hscope, hran]
    refine hcalls fun name hname => ?_
    have hkept := hlossless name (by rw [hvalue, hname]; rfl)
    rwa [evaluateNormalized_calls, hwalked] at hkept

theorem evaluate_matches {φ φ' : Formula σ} (hφ : φ.Counterpart s.engine.functions φ')
    (bindings : Bindings) :
    Matches
      (∀ name, (evaluate φ bindings s).1 = .error (.evaluation (.variableNotDefined name)) →
        (evaluate φ bindings s).2.calls.Alike (· = ·) s.calls)
      s.engine.functions (· = ·) (evaluate φ bindings s) (evaluate φ' bindings s') := by
  rw [evaluate, evaluate, normalize_eq h]
  exact evaluateNormalized_matches h hφ _

theorem parse_matches (formula : String) :
    Matches True s.engine.functions (· = ·) (parse formula s) (parse formula s') := by
  rw [parse, parse, h.constants]
  exact parseWith_matches h formula s.engine.constants

/-- A program that is made from a formula has room for its operands. -/
theorem createFormula_matches {formula : String} (hsize : formula.length < 2 ^ 28)
    (ownConstants : Option (Table Constant)) :
    Matches True s.engine.functions (Formula.Counterpart s.engine.functions)
      (createFormula formula ownConstants s) (createFormula formula ownConstants s') := by
  have hmatches := parseWith_matches h formula (ownConstants.getD s.engine.constants)
  unfold createFormula
  rw [h.constants]
  rcases hparse : parseWith formula (ownConstants.getD s.engine.constants) s with ⟨r, t⟩
  rcases hparse' : parseWith formula (ownConstants.getD s.engine.constants) s' with ⟨r', t'⟩
  rw [hparse, hparse'] at hmatches
  obtain ⟨hresults, hstates, hfunctions⟩ := hmatches
  have ht : t.Parallels t' := hstates trivial
  dsimp only at hresults hfunctions ⊢
  cases hresults with
  | error e => exact ⟨.error e, fun _ => ht, hfunctions⟩
  | @ok tree tree' htree =>
    subst htree
    have hcallees := callees_of_parseWith h.keyed hparse
    have hlength := length_postorder_of_parseWith hparse
    refine ⟨.ok ⟨rfl, ?_, tree, s.engine.functions, ?_, ?_, ?_, ?_, hcallees⟩,
      fun _ => ht.report _ _, hfunctions⟩
    · rw [ht.options]
    · rw [ht.mode]
      rfl
    · rw [ht.options, ht.functions, hfunctions]
      rfl
    · exact Nat.lt_of_le_of_lt hlength hsize
    · exact fun _ _ hget _ => hget

theorem createWithConstants_matches {formula : String} (hsize : formula.length < 2 ^ 28)
    (constants : Bindings) :
    Matches True s.engine.functions (Formula.Counterpart s.engine.functions)
      (createWithConstants formula constants s) (createWithConstants formula constants s') := by
  unfold createWithConstants
  rw [h.constants]
  dsimp only
  split
  · exact ⟨.error _, fun _ => h.report _ _, rfl⟩
  · exact createFormula_matches (h.report _ _) hsize _

theorem throughCache_matches (key : String) {create : Action σ (Formula σ)}
    (hcreate : ∀ {t t' : EngineState σ}, t.Parallels t' →
      Matches True t.engine.functions (Formula.Counterpart t.engine.functions)
        (create t) (create t')) :
    Matches True s.engine.functions (Formula.Counterpart s.engine.functions)
      (throughCache key create s) (throughCache key create s') := by
  unfold throughCache
  rcases h.cache_cases with ⟨hs, hs'⟩ | ⟨cache, cache', hs, hs', hcache⟩
  · rw [hs, hs']
    exact hcreate h
  · rw [hs, hs']
    dsimp only
    rw [← hcache.contains]
    -- A miss is reported before anything else, and the report leaves the engines alone.
    obtain ⟨missed, missed', hmissed, hmissed', hstates, hfunctions⟩ :
        ∃ missed missed' : EngineState σ,
          (if cache.contains key then s else s.report [.cacheMiss key]) = missed ∧
          (if cache.contains key then s' else s'.report [.cacheMiss key]) = missed' ∧
          missed.Parallels missed' ∧ missed.engine.functions = s.engine.functions := by
      split
      · exact ⟨s, s', rfl, rfl, h, rfl⟩
      · exact ⟨_, _, rfl, rfl, h.report _ _, rfl⟩
    rw [hmissed, hmissed']
    have hmade := hcreate hstates
    rw [← hfunctions] at hcache ⊢
    obtain ⟨hfound, htouched⟩ := hcache.get key
    unfold Cache.getOrCreate
    revert hfound htouched
    rcases cache.get key with ⟨found, touched⟩
    rcases cache'.get key with ⟨found', touched'⟩
    intro hfound htouched
    cases hfound with
    | some hφ => exact ⟨.ok hφ, fun _ => (hstates.report _ _).withCache htouched, rfl⟩
    | none =>
      revert hmade
      rcases create missed with ⟨r, t⟩
      rcases create missed' with ⟨r', t'⟩
      rintro ⟨hresults, hleft, hsame⟩
      have ht : t.Parallels t' := hleft trivial
      dsimp only at hresults hsame ⊢
      cases hresults with
      | error e => exact ⟨.error e, fun _ => ht, hsame⟩
      | ok hφ =>
        refine ⟨.ok hφ, fun _ => (ht.report _ _).withCache ?_, hsame⟩
        exact hsame.symm ▸ hcache.insert hφ key

theorem build_matches {formula : String} (hsize : formula.length < 2 ^ 28) :
    Matches True s.engine.functions (Formula.Counterpart s.engine.functions)
      (build formula s) (build formula s') := by
  unfold build
  split
  · exact ⟨.error _, fun _ => h, rfl⟩
  · exact throughCache_matches h formula fun ht => createFormula_matches ht hsize none

theorem buildWithConstants_matches {formula : String} (hsize : formula.length < 2 ^ 28)
    (constants : Bindings) :
    Matches True s.engine.functions (Formula.Counterpart s.engine.functions)
      (buildWithConstants formula constants s) (buildWithConstants formula constants s') := by
  unfold buildWithConstants
  dsimp only
  split
  · exact build_matches h hsize
  · split
    · exact ⟨.error _, fun _ => h, rfl⟩
    · exact throughCache_matches h _ fun ht => createWithConstants_matches ht hsize _

theorem calculate_matches {formula : String} (hsize : formula.length < 2 ^ 28)
    (bindings : Bindings) :
    Matches
      (∀ name, (calculate formula bindings s).1 =
          .error (.evaluation (.variableNotDefined name)) →
        (calculate formula bindings s).2.calls.Alike (· = ·) (build formula s).2.calls)
      s.engine.functions (· = ·) (calculate formula bindings s)
      (calculate formula bindings s') := by
  have hbuild := build_matches h hsize
  have hnames : s'.engine.nameError? (s.engine.normalize bindings) =
      s.engine.nameError? (s.engine.normalize bindings) := by
    rw [nameError?, nameError?, h.functions, h.constants]
  unfold calculate
  rw [normalize_eq h]
  dsimp only
  rw [hnames]
  split
  · exact ⟨.error _, fun _ => h, rfl⟩
  · split
    · exact ⟨.error _, fun _ => h, rfl⟩
    · revert hbuild
      rcases build formula s with ⟨r, t⟩
      rcases build formula s' with ⟨r', t'⟩
      rintro ⟨hresults, hstates, hsame⟩
      have ht : t.Parallels t' := hstates trivial
      dsimp only at hresults hsame ⊢
      cases hresults with
      | error e => exact ⟨.error e, fun _ => ht, hsame⟩
      | ok hφ =>
        rw [← hsame] at hφ ⊢
        exact evaluateNormalized_matches ht hφ _

theorem addFunction_matches (f : Function σ) :
    Matches True (s.engine.functions.attempt f) (· = ·) (addFunction f s) (addFunction f s') := by
  unfold addFunction
  rw [h.functions]
  dsimp only
  cases hregister : s.engine.functions.register f with
  | error e =>
    rw [Table.attempt_of_register_error hregister]
    exact ⟨.error _, fun _ => h.report _ _, rfl⟩
  | ok registered =>
    obtain ⟨replaced, next⟩ := registered
    have hnext := (h.report (s.engine.functions.registrationEvents f)
      (s.engine.functions.registrationEvents f)).attempt f
    have hattempt := Table.attempt_of_register_ok hregister
    rw [hattempt]
    have hstates : Parallels
        { s.report (s.engine.functions.registrationEvents f) with
          engine := { s.engine with functions := next } }
        { s'.report (s.engine.functions.registrationEvents f) with
          engine := { s'.engine with functions := next } } := by
      rw [← hattempt]
      exact hnext
    cases replaced with
    | true => exact ⟨.ok rfl, fun _ => hstates, rfl⟩
    | false =>
      obtain ⟨cache, hengine⟩ := clearCache_engine
        { s.report (s.engine.functions.registrationEvents f) with
          engine := { s.engine with functions := next } }
      exact ⟨.ok rfl, fun _ => hstates.clearCache, congrArg Engine.functions hengine⟩

theorem addConstant_matches (name : String) (value : Float) :
    Matches True s.engine.functions (· = ·) (addConstant name value s)
      (addConstant name value s') := by
  unfold addConstant
  rw [h.constants]
  dsimp only
  split
  · exact ⟨.error _, fun _ => h.report _ _, rfl⟩
  · rename_i constants _
    have hstates : Parallels
        { s.report (s.engine.constants.registrationEvents ⟨name, value, true⟩) with
          engine := { s.engine with constants } }
        { s'.report (s.engine.constants.registrationEvents ⟨name, value, true⟩) with
          engine := { s'.engine with constants } } :=
      ⟨h.mode, h.options, h.functions, rfl, h.cache, h.keyed, h.calls⟩
    obtain ⟨cache, hengine⟩ := clearCache_engine
      { s.report (s.engine.constants.registrationEvents ⟨name, value, true⟩) with
        engine := { s.engine with constants } }
    have hfunctions := congrArg Engine.functions hengine
    exact ⟨.ok rfl, fun _ => hstates.clearCache, hfunctions⟩

end Engine

/-- What a request has to be for the execution mode to be invisible: a program must have room for
its operands. A request that describes the engine shows the mode, of course. -/
def Request.IgnoresMode : Request σ → Prop
  | calculate formula _ | build formula | buildWithConstants formula _ => formula.length < 2 ^ 28
  | options | describe => False
  | evaluate _ _ | parse _ | addFunction _ | addConstant _ _ | functionExists _ | constantExists _
  | functions | constants | cacheContains _ | cacheGet _ | cacheClear | describeFormula _ => True

namespace Session

open Engine

/-- The state in which a request evaluates a formula, after it was built where this is asked for. -/
def readied (s : Session σ) : Request σ → EngineState σ
  | .calculate formula _ => (Engine.build formula s.state).2
  | _ => s.state

/-- Whether functions see no difference between the state before an evaluation and the one after it
if it fails for a variable without a value. -/
def LosesNothing (s : Session σ) (request : Request σ) : Prop :=
  ∀ name, (s.handle request).1 = .error (.evaluation (.variableNotDefined name)) →
    (s.handle request).2.state.calls.Alike (· = ·) (s.readied request).calls

/-- Whether two sessions differ in the execution mode, and in what follows from it for their
formulas, but in nothing else that functions can see. -/
structure Parallels (s s' : Session σ) : Prop where
  state : s.state.Parallels s'.state
  formulas : List.Forall₂ (Formula.Counterpart s.state.engine.functions) s.formulas.toList
    s'.formulas.toList

namespace Parallels

variable {s s' : Session σ}

theorem perform (h : s.Parallels s') {α : Type} {action action' : Action σ α} {lossless : Prop}
    {functions : Table (Function σ)}
    (hfunctions : ∀ φ φ' : Formula σ, φ.Counterpart s.state.engine.functions φ' →
      φ.Counterpart functions φ')
    (hmatches : Matches lossless functions (· = ·) (action s.state) (action' s'.state))
    (outcome : α → Outcome) :
    (s.perform action outcome).1 = (s'.perform action' outcome).1 ∧
      (lossless → (s.perform action outcome).2.Parallels (s'.perform action' outcome).2) := by
  obtain ⟨hresults, hstates, hsame⟩ := hmatches
  rw [perform_eq, perform_eq]
  refine ⟨?_, fun hlossless => ⟨hstates hlossless, ?_⟩⟩
  · generalize (action s.state).1 = r, (action' s'.state).1 = r' at hresults
    cases hresults with
    | ok heq => rw [heq]
    | error e => rfl
  · rw [hsame]
    exact h.formulas.imp hfunctions

theorem handOut (h : s.Parallels s') {t t' : EngineState σ} (ht : t.Parallels t')
    (hsame : t.engine.functions = s.state.engine.functions) {φ φ' : Formula σ}
    (hφ : φ.Counterpart s.state.engine.functions φ') :
    (Session.handOut { s with state := t } φ).1 = (Session.handOut { s' with state := t' } φ').1 ∧
      (Session.handOut { s with state := t } φ).2.Parallels
        (Session.handOut { s' with state := t' } φ').2 := by
  have hsize : s.formulas.size = s'.formulas.size := h.formulas.length_eq
  refine ⟨by simp only [Session.handOut, hsize], ht, ?_⟩
  simp only [Session.handOut, Array.toList_push, hsame]
  exact List.rel_append h.formulas (.cons hφ .nil)

theorem performBuild (h : s.Parallels s') {action action' : Action σ (Formula σ)}
    (hmatches : Matches True s.state.engine.functions
      (Formula.Counterpart s.state.engine.functions) (action s.state) (action' s'.state)) :
    (s.performBuild action).1 = (s'.performBuild action').1 ∧
      (s.performBuild action).2.Parallels (s'.performBuild action').2 := by
  unfold Session.performBuild
  revert hmatches
  rcases action s.state with ⟨r, t⟩
  rcases action' s'.state with ⟨r', t'⟩
  rintro ⟨hresults, hstates, hsame⟩
  have ht : t.Parallels t' := hstates trivial
  dsimp only at hresults hsame
  cases hresults with
  | ok hφ => exact h.handOut ht hsame hφ
  | error e => exact ⟨rfl, ht, hsame.symm ▸ h.formulas⟩

/-- The formulas under a handle, if there are any. -/
theorem formula_cases (h : s.Parallels s') (handle : Nat) :
    (s.formulas[handle]? = none ∧ s'.formulas[handle]? = none) ∨
      ∃ φ φ', s.formulas[handle]? = some φ ∧ s'.formulas[handle]? = some φ' ∧
        φ.Counterpart s.state.engine.functions φ' := by
  have hsize : s.formulas.toList.length = s'.formulas.toList.length := h.formulas.length_eq
  simp only [← Array.getElem?_toList]
  by_cases hhandle : handle < s.formulas.toList.length
  · have hhandle' : handle < s'.formulas.toList.length := hsize ▸ hhandle
    rw [List.getElem?_eq_getElem hhandle, List.getElem?_eq_getElem hhandle']
    exact .inr ⟨_, _, rfl, rfl, h.formulas.get hhandle hhandle'⟩
  · have hhandle' : ¬handle < s'.formulas.toList.length := hsize ▸ hhandle
    rw [List.getElem?_eq_none (Nat.le_of_not_lt hhandle),
      List.getElem?_eq_none (Nat.le_of_not_lt hhandle')]
    exact .inl ⟨rfl, rfl⟩

/-- Whatever is requested, the answer is the same in both modes. -/
theorem handle (h : s.Parallels s') {request : Request σ} (hrequest : request.IgnoresMode) :
    (s.handle request).1 = (s'.handle request).1 ∧
      (s.LosesNothing request → (s.handle request).2.Parallels (s'.handle request).2) := by
  cases request with
  | calculate formula bindings =>
    obtain ⟨hanswer, hnext⟩ :=
      h.perform (fun _ _ => id) (calculate_matches h.state hrequest bindings) .value
    refine ⟨hanswer, fun hlossless => hnext fun name hname => ?_⟩
    simp only [LosesNothing, Session.handle, perform_eq, readied] at hlossless
    exact hlossless name (by rw [hname]; rfl)
  | build formula =>
    exact (h.performBuild (build_matches h.state hrequest)).imp_right fun hnext _ => hnext
  | buildWithConstants formula constants =>
    exact (h.performBuild (buildWithConstants_matches h.state hrequest constants)).imp_right
      fun hnext _ => hnext
  | evaluate handle bindings =>
    simp only [LosesNothing, readied, Session.handle]
    rcases h.formula_cases handle with ⟨hφ, hφ'⟩ | ⟨φ, φ', hφ, hφ', hcounterpart⟩
    · rw [hφ, hφ']
      exact ⟨rfl, fun _ => h⟩
    · rw [hφ, hφ']
      obtain ⟨hanswer, hnext⟩ :=
        h.perform (fun _ _ => id) (evaluate_matches h.state hcounterpart bindings) .value
      refine ⟨hanswer, fun hlossless => hnext fun name hname => ?_⟩
      simp only [perform_eq] at hlossless
      exact hlossless name (by rw [hname]; rfl)
  | parse formula =>
    exact (h.perform (fun _ _ => id) (parse_matches h.state formula) _).imp_right
      fun hnext _ => hnext trivial
  | addFunction f =>
    exact (h.perform (fun _ _ hφ => hφ.attempt f) (addFunction_matches h.state f) _).imp_right
      fun hnext _ => hnext trivial
  | addConstant name value =>
    exact (h.perform (fun _ _ => id) (addConstant_matches h.state name value) _).imp_right
      fun hnext _ => hnext trivial
  | functionExists | functions =>
    refine ⟨?_, fun _ => h⟩
    simp only [Session.handle, tell, h.state.functions]
  | constantExists | constants =>
    refine ⟨?_, fun _ => h⟩
    simp only [Session.handle, tell, h.state.constants]
  | cacheContains key =>
    simp only [Session.handle]
    rcases h.state.cache_cases with ⟨hs, hs'⟩ | ⟨cache, cache', hs, hs', hcache⟩
    · rw [hs, hs']
      exact ⟨rfl, fun _ => h⟩
    · rw [hs, hs']
      dsimp only
      rw [← hcache.contains]
      exact ⟨rfl, fun _ => h⟩
  | cacheGet key =>
    obtain ⟨hfound, hstates, hsame⟩ := h.state.cachedFormula? key
    simp only [Session.handle]
    revert hfound hstates hsame
    rcases s.state.cachedFormula? key with ⟨found, t⟩
    rcases s'.state.cachedFormula? key with ⟨found', t'⟩
    rintro hfound ht hsame
    dsimp only at hfound ht hsame
    cases hfound with
    | some hφ => exact (h.handOut ht hsame hφ).imp_right fun hnext _ => hnext
    | none => exact ⟨rfl, fun _ => ⟨ht, hsame.symm ▸ h.formulas⟩⟩
  | cacheClear =>
    obtain ⟨cache, hengine⟩ := s.state.clearCache_engine
    have hsame := congrArg Engine.functions hengine
    refine ⟨rfl, fun _ => ⟨h.state.clearCache, ?_⟩⟩
    simp only [Session.handle, tell, hsame]
    exact h.formulas
  | describeFormula handle =>
    simp only [Session.handle]
    rcases h.formula_cases handle with ⟨hφ, hφ'⟩ | ⟨φ, φ', hφ, hφ', hcounterpart⟩
    · rw [hφ, hφ']
      exact ⟨rfl, fun _ => h⟩
    · rw [hφ, hφ']
      refine ⟨?_, fun _ => h⟩
      simp only [tell, Formula.describe, hcounterpart.caseSensitive]
  | options | describe => exact hrequest.elim

theorem answers (h : s.Parallels s') {requests : List (Request σ)} {last : Request σ}
    (hrequests : ∀ request ∈ requests ++ [last], request.IgnoresMode)
    (hlossless : s.Along LosesNothing requests) :
    s.answers (requests ++ [last]) = s'.answers (requests ++ [last]) := by
  induction requests generalizing s s' with
  | nil =>
    have hanswer := (h.handle (hrequests last (List.mem_singleton_self last))).1
    simp only [List.nil_append, Session.answers, hanswer]
  | cons request requests ih =>
    rw [List.cons_append, List.forall_mem_cons] at hrequests
    obtain ⟨hanswer, hnext⟩ := h.handle hrequests.1
    rw [List.cons_append, Session.answers, Session.answers, hanswer,
      ih (hnext hlossless.1) hrequests.2 hlossless.2]

end Parallels

theorem parallels_start {options : Options} {memory : σ} {generator : Generator}
    {state : EngineState σ}
    (h : EngineState.start { options with executionMode := .interpreted } memory generator =
      .ok state) :
    ∃ state', EngineState.start { options with executionMode := .compiled } memory generator =
        .ok state' ∧ (start state).Parallels (start state') := by
  have hvalidate : ∀ executionMode,
      ({ options with executionMode } : Options).validate = options.validate := fun _ => rfl
  unfold EngineState.start at h ⊢
  rw [hvalidate] at h ⊢
  split at h
  · cases h
  · cases h
    obtain ⟨tried, -, htable⟩ := (Table.empty options.caseSensitive).registerAll_eq_attemptAll
      (if options.defaultFunctions then (Builtin.functions : List (Function σ)) else [])
    refine ⟨_, rfl, ⟨rfl, rfl, rfl, rfl, ?_, ?_, rfl, rfl⟩, .nil⟩
    · dsimp only [start]
      cases options.cacheEnabled with
      | true => exact .some ⟨rfl, rfl, .nil⟩
      | false => exact .none
    · exact htable ▸ (Table.keyed_empty _).attemptAll tried

theorem ignoresMode_of_reordered {e : Engine σ} {request request' : Request σ}
    (h : e.Reordered request request') (hrequest : request.IgnoresMode) : request'.IgnoresMode := by
  cases h <;> exact hrequest

theorem losesNothing_of_reordered {s : Session σ} {request request' : Request σ}
    (h : s.state.engine.Reordered request request') (hlossless : s.LosesNothing request) :
    s.LosesNothing request' := by
  have hreadied : s.readied request' = s.readied request := by cases h <;> rfl
  rw [LosesNothing, handle_of_reordered h, hreadied]
  exact hlossless

/-- Two engines that differ only in the execution mode give the same answers to the same requests, up
to the first evaluation that fails for a variable without a value after functions were called that
changed what functions see. That evaluation still fails in both, for the same variable. Each engine
may even find the bindings of a request in an order of its own, if no two of their names come to the
same and one of them at most is forbidden. A session goes on until a formula makes its reading break
down, after which nothing is answered. The texts of formulas have fewer than `2 ^ 28` characters,
which is what the operands of a program can count. -/
theorem mode_invisible {options : Options} {memory : σ} {generator : Generator}
    {state : EngineState σ}
    (hstart : EngineState.start { options with executionMode := .interpreted } memory generator =
      .ok state)
    {requests requests' : List (Request σ)} {last last' : Request σ}
    (hreordered : (start state).Reordered requests requests')
    (hlast : ((start state).after requests).state.engine.Reordered last last')
    (hrequests : ∀ request ∈ requests ++ [last], request.IgnoresMode)
    (hlossless : (start state).Along LosesNothing requests) :
    ∃ state', EngineState.start { options with executionMode := .compiled } memory generator =
        .ok state' ∧
      upToBreakdown ((start state).answers (requests ++ [last])) =
        upToBreakdown ((start state').answers (requests' ++ [last'])) := by
  obtain ⟨state', hstart', hparallels⟩ := parallels_start hstart
  have hall := hreordered.append (.cons hlast (.nil _))
  have hanswers := hparallels.answers (hall.forall_mem ignoresMode_of_reordered hrequests)
    (hreordered.along losesNothing_of_reordered hlossless)
  rw [hall.answers_eq] at hanswers
  exact ⟨state', hstart', congrArg upToBreakdown hanswers⟩

theorem losesNothing_of_isOk {s : Session σ} {request : Request σ}
    (h : (s.handle request).1.isOk = true) : s.LosesNothing request := by
  intro name hname
  rw [hname] at h
  cases h

/-- A function that tells how often it was called. -/
private def tick : Function Nat :=
  ⟨⟨"tick", some 0, false, true⟩, .host fun _ n => (Float.ofNat (n + 1), n + 1)⟩

/-- An evaluation fails before anything is called and another one after a call. Bindings are found in
two orders. -/
theorem mode_invisible_tick :
    let options : Options := { defaultFunctions := false, defaultConstants := false }
    let bindings : Bindings := [("x", 2), ("y", 1)]
    let bindings' : Bindings := [("y", 1), ("x", 2)]
    let requests (bindings : Bindings) : List (Request Nat) := [.addFunction tick,
      .build "tick()+x", .calculate "y*tick()" [], .evaluate 0 bindings, .addConstant "y" 3]
    let last : Request Nat := .calculate "tick()*y-z" []
    let state : EngineState Nat := ⟨⟨{ options with executionMode := .interpreted }, .empty false,
      .empty false, some (.empty 500 50)⟩, ⟨0, ⟨[], 0⟩, []⟩,
      [.ready { options with executionMode := .interpreted } 0 0]⟩
    EngineState.start { options with executionMode := .interpreted } 0 ⟨[], 0⟩ = .ok state ∧
      (start state).Reordered (requests bindings) (requests bindings') ∧
      ((start state).after (requests bindings)).state.engine.Reordered last last ∧
      (∀ request ∈ requests bindings ++ [last], request.IgnoresMode) ∧
      (start state).Along LosesNothing (requests bindings) ∧
      (∃ state', EngineState.start { options with executionMode := .compiled } 0 ⟨[], 0⟩ =
          .ok state' ∧
        upToBreakdown ((start state).answers (requests bindings ++ [last])) =
          upToBreakdown ((start state').answers (requests bindings' ++ [last]))) ∧
      (upToBreakdown ((start state).answers (requests bindings ++ [last]))).map
          Except.isOk =
        [true, true, false, true, true, false] := by
  intro options bindings bindings' requests last state
  have hstart : EngineState.start { options with executionMode := .interpreted } 0 ⟨[], 0⟩ =
      .ok state := rfl
  have hreordered : (start state).Reordered (requests bindings) (requests bindings') := by
    iterate 3 refine .cons (.same _) ?_
    refine .cons (.evaluate 0 ?_ ?_) (.refl _ _) <;> decide +kernel
  have hlast : ((start state).after (requests bindings)).state.engine.Reordered last last :=
    .same last
  have hrequests : ∀ request ∈ requests bindings ++ [last], request.IgnoresMode := by
    simp only [requests, last, List.cons_append, List.nil_append, List.forall_mem_cons,
      Request.IgnoresMode]
    exact ⟨trivial, by decide, by decide, trivial, trivial, by decide, List.forall_mem_nil _⟩
  have hlossless : (start state).Along LosesNothing (requests bindings) := by
    refine ⟨losesNothing_of_isOk ?_, losesNothing_of_isOk ?_, fun _ _ => ⟨?_, ?_⟩,
      losesNothing_of_isOk ?_, losesNothing_of_isOk ?_, trivial⟩ <;> decide +kernel
  exact ⟨hstart, hreordered, hlast, hrequests, hlossless,
    mode_invisible hstart hreordered hlast hrequests hlossless, by decide +kernel⟩

/-- An engine that walks over trees has called a function when it misses a variable. -/
theorem mode_shown_tick :
    let options : Options := { defaultFunctions := false, defaultConstants := false }
    let requests : List (Request Nat) :=
      [.addFunction tick, .calculate "tick()+x" [], .calculate "tick()" []]
    let engine (executionMode : ExecutionMode) : EngineState Nat :=
      ⟨⟨{ options with executionMode }, .empty false, .empty false, some (.empty 500 50)⟩,
        ⟨0, ⟨[], 0⟩, []⟩, [.ready { options with executionMode } 0 0]⟩
    (∀ executionMode,
        EngineState.start { options with executionMode } 0 ⟨[], 0⟩ = .ok (engine executionMode)) ∧
      (start (engine .interpreted)).answers requests ≠
        (start (engine .compiled)).answers requests := by
  intro options requests engine
  refine ⟨fun _ => rfl, fun hsame => ?_⟩
  have hwalked : values ((start (engine .interpreted)).answers requests) = [2] := by decide +kernel
  have hran : values ((start (engine .compiled)).answers requests) = [1] := by decide +kernel
  rw [hsame, hran] at hwalked
  exact absurd hwalked (by decide +kernel)

end Session

end FormulaEngine
