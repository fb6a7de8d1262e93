import FormulaEngine.Proofs.BindingOrder
import FormulaEngine.Proofs.CreatedFormulas

/-!
The cache is invisible. An engine with a cache answers every request like an engine without one:
what it finds in its cache does what a formula made at that moment would do. New functions and
constants empty the cache, and the replacement of a function leaves no formula behind that does
something else.
-/
namespace FormulaEngine

variable {σ : Type}

/-- Two results that are the same error, or two values that a relation holds of. -/
inductive Agree {ε α : Type} (P : α → α → Prop) : Except ε α → Except ε α → Prop
  | ok {x x' : α} (h : P x x') : Agree P (.ok x) (.ok x')
  | error (e : ε) : Agree P (.error e) (.error e)

theorem Agree.of_eq {ε α : Type} (result : Except ε α) : Agree (· = ·) result result := by
  cases result with
  | ok x => exact .ok rfl
  | error e => exact .error e

/-- Whether a formula does what the formula made from a source would do now. -/
def Engine.Stands (e : Engine σ) (source : Source) (φ : Formula σ) : Prop :=
  ∃ φ', e.ComesTo source.create (.ok φ') ∧ φ.Interchangeable e.functions φ'

namespace EngineState

/-- Whether a state and one without a cache are the same for everything but the cache, in which no
formula is out of date. -/
structure Mirrors (values : List Float) (s s' : EngineState σ) : Prop where
  engine : s'.engine = s.engine.uncached
  calls : s.calls.Alike (· = ·) s'.calls
  sound : s.engine.functions.Sound
  cached : ∀ cache, s.engine.cache = some cache → ∀ entry ∈ cache.entries,
    ∀ source : Source, source.Readable values → source.key = entry.1 →
      s.engine.uncached.Stands source entry.2

variable {values : List Float} {s s' t t' : EngineState σ}

namespace Mirrors

theorem functions (h : s.Mirrors values s') : s'.engine.functions = s.engine.functions := by
  rw [h.engine]
  rfl

theorem constants (h : s.Mirrors values s') : s'.engine.constants = s.engine.constants := by
  rw [h.engine]
  rfl

theorem uncached (h : s.Mirrors values s') : s'.engine.uncached = s.engine.uncached := by
  rw [h.engine]
  rfl

theorem cache (h : s.Mirrors values s') : s'.engine.cache = none := by
  rw [h.engine]
  rfl

theorem unchanged (h : s.Mirrors values s') (ht : s.Unchanged t) (ht' : s'.Unchanged t') :
    t.Mirrors values t' where
  engine := by rw [ht'.engine, ht.engine, h.engine]
  calls :=
    ⟨(ht.calls.memory.trans h.calls.memory).trans ht'.calls.memory.symm,
      (ht.calls.generator.trans h.calls.generator).trans ht'.calls.generator.symm⟩
  sound := by
    rw [ht.engine]
    exact h.sound
  cached := by
    rw [ht.engine]
    exact h.cached

theorem withCache (h : s.Mirrors values s') {cache : Cache (Formula σ)}
    (hcache : ∀ entry ∈ cache.entries, ∀ source : Source, source.Readable values →
      source.key = entry.1 → s.engine.uncached.Stands source entry.2) :
    (s.withCache cache).Mirrors values s' where
  engine := h.engine
  calls := h.calls
  sound := h.sound
  cached := by
    rintro _ ⟨⟩
    exact hcache

theorem clearCache (h : s.Mirrors values s') : s.clearCache.Mirrors values s'.clearCache := by
  have hnone : s'.clearCache = s' := by
    rw [EngineState.clearCache, h.cache]
  rw [hnone]
  unfold EngineState.clearCache
  split
  · exact h
  · exact (h.unchanged (.report s _) (.refl s')).withCache nofun

/-- An engine without entries in its cache takes on other functions or constants. -/
theorem clearCache_of_engine {e : Engine σ} (h : s.Mirrors values s')
    (hsound : e.functions.Sound) :
    ({ s with engine := e }.clearCache).Mirrors values
      { s' with engine := e.uncached }.clearCache := by
  have hnone : ({ s' with engine := e.uncached } : EngineState σ).clearCache =
      { s' with engine := e.uncached } := rfl
  rw [hnone]
  unfold EngineState.clearCache
  split
  · rename_i hcache
    refine ⟨rfl, h.calls, hsound, fun cache hsome => ?_⟩
    cases hcache.symm.trans hsome
  · refine ⟨rfl, h.calls, hsound, fun cache hsome => ?_⟩
    cases hsome
    nofun

end Mirrors

end EngineState

namespace Engine

open EngineState

/-- Whether an action on a state with a cache and an action on one without agree, and lead to such
states again. -/
structure Agrees {α : Type} (values : List Float) (functions : Table (Function σ))
    (P : α → α → Prop) (r r' : Except CalculationError α × EngineState σ) : Prop where
  results : Agree P r.1 r'.1
  states : r.2.Mirrors values r'.2
  functions_eq : r.2.engine.functions = functions

variable {values : List Float} {s s' : EngineState σ} (h : s.Mirrors values s')
include h

theorem ComesTo.agrees {α : Type} {action : Action σ α} {result : Except CalculationError α}
    (haction : s.engine.uncached.ComesTo action result) :
    Agrees values s.engine.functions (· = ·) (action s) (action s') := by
  obtain ⟨t, hresult, ht⟩ := haction s rfl
  obtain ⟨t', hresult', ht'⟩ := haction s' h.uncached
  rw [hresult, hresult']
  exact ⟨.of_eq result, h.unchanged ht ht', congrArg Engine.functions ht.engine⟩

theorem evaluateNormalized_agrees {φ φ' : Formula σ}
    (hφ : φ.Interchangeable s.engine.functions φ') (bindings : Bindings) :
    Agrees values s.engine.functions (· = ·) (evaluateNormalized φ bindings s)
      (evaluateNormalized φ' bindings s') := by
  let scope : Scope σ := ⟨s.engine.functions, φ.ownConstants.getD s.engine.constants, bindings⟩
  obtain ⟨hresult, halike⟩ := φ.evaluator.evaluate_same scope h.calls
  have hsame : φ'.evaluator.evaluate scope = φ.evaluator.evaluate scope :=
    (hφ.evaluate [] _ bindings).symm
  unfold evaluateNormalized
  rw [h.functions, h.constants, ← hφ.ownConstants]
  change Agrees values s.engine.functions (· = ·)
    (Except.mapError _ (φ.evaluator.evaluate scope s.calls).1,
      { s with calls := (φ.evaluator.evaluate scope s.calls).2 })
    (Except.mapError _ (φ'.evaluator.evaluate scope s'.calls).1,
      { s' with calls := (φ'.evaluator.evaluate scope s'.calls).2 })
  rw [hsame, hresult]
  exact ⟨.of_eq _, ⟨h.engine, halike, h.sound, h.cached⟩, rfl⟩

/-- A formula found in the cache stands for the one that is made without a cache, and a formula that
is made is kept under a key that belongs to no other source. -/
theorem throughCache_agrees
    (hvalues : ∀ x ∈ values, ∀ y ∈ values,
      Decimal.Notation.plain.text x = Decimal.Notation.plain.text y → x = y)
    {source : Source} (hsource : source.Readable values) :
    Agrees values s.engine.functions (Formula.Interchangeable s.engine.functions)
      (throughCache source.key source.create s) (throughCache source.key source.create s') := by
  have hinterchangeable : ∀ {r r' : Except CalculationError (Formula σ) × EngineState σ},
      Agrees values s.engine.functions (· = ·) r r' →
        Agrees values s.engine.functions (Formula.Interchangeable s.engine.functions) r r' := by
    rintro ⟨r, t⟩ ⟨r', t'⟩ ⟨hresults, hstates, hfunctions⟩
    refine ⟨?_, hstates, hfunctions⟩
    cases hresults with
    | ok heq => exact .ok (heq ▸ .refl _)
    | error e => exact .error e
  have hwithout : throughCache source.key source.create s' = source.create s' := by
    rw [throughCache, h.cache]
  rw [hwithout]
  unfold throughCache
  split
  · exact hinterchangeable (ComesTo.agrees h (source.create_comesTo h.sound rfl))
  · rename_i cache hcache
    have hmissed : s.Unchanged
        (if cache.contains source.key then s else s.report [.cacheMiss source.key]) := by
      split
      · exact .refl s
      · exact .report s _
    generalize (if cache.contains source.key then s else s.report [.cacheMiss source.key]) = missed
      at hmissed ⊢
    have hmirrors := h.unchanged hmissed (.refl s')
    have hcomes : missed.engine.uncached.ComesTo source.create (source.create missed).1 :=
      source.create_comesTo hmirrors.sound rfl
    rw [← hmissed.engine] at hcache ⊢
    have hentries := hmirrors.cached cache hcache
    dsimp only
    rcases cache.getOrCreate_cases source.key source.create missed with
      ⟨φ, touched, hresult, hmem, htouched⟩ | ⟨φ, t, hmade, hresult⟩ | ⟨e, t, hmade, hresult⟩
    · obtain ⟨φ', hcomes', hφ⟩ := hentries _ hmem source hsource rfl
      obtain ⟨t', hresult', ht'⟩ := hcomes' s' hmirrors.uncached
      rw [hresult, hresult']
      refine ⟨.ok hφ, (hmirrors.unchanged (.report missed _) ht').withCache ?_, rfl⟩
      exact fun entry hentry => hentries entry (htouched entry hentry)
    · rw [hmade] at hcomes
      obtain ⟨t₁, hmade₁, ht⟩ := hcomes missed rfl
      obtain ⟨t', hresult', ht'⟩ := hcomes s' hmirrors.uncached
      obtain rfl : t₁ = t := congrArg Prod.snd (hmade₁.symm.trans hmade)
      have hmade' := (hmirrors.unchanged ht ht').unchanged
        (.report t₁ (cache.insertionEvents source.key)) (.refl t')
      have hfunctions := congrArg Engine.functions ht.engine
      rw [hresult, hresult']
      refine ⟨.ok (.refl φ), hmade'.withCache ?_, hfunctions⟩
      intro entry hentry other hother hkey
      change t₁.engine.uncached.Stands other entry.2
      rw [ht.engine]
      rcases Cache.mem_insert hentry with rfl | hentry
      · obtain rfl := Source.eq_of_key_eq hvalues hother hsource hkey
        exact ⟨φ, hcomes, .refl φ⟩
      · exact hentries entry hentry other hother hkey
    · rw [hmade] at hcomes
      obtain ⟨t₁, hmade₁, ht⟩ := hcomes missed rfl
      obtain ⟨t', hresult', ht'⟩ := hcomes s' hmirrors.uncached
      obtain rfl : t₁ = t := congrArg Prod.snd (hmade₁.symm.trans hmade)
      rw [hresult, hresult']
      exact ⟨.error e, hmirrors.unchanged ht ht', congrArg Engine.functions ht.engine⟩

section Building

variable (hvalues : ∀ x ∈ values, ∀ y ∈ values,
  Decimal.Notation.plain.text x = Decimal.Notation.plain.text y → x = y)
include hvalues

theorem build_agrees {formula : String} (hformula : '@' ∉ formula.toList) :
    Agrees values s.engine.functions (Formula.Interchangeable s.engine.functions)
      (build formula s) (build formula s') := by
  unfold build
  split
  · exact ⟨.error _, h, rfl⟩
  · have hsource : (Source.plain formula).Readable values := hformula
    exact throughCache_agrees h hvalues hsource

theorem buildWithConstants_agrees {formula : String} {constants : Bindings}
    (hformula : constants = [] → '@' ∉ formula.toList)
    (hconstants : ∀ constant ∈ constants, Text.isName constant.1 = true ∧ constant.2 ∈ values) :
    Agrees values s.engine.functions (Formula.Interchangeable s.engine.functions)
      (buildWithConstants formula constants s) (buildWithConstants formula constants s') := by
  unfold buildWithConstants
  dsimp only
  split
  · rename_i hempty
    exact build_agrees h hvalues (hformula (List.isEmpty_iff.mp hempty))
  · split
    · exact ⟨.error _, h, rfl⟩
    · have hsource : (Source.withConstants formula
          (constants.mergeSort fun a b => a.1 ≤ b.1)).Readable values :=
        fun constant hconstant => hconstants constant (List.mem_mergeSort.mp hconstant)
      exact throughCache_agrees h hvalues hsource

theorem calculate_agrees {formula : String} (hformula : '@' ∉ formula.toList)
    (bindings : Bindings) :
    Agrees values s.engine.functions (· = ·) (calculate formula bindings s)
      (calculate formula bindings s') := by
  have hnormalize : s'.engine.normalize bindings = s.engine.normalize bindings := by
    rw [h.engine]
    rfl
  have hcheck : s'.engine.nameError? (s.engine.normalize bindings) =
      s.engine.nameError? (s.engine.normalize bindings) := by
    rw [h.engine]
    rfl
  unfold calculate
  dsimp only
  rw [hnormalize, hcheck]
  split
  · exact ⟨.error _, h, rfl⟩
  split
  · exact ⟨.error _, h, rfl⟩
  · have hbuild := build_agrees h hvalues hformula
    revert hbuild
    rcases build formula s with ⟨r, t⟩
    rcases build formula s' with ⟨r', t'⟩
    rintro ⟨hresults, hstates, hfunctions⟩
    dsimp only at hresults hstates hfunctions
    cases hresults with
    | error e => exact ⟨.error e, hstates, hfunctions⟩
    | ok hφ =>
      rw [← hfunctions] at hφ ⊢
      exact evaluateNormalized_agrees hstates hφ _

end Building

theorem evaluate_agrees {φ φ' : Formula σ} (hφ : φ.Interchangeable s.engine.functions φ')
    (bindings : Bindings) :
    Agrees values s.engine.functions (· = ·) (evaluate φ bindings s) (evaluate φ' bindings s') := by
  have hnormalize : s'.engine.normalize bindings = s.engine.normalize bindings := by
    rw [h.engine]
    rfl
  unfold evaluate
  rw [hnormalize]
  exact evaluateNormalized_agrees h hφ _

theorem addConstant_agrees (name : String) (value : Float) :
    Agrees values s.engine.functions (· = ·) (addConstant name value s)
      (addConstant name value s') := by
  have hengine := h.engine
  unfold addConstant
  dsimp only
  rw [h.constants]
  split
  · exact ⟨.error _, h.unchanged (.report s _) (.report s' _), rfl⟩
  · rename_i registered constants _
    have hreported := h.unchanged
      (.report s (s.engine.constants.registrationEvents ⟨name, value, true⟩))
      (.report s' (s.engine.constants.registrationEvents ⟨name, value, true⟩))
    have hcleared := hreported.clearCache_of_engine (e := { s.engine with constants }) h.sound
    rw [hengine]
    refine ⟨.ok rfl, hcleared, ?_⟩
    unfold EngineState.clearCache
    split <;> rfl

/-- A replaced function leaves the cache as it is: a formula made before does what one made
afterwards would do. -/
theorem addFunction_agrees {f : Function σ}
    (hf : f.overwritable = false → f.idempotent = true → f.Steady (· = ·))
    (hopen : s.engine.options.optimizerEnabled = true →
      s.engine.functions.admission f = .ok true → f.overwritable = true) :
    Agrees values (s.engine.functions.attempt f) (· = ·) (addFunction f s) (addFunction f s') := by
  have hengine := h.engine
  have hreported := h.unchanged (.report s (s.engine.functions.registrationEvents f))
    (.report s' (s.engine.functions.registrationEvents f))
  unfold addFunction
  dsimp only
  rw [h.functions]
  cases hregister : s.engine.functions.register f with
  | error e =>
    rw [Table.attempt_of_register_error hregister]
    exact ⟨.error _, hreported, rfl⟩
  | ok registered =>
    obtain ⟨replaced, later⟩ := registered
    have hlater : later.Sound := Table.attempt_of_register_ok hregister ▸ h.sound.attempt hf
    rw [Table.attempt_of_register_ok hregister, hengine]
    cases replaced with
    | false =>
      refine ⟨.ok rfl, hreported.clearCache_of_engine (e := { s.engine with functions := later })
        hlater, ?_⟩
      simp only [Bool.false_eq_true, if_false]
      unfold EngineState.clearCache
      split <;> rfl
    | true =>
      have hadmission : s.engine.functions.admission f = .ok true := by
        unfold Table.register at hregister
        split at hregister
        · cases hregister
        · rename_i hadmission
          cases hregister
          exact hadmission
      refine ⟨.ok rfl, ⟨rfl, h.calls, hlater, ?_⟩, rfl⟩
      intro cache hcache entry hentry source hsource hkey
      obtain ⟨φ, hcomes, hφ⟩ := h.cached cache hcache entry hentry source hsource hkey
      let next : EngineState σ := { s with engine := { s.engine with functions := later } }
      have hnext : next.engine.uncached = { s.engine.uncached with functions := later } := rfl
      obtain ⟨φ', hcomes', hφ'⟩ := source.create_replaced (e := s.engine.uncached) h.sound
        hregister (fun hfolding => hopen hfolding hadmission) hlater rfl hcomes hnext
      have hlater' := hφ.attempt f
      dsimp only [uncached] at hlater'
      rw [Table.attempt_of_register_ok hregister] at hlater'
      exact ⟨φ', hcomes', hlater'.trans hφ'⟩

end Engine

/-- What a request has to be for the cache to be invisible, with constants among the given values.
The texts that are kept under themselves must not look like those with constants, nor may the
names of constants; functions that may be called while a formula is made must be steady. A request
for the cache itself can see it, of course, and so can one that describes the engine. -/
def Request.IgnoresCache (values : List Float) : Request σ → Prop
  | calculate formula _ | build formula => '@' ∉ formula.toList
  | buildWithConstants formula entries => (entries = [] → '@' ∉ formula.toList) ∧
    ∀ entry ∈ entries, Text.isName entry.1 = true ∧ entry.2 ∈ values
  | addFunction f => f.overwritable = false → f.idempotent = true → f.Steady (· = ·)
  | evaluate _ _ | parse _ | addConstant _ _ | cacheClear | functionExists _ | constantExists _
  | functions | constants => True
  | cacheContains _ | cacheGet _ | options | describe | describeFormula _ => False

namespace Session

open Engine

/-- Whether a request replaces no function by one that cannot be overwritten, where formulas are
folded. -/
def KeepsOpen (s : Session σ) (request : Request σ) : Prop :=
  ∀ f, request = .addFunction f → s.state.engine.options.optimizerEnabled = true →
    s.state.engine.functions.admission f = .ok true → f.overwritable = true

/-- Whether a session and one without a cache are the same for everything but the cache: also the
formulas handed out do the same. -/
structure Mirrors (values : List Float) (s s' : Session σ) : Prop where
  state : s.state.Mirrors values s'.state
  formulas : List.Forall₂ (Formula.Interchangeable s.state.engine.functions) s.formulas.toList
    s'.formulas.toList

variable {values : List Float} {s s' : Session σ}

namespace Mirrors

theorem perform (h : s.Mirrors values s') {α : Type} {action action' : Action σ α}
    {functions : Table (Function σ)}
    (hfunctions : ∀ φ φ' : Formula σ, φ.Interchangeable s.state.engine.functions φ' →
      φ.Interchangeable functions φ')
    (hagrees : Agrees values functions (· = ·) (action s.state) (action' s'.state))
    (outcome : α → Outcome) :
    (s.perform action outcome).1 = (s'.perform action' outcome).1 ∧
      (s.perform action outcome).2.Mirrors values (s'.perform action' outcome).2 := by
  unfold Session.perform
  revert hagrees
  rcases action s.state with ⟨r, t⟩
  rcases action' s'.state with ⟨r', t'⟩
  rintro ⟨hresults, hstates, hsame⟩
  dsimp only at hresults hstates hsame
  have hformulas := h.formulas.imp hfunctions
  rw [← hsame] at hformulas
  cases hresults with
  | ok heq => exact ⟨by rw [heq], hstates, hformulas⟩
  | error e => exact ⟨rfl, hstates, hformulas⟩

theorem performBuild (h : s.Mirrors values s') {action action' : Action σ (Formula σ)}
    (hagrees : Agrees values s.state.engine.functions
      (Formula.Interchangeable s.state.engine.functions) (action s.state) (action' s'.state)) :
    (s.performBuild action).1 = (s'.performBuild action').1 ∧
      (s.performBuild action).2.Mirrors values (s'.performBuild action').2 := by
  unfold Session.performBuild
  revert hagrees
  rcases action s.state with ⟨r, t⟩
  rcases action' s'.state with ⟨r', t'⟩
  rintro ⟨hresults, hstates, hsame⟩
  dsimp only at hresults hstates hsame
  have hformulas := h.formulas
  rw [← hsame] at hresults hformulas
  cases hresults with
  | ok hφ =>
    have hsize : s.formulas.size = s'.formulas.size := hformulas.length_eq
    refine ⟨by simp only [handOut, hsize], hstates, ?_⟩
    simp only [handOut, Array.toList_push]
    exact List.rel_append hformulas (.cons hφ .nil)
  | error e => exact ⟨rfl, hstates, hformulas⟩

theorem evaluate (h : s.Mirrors values s') (handle : Nat) (bindings : Bindings) :
    (s.handle (.evaluate handle bindings)).1 = (s'.handle (.evaluate handle bindings)).1 ∧
      (s.handle (.evaluate handle bindings)).2.Mirrors values
        (s'.handle (.evaluate handle bindings)).2 := by
  have hsize : s.formulas.toList.length = s'.formulas.toList.length := h.formulas.length_eq
  simp only [Session.handle, ← Array.getElem?_toList]
  by_cases hhandle : handle < s.formulas.toList.length
  · have hhandle' : handle < s'.formulas.toList.length := hsize ▸ hhandle
    rw [List.getElem?_eq_getElem hhandle, List.getElem?_eq_getElem hhandle']
    exact h.perform (fun _ _ => id)
      (evaluate_agrees h.state (h.formulas.get hhandle hhandle') bindings) _
  · have hhandle' : ¬handle < s'.formulas.toList.length := hsize ▸ hhandle
    rw [List.getElem?_eq_none (Nat.le_of_not_lt hhandle),
      List.getElem?_eq_none (Nat.le_of_not_lt hhandle')]
    exact ⟨rfl, h⟩

/-- Whatever is requested, the answer is the same with and without a cache. -/
theorem handle
    (hvalues : ∀ x ∈ values, ∀ y ∈ values,
      Decimal.Notation.plain.text x = Decimal.Notation.plain.text y → x = y)
    (h : s.Mirrors values s') {request : Request σ} (hrequest : request.IgnoresCache values)
    (hopen : s.KeepsOpen request) :
    (s.handle request).1 = (s'.handle request).1 ∧
      (s.handle request).2.Mirrors values (s'.handle request).2 := by
  cases request with
  | calculate formula bindings =>
    exact h.perform (fun _ _ => id) (calculate_agrees h.state hvalues hrequest bindings) _
  | build formula => exact h.performBuild (build_agrees h.state hvalues hrequest)
  | buildWithConstants formula constants =>
    exact h.performBuild (buildWithConstants_agrees h.state hvalues hrequest.1 hrequest.2)
  | evaluate handle bindings => exact h.evaluate handle bindings
  | parse formula =>
    have hcomes : s.state.engine.uncached.ComesTo (Engine.parse formula) _ :=
      parse_comesTo (e := s.state.engine.uncached) h.state.sound rfl formula
    exact h.perform (fun _ _ => id) (hcomes.agrees h.state) _
  | addFunction f =>
    exact h.perform (fun _ _ hφ => hφ.attempt f)
      (addFunction_agrees h.state hrequest (hopen f rfl)) _
  | addConstant name value =>
    exact h.perform (fun _ _ => id) (addConstant_agrees h.state name value) _
  | cacheClear =>
    have hfunctions : s.state.clearCache.engine.functions = s.state.engine.functions := by
      unfold EngineState.clearCache
      split <;> rfl
    refine ⟨rfl, h.state.clearCache, ?_⟩
    simp only [Session.handle, tell, hfunctions]
    exact h.formulas
  | functionExists | functions =>
    refine ⟨?_, h⟩
    simp only [Session.handle, tell, h.state.functions]
  | constantExists | constants =>
    refine ⟨?_, h⟩
    simp only [Session.handle, tell, h.state.constants]
  | cacheContains | cacheGet | options | describe | describeFormula => exact hrequest.elim

theorem answers
    (hvalues : ∀ x ∈ values, ∀ y ∈ values,
      Decimal.Notation.plain.text x = Decimal.Notation.plain.text y → x = y)
    (h : s.Mirrors values s') {requests : List (Request σ)}
    (hrequests : ∀ request ∈ requests, request.IgnoresCache values)
    (hopen : s.Along KeepsOpen requests) : s.answers requests = s'.answers requests := by
  induction requests generalizing s s' with
  | nil => rfl
  | cons request requests ih =>
    rw [List.forall_mem_cons] at hrequests
    obtain ⟨hanswer, hnext⟩ := h.handle hvalues hrequests.1 hopen.1
    rw [Session.answers, Session.answers, hanswer, ih hnext hrequests.2 hopen.2]

end Mirrors

end Session

end FormulaEngine
