import FormulaEngine.Proofs.BindingOrder
import FormulaEngine.Proofs.StableFormulas

/-!
Engines that do not tell large letters from small ones. Two formulas that differ in letter case are
built into the same, and are evaluated alike with bindings that give the same values to the same
names. This goes on for as long as the engine is used, since neither its tables nor its options ever
change their view of letter case, and an engine without a cache never gets one.
-/
namespace FormulaEngine

variable {σ : Type}

namespace Engine

/-- Whether letter case matters neither to the names nor to the punctuation of an engine, and it
keeps no formulas, which it would find under their very text. -/
structure IgnoresCase (e : Engine σ) : Prop where
  options : e.options.caseSensitive = false
  functions : e.functions.caseSensitive = false
  constants : e.constants.caseSensitive = false
  decimal : e.options.locale.decimalSeparator.isAlpha = false
  argument : e.options.locale.argumentSeparator.isAlpha = false
  cache : e.cache = none

section Uncached

variable {s : EngineState σ} (hcache : s.engine.cache = none)
include hcache

theorem build_engine_of_uncached (formula : String) :
    (build formula s).2.engine = s.engine := by
  rw [build_of_uncached hcache]
  split
  · rfl
  · exact (createFormula_keepsEngine formula none).engine s

theorem buildWithConstants_engine_of_uncached (formula : String) (constants : Bindings) :
    (buildWithConstants formula constants s).2.engine = s.engine := by
  unfold buildWithConstants
  dsimp only
  split
  · exact build_engine_of_uncached hcache formula
  split
  · rfl
  · rw [throughCache_of_uncached hcache]
    exact (createWithConstants_keepsEngine formula _).engine s

theorem calculate_engine_of_uncached (formula : String) (bindings : Bindings) :
    (calculate formula bindings s).2.engine = s.engine := by
  unfold calculate
  dsimp only
  split
  · rfl
  split
  · rfl
  · have hbuild := build_engine_of_uncached hcache formula
    revert hbuild
    rcases build formula s with ⟨e | φ, s'⟩ <;> exact id

theorem clearCache_of_uncached : s.clearCache = s := by
  unfold EngineState.clearCache
  rw [hcache]

theorem clearCache_cache_of_uncached : s.clearCache.engine.cache = none := by
  rw [clearCache_of_uncached hcache, hcache]

theorem addFunction_cache_of_uncached (f : Function σ) :
    (addFunction f s).2.engine.cache = none := by
  unfold addFunction
  dsimp only
  split
  · exact hcache
  split
  · exact hcache
  · exact clearCache_cache_of_uncached hcache

theorem addConstant_cache_of_uncached (name : String) (value : Float) :
    (addConstant name value s).2.engine.cache = none := by
  unfold addConstant
  dsimp only
  split
  · exact hcache
  · exact clearCache_cache_of_uncached hcache

end Uncached

end Engine

namespace Session

open Engine

/-- An engine without a cache never gets one. -/
theorem handle_cache_of_uncached {s : Session σ} (h : s.state.engine.cache = none)
    (request : Request σ) : (s.handle request).2.state.engine.cache = none := by
  cases request with
  | calculate formula bindings =>
    simp only [Session.handle, perform_eq]
    rw [calculate_engine_of_uncached h, h]
  | build formula =>
    simp only [Session.handle, performBuild_state]
    rw [build_engine_of_uncached h, h]
  | buildWithConstants formula constants =>
    simp only [Session.handle, performBuild_state]
    rw [buildWithConstants_engine_of_uncached h, h]
  | evaluate handle bindings =>
    simp only [Session.handle]
    split
    · rw [perform_eq]
      exact h
    · exact h
  | parse formula =>
    simp only [Session.handle, perform_eq]
    rw [(parse_keepsEngine formula).engine, h]
  | addFunction f =>
    simp only [Session.handle, perform_eq]
    exact addFunction_cache_of_uncached h f
  | addConstant name value =>
    simp only [Session.handle, perform_eq]
    exact addConstant_cache_of_uncached h name value
  | cacheGet key =>
    simp only [Session.handle, EngineState.cachedFormula?, h]
    exact h
  | cacheClear =>
    simp only [Session.handle, clearCache_of_uncached h]
    exact h
  | cacheContains | describeFormula =>
    simp only [Session.handle]
    split <;> exact h
  | functionExists | constantExists | functions | constants | options | describe => exact h

theorem ignoresCase_handle {s : Session σ} (h : s.state.engine.IgnoresCase) (request : Request σ) :
    (s.handle request).2.state.engine.IgnoresCase := by
  have hcache := handle_cache_of_uncached h.cache request
  obtain ⟨cache, hengine⟩ := s.handle_engine request
  rw [hengine] at hcache ⊢
  exact ⟨h.options, (Table.caseSensitive_attemptAll _ _).trans h.functions,
    (Table.caseSensitive_attemptAll _ _).trans h.constants, h.decimal, h.argument, hcache⟩

theorem ignoresCase_start {options : Options} {memory : σ} {generator : Generator}
    {state : EngineState σ} (h : EngineState.start options memory generator = .ok state)
    (hcase : options.caseSensitive = false) (hcache : options.cacheEnabled = false)
    (hdecimal : options.locale.decimalSeparator.isAlpha = false)
    (hargument : options.locale.argumentSeparator.isAlpha = false) :
    state.engine.IgnoresCase := by
  have hnew := EngineState.isNew_of_start h
  obtain ⟨functions, -, hfunctions⟩ := hnew.functions
  obtain ⟨constants, -, hconstants⟩ := hnew.constants
  refine ⟨by rwa [hnew.options], ?_, ?_, by rwa [hnew.options], by rwa [hnew.options], ?_⟩
  · rw [hfunctions, Table.caseSensitive_attemptAll]
    exact hcase
  · rw [hconstants, Table.caseSensitive_attemptAll]
    exact hcase
  · rw [hnew.cache, hcache]
    rfl

end Session

/-- A complaint with what it quotes of a formula in small letters. -/
def CalculationError.lowered : CalculationError → CalculationError
  | .parse e => .parse (Respelling.lowering.error e)
  | e => e

namespace Engine

/-- Whether two answers are alike: they are the same result, or they are complaints of one kind
about the same stretch of text, which may quote it in different letter case. The states that they
come with differ in what was reported at most. -/
inductive SameAnswer {α : Type} :
    Except CalculationError α × EngineState σ → Except CalculationError α × EngineState σ → Prop
  | result (x : α) {s s' : EngineState σ} (state : s.Untouched s') :
      SameAnswer (.ok x, s) (.ok x, s')
  | complaint {e e' : CalculationError} (complaint : e'.lowered = e.lowered)
      {s s' : EngineState σ} (state : s.Untouched s') : SameAnswer (.error e, s) (.error e', s')

theorem SameAnswer.refl {α : Type} (answer : Except CalculationError α × EngineState σ) :
    SameAnswer answer answer := by
  obtain ⟨e | x, s⟩ := answer
  · exact .complaint rfl (.refl s)
  · exact .result x (.refl s)

section Formulas

variable {formula formula' : String} (hformula : formula'.toLower = formula.toLower)
include hformula

theorem isBlankText_eq : Text.isBlankText formula'.toList = Text.isBlankText formula.toList := by
  have hlower : ∀ text : String,
      Text.isBlankText text.toLower.toList = Text.isBlankText text.toList := by
    intro text
    rw [String.toLower, String.toList_map, Text.isBlankText, Text.isBlankText, List.all_map]
    exact congrArg _ (funext Text.isBlank_toLower)
  rw [← hlower formula', ← hlower formula, hformula]

variable {s : EngineState σ} (h : s.engine.IgnoresCase)
include h

/-- Formulas that differ in letter case have one tree, or are refused for the same reason. -/
theorem tree_parse_eq :
    (Tree.parse s.engine.options.locale (s.engine.vocabulary s.engine.constants) formula').mapError
        Respelling.lowering.error =
      (Tree.parse s.engine.options.locale (s.engine.vocabulary s.engine.constants) formula).mapError
        Respelling.lowering.error := by
  have hfits := Respelling.fits_lowering h.decimal h.argument
  have hrespects : Respelling.lowering.Respects (s.engine.vocabulary s.engine.constants) := by
    refine ⟨fun name => ?_, fun name => ?_, fun name => ?_⟩
    · exact congrArg (Option.map _) (Table.get?_toLower h.functions name)
    · exact congrArg (Option.map _) (Table.get?_toLower h.constants name)
    · simp only [Vocabulary.variableName, vocabulary, Vocabulary.ofTables, h.options, Text.nameKey,
        Bool.false_eq_true, if_false]
      exact Text.lower_toLower name
  rw [← hfits.parse hrespects, ← hfits.parse hrespects]
  exact congrArg (Tree.parse _ _) hformula

theorem parse_cases_of_toLower_eq :
    parse formula' s = parse formula s ∨
    ∃ e e', parse formula s = (.error e, s) ∧ parse formula' s = (.error e', s) ∧
      e'.lowered = e.lowered := by
  have hparse := tree_parse_eq hformula h
  unfold parse parseWith
  revert hparse
  cases Tree.parse s.engine.options.locale (s.engine.vocabulary s.engine.constants) formula with
  | error e =>
    cases Tree.parse s.engine.options.locale (s.engine.vocabulary s.engine.constants) formula' with
    | error e' =>
      intro hparse
      have hlowered := congrArg CalculationError.parse (Except.error.inj hparse)
      exact .inr ⟨.parse e, .parse e', rfl, rfl, hlowered⟩
    | ok t' => nofun
  | ok t =>
    cases Tree.parse s.engine.options.locale (s.engine.vocabulary s.engine.constants) formula' with
    | error e' => nofun
    | ok t' =>
      intro hparse
      cases hparse
      exact .inl rfl

theorem parse_sameAnswer : SameAnswer (parse formula s) (parse formula' s) := by
  rcases parse_cases_of_toLower_eq hformula h with hsame | ⟨e, e', hfail, hfail', herror⟩
  · rw [hsame]
    exact .refl _
  · rw [hfail, hfail']
    exact .complaint herror (.refl s)

theorem createFormula_sameAnswer :
    SameAnswer (createFormula formula none s) (createFormula formula' none s) := by
  have hparse : ∀ text : String, parseWith text (Option.getD none s.engine.constants) s =
      parse text s := fun _ => rfl
  unfold createFormula
  rw [hparse, hparse]
  rcases parse_cases_of_toLower_eq hformula h with hsame | ⟨e, e', hfail, hfail', herror⟩
  · rw [hsame]
    rcases parse formula s with ⟨e | t, s'⟩
    · exact .refl _
    · exact .result _ ⟨rfl, rfl⟩
  · rw [hfail, hfail']
    exact .complaint herror (.refl s)

theorem build_sameAnswer : SameAnswer (build formula s) (build formula' s) := by
  rw [build_of_uncached h.cache, build_of_uncached h.cache, isBlankText_eq hformula]
  split
  · exact .refl _
  · exact createFormula_sameAnswer hformula h

end Formulas

/-- The value of a formula depends on bindings only as far as they give values to names. -/
theorem evaluateNormalized_sameAnswer {s s' : EngineState σ} (hstate : s.Untouched s')
    {bindings bindings' : Bindings}
    (hlookup : ∀ name, bindings'.lookup name = bindings.lookup name) (φ : Formula σ) :
    SameAnswer (evaluateNormalized φ bindings s) (evaluateNormalized φ bindings' s') := by
  rw [evaluateNormalized_congr hlookup]
  unfold evaluateNormalized
  dsimp only [ExceptT.run, StateT.run]
  rw [hstate.engine, hstate.calls]
  rcases φ.evaluator.evaluate
    ⟨s.engine.functions, φ.ownConstants.getD s.engine.constants, bindings⟩ s.calls with
    ⟨e | x, calls⟩
  · exact .complaint rfl ⟨rfl, rfl⟩
  · exact .result x ⟨rfl, rfl⟩

theorem calculate_sameAnswer {s : EngineState σ} (h : s.engine.IgnoresCase)
    {formula formula' : String} (hformula : formula'.toLower = formula.toLower)
    {bindings bindings' : Bindings} (hbindings : bindings'.lowered.Perm bindings.lowered)
    (hnodup : ((s.engine.normalize bindings).map Prod.fst).Nodup)
    (hone : (s.engine.complaints (s.engine.normalize bindings)).length ≤ 1) :
    SameAnswer (calculate formula bindings s) (calculate formula' bindings' s) := by
  have hperm := normalize_perm h.options hbindings
  unfold calculate
  dsimp only
  rw [isBlankText_eq hformula, s.engine.nameError?_eq_of_perm hperm hone]
  split
  · exact .refl _
  split
  · exact .refl _
  · have hbuild := build_sameAnswer hformula h
    generalize build formula s = answer, build formula' s = answer' at hbuild ⊢
    cases hbuild with
    | result φ hstate =>
      exact evaluateNormalized_sameAnswer hstate (lookup_eq_of_perm hperm hnodup) φ
    | complaint hlowered hstate => exact .complaint hlowered hstate

end Engine

namespace Session

open Engine

theorem ignoresCase_after {options : Options} {memory : σ} {generator : Generator}
    {state : EngineState σ} (h : EngineState.start options memory generator = .ok state)
    (hcase : options.caseSensitive = false) (hcache : options.cacheEnabled = false)
    (hdecimal : options.locale.decimalSeparator.isAlpha = false)
    (hargument : options.locale.argumentSeparator.isAlpha = false) (requests : List (Request σ)) :
    ((start state).after requests).state.engine.IgnoresCase :=
  after_keeps (P := fun s => s.state.engine.IgnoresCase) (A := fun _ => True)
    (fun _ request _ hs => ignoresCase_handle hs request)
    (ignoresCase_start h hcase hcache hdecimal hargument) fun _ _ => trivial

/-- An engine that does not tell large letters from small ones, and keeps no formulas, answers alike
whatever the letter case in which a formula and the names of its bindings are written, and it is
left in the same state. The bindings may come in another order; their names differ in more than
letter case, and one of them at most is forbidden. -/
theorem letter_case_ignored {options : Options} {memory : σ} {generator : Generator}
    {state : EngineState σ} (hstart : EngineState.start options memory generator = .ok state)
    (hcase : options.caseSensitive = false) (hcache : options.cacheEnabled = false)
    (hdecimal : options.locale.decimalSeparator.isAlpha = false)
    (hargument : options.locale.argumentSeparator.isAlpha = false) (requests : List (Request σ))
    {formula formula' : String} (hformula : formula'.toLower = formula.toLower) :
    let s := ((start state).after requests).state
    SameAnswer (parse formula s) (parse formula' s) ∧
      ∀ bindings bindings' : Bindings, bindings'.lowered.Perm bindings.lowered →
        ((s.engine.normalize bindings).map Prod.fst).Nodup →
        (s.engine.complaints (s.engine.normalize bindings)).length ≤ 1 →
        SameAnswer (calculate formula bindings s) (calculate formula' bindings' s) := by
  intro s
  have h := ignoresCase_after hstart hcase hcache hdecimal hargument requests
  exact ⟨parse_sameAnswer hformula h, fun bindings bindings' hbindings hnodup hone =>
    calculate_sameAnswer h hformula hbindings hnodup hone⟩

/-- A function, a constant, a variable and an exponent in both letter cases. -/
theorem letter_case_ignored_next :
    let options : Options :=
      { cacheEnabled := false, defaultFunctions := false, defaultConstants := false }
    let next : Function Nat :=
      ⟨⟨"Next", some 1, false, true⟩, .host fun xs n => (xs.headD 0 + 1, n + 1)⟩
    let requests : List (Request Nat) := [.addFunction next, .addConstant "tau" 6]
    let state : EngineState Nat := ⟨⟨options, .empty false, .empty false, none⟩,
      ⟨0, ⟨[], 0⟩, []⟩, [.ready options 0 0]⟩
    let s := ((start state).after requests).state
    let formula := "next(x)+Tau*1e1"
    let formula' := "NEXT(X)+tAU*1E1"
    let bindings : Bindings := [("X", 3), ("y", 1)]
    let bindings' : Bindings := [("Y", 1), ("x", 3)]
    EngineState.start options 0 ⟨[], 0⟩ = .ok state ∧ formula'.toLower = formula.toLower ∧
      bindings'.lowered.Perm bindings.lowered ∧
      ((s.engine.normalize bindings).map Prod.fst).Nodup ∧
      (s.engine.complaints (s.engine.normalize bindings)).length ≤ 1 ∧
      SameAnswer (parse formula s) (parse formula' s) ∧
      SameAnswer (calculate formula bindings s) (calculate formula' bindings' s) := by
  intro options next requests state s formula formula' bindings bindings'
  have hstart : EngineState.start options 0 ⟨[], 0⟩ = .ok state := rfl
  have hlower : ∀ {text text' : String},
      text'.toList.map Char.toLower = text.toList.map Char.toLower →
      text'.toLower = text.toLower := by
    intro text text' h
    apply String.toList_injective
    rw [String.toLower, String.toLower, String.toList_map, String.toList_map, h]
  have hformula : formula'.toLower = formula.toLower := hlower (by decide)
  have hx : "X".toLower = "x".toLower := hlower (by decide)
  have hy : "Y".toLower = "y".toLower := hlower (by decide)
  have hbindings : bindings'.lowered.Perm bindings.lowered := by
    simp only [bindings, bindings', Bindings.lowered, List.map_cons, List.map_nil, hx, hy]
    exact List.Perm.swap _ _ _
  have hnodup : ((s.engine.normalize bindings).map Prod.fst).Nodup := by decide +kernel
  have hone : (s.engine.complaints (s.engine.normalize bindings)).length ≤ 1 := by decide +kernel
  obtain ⟨hparse, hcalculate⟩ := letter_case_ignored hstart rfl rfl rfl rfl requests hformula
  exact ⟨hstart, hformula, hbindings, hnodup, hone, hparse,
    hcalculate bindings bindings' hbindings hnodup hone⟩

end Session

end FormulaEngine
