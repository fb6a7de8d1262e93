import FormulaEngine.Proofs.ConstantNames
import FormulaEngine.Proofs.InlinedConstants
import FormulaEngine.Proofs.ModeAgreement
import FormulaEngine.Proofs.RecursiveEvaluation

/-!
What names mean in a calculation. A name that is bound may also belong to a registered constant, as
long as the constant can be overwritten. The formula is made first, and takes the constant for the
name; what is bound to it counts for nothing then. All other names mean what is bound to them,
whenever constants were registered and formulas were made.
-/
namespace FormulaEngine

variable {σ : Type}

theorem Tree.isBlankText_of_parse {locale : Locale} {v : Vocabulary} {text : String} {t : Tree}
    (h : parse locale v text = .ok t) : Text.isBlankText text.toList = false := by
  refine Bool.eq_false_iff.mpr fun hblank => ?_
  have hscan : Token.scan locale text.toList = .ok [] :=
    Token.scanFrom_of_isBlankText locale 0 true [] hblank
  rw [parse, readFormula, hscan] at h
  cases h

namespace Engine

/-- The values of the registered constants. -/
def constantValues (e : Engine σ) : Values :=
  fun name => (e.constants.get? name).map Constant.value

/-- The bindings of names that belong to no registered constant. -/
def unregistered (e : Engine σ) (bindings : Bindings) : Bindings :=
  bindings.filter fun binding => !e.constants.contains binding.1

theorem lookup_unregistered (e : Engine σ) (bindings : Bindings) (name : String) :
    (e.unregistered bindings).lookup name =
      if e.constants.contains name then none else bindings.lookup name := by
  induction bindings with
  | nil => simp [unregistered]
  | cons binding bindings ih =>
    obtain ⟨bound, value⟩ := binding
    unfold unregistered at ih ⊢
    rw [List.filter_cons, List.lookup_cons]
    by_cases hname : name = bound
    · subst hname
      cases hcontains : e.constants.contains name with
      | true => simpa [hcontains] using ih
      | false => simp
    · split
      · rw [List.lookup_cons, beq_false_of_ne hname]
        exact ih
      · rw [ih, beq_false_of_ne hname]

/-- If no name in a tree is both bound and registered, the order does not count. -/
theorem agreesOn_unregistered {e : Engine σ} {bindings : Bindings} {t : Tree}
    (h : ∀ name ∈ t.variableNames, (bindings.lookup name).isSome = true →
      e.constants.contains name = false) :
    Scope.AgreesOn ⟨e.functions, e.constants, e.unregistered bindings⟩
      ⟨e.functions, e.constants, bindings⟩ t.postorder where
  values name hname := by
    have hmem : name ∈ t.variableNames :=
      Node.mem_firstUses.mpr (List.mem_filterMap.mpr ⟨.var name, hname, rfl⟩)
    have hlookup : (e.unregistered bindings).lookup name = bindings.lookup name := by
      rw [lookup_unregistered]
      split
      · rename_i hregistered
        cases hbound : bindings.lookup name with
        | none => rfl
        | some value => cases hregistered.symm.trans (h name hmem (by rw [hbound]; rfl))
      · rfl
    simp only [Scope.variable, hlookup]
  callees _ _ _ _ := rfl

/-- Where constants go before bindings, a name means what a constant gives it, and otherwise what it
means where bindings go first. -/
theorem fills_constantValues (e : Engine σ) (bindings : Bindings) :
    Scope.Fills e.constantValues ⟨e.functions, e.constants, bindings⟩
      ⟨e.functions, e.constants, e.unregistered bindings⟩ where
  functions := rfl
  variable_eq name := by
    unfold Scope.variable constantValues
    dsimp only
    rw [lookup_unregistered, Table.contains]
    cases e.constants.get? name with
    | none => rfl
    | some constant => rfl

/-- A formula is read with the registered constants as it is read without them, apart from the
values that are put in. -/
theorem filled_parse {e : Engine σ} (hcase : e.constants.caseSensitive = e.options.caseSensitive)
    (formula : String) :
    Filled e.constantValues
      (Tree.parse e.options.locale (e.vocabulary e.constants).bare formula)
      (Tree.parse e.options.locale (e.vocabulary e.constants) formula) := by
  refine Tree.parse_fill (fun name _ => ?_) e.options.locale formula
  refine congrArg (Option.map Constant.value) (Table.get?_congr ?_)
  change Text.nameKey e.constants.caseSensitive name = Text.nameKey e.constants.caseSensitive
    (Text.nameKey e.options.caseSensitive name)
  rw [hcase, Text.nameKey_nameKey]

/-- What becomes of a formula that is made without folding. -/
theorem createFormula_cases {s : EngineState σ}
    (hoptimizer : s.engine.options.optimizerEnabled = false) (formula : String) :
    (∃ cause, Tree.parse s.engine.options.locale (s.engine.vocabulary s.engine.constants) formula =
        .error cause ∧ createFormula formula none s = (.error (.parse cause), s)) ∨
    ∃ t, Tree.parse s.engine.options.locale (s.engine.vocabulary s.engine.constants) formula =
        .ok t ∧
      createFormula formula none s = (.ok (s.engine.formulaOf t none), s.report [.built formula t]) := by
  unfold createFormula parseWith
  rw [Option.getD_none, hoptimizer]
  cases Tree.parse s.engine.options.locale (s.engine.vocabulary s.engine.constants) formula with
  | error cause => exact .inl ⟨cause, rfl, rfl⟩
  | ok t => exact .inr ⟨t, rfl, rfl⟩

/-- A formula that was made at an earlier time is read now as well, and does what the formula does
that is made now. -/
theorem Made.evaluate {e : Engine σ} (hoptimizer : e.options.optimizerEnabled = false)
    (hkeyed : e.functions.Keyed) {formula : String} {φ : Formula σ}
    (h : e.Made (.plain formula) φ) :
    ∃ t, Tree.parse e.options.locale (e.vocabulary e.constants) formula = .ok t ∧
      φ.ownConstants = none ∧ ∀ scope : Scope σ, scope.functions = e.functions →
        φ.evaluator.evaluate scope =
          (e.options.executionMode.prepare t e.functions).evaluate scope := by
  obtain ⟨_, hsucceeds, hearlier, s, rfl, hmade⟩ := h
  obtain ⟨hoptions, hconstants, ⟨registrations, hfunctions⟩, hcontains⟩ := hsucceeds
  have hcreated : (createFormula formula none s).1 = .ok φ := hmade
  rw [hoptions] at hoptimizer
  rcases createFormula_cases hoptimizer formula with ⟨cause, -, hcreate⟩ | ⟨t, hparse, hcreate⟩ <;>
    rw [hcreate] at hcreated
  · cases hcreated
  cases hcreated
  have hvocabulary : e.vocabulary e.constants =
      (s.engine.vocabulary s.engine.constants).relabel e.functions.labels := by
    unfold Engine.vocabulary
    rw [hoptions, hconstants, hfunctions]
    rw [hfunctions] at hcontains
    exact hearlier.vocabulary_relabel hcontains _ _
  refine ⟨t.relabel e.functions.labels, ?_, rfl, fun scope hscope => ?_⟩
  · rw [hoptions, hvocabulary]
    exact Tree.parse_relabel hparse
  · rw [hoptions]
    refine s.engine.options.executionMode.evaluate_prepare_relabel t ?_ ?_ ?_ <;> rw [hscope]
    · exact hkeyed.labels_lead []
    · rw [hfunctions]
      exact s.engine.functions.follows_attemptAll registrations
    · exact e.functions.follows_attemptAll []

/-- In both modes an evaluation has the result of the walk over the tree. -/
theorem evaluate_prepare_result {mode : ExecutionMode} {t : Tree} {scope : Scope σ}
    (hsize : mode = .compiled → t.postorder.length < 2 ^ 28)
    (hcallees : ∀ name ∈ t.callees, scope.functions.contains name = true) (s : CallState σ) :
    ((mode.prepare t scope.functions).evaluate scope s).1 = (t.evaluate scope s).1 := by
  cases mode with
  | interpreted => rfl
  | compiled =>
    have hsame : s.Alike (· = ·) s := ⟨rfl, rfl⟩
    exact (t.evaluate_compile scope (hsize rfl) (fun _ _ hget _ => hget) hcallees hsame).1.symm

theorem calculate_of_blank {formula : String} {bindings : Bindings} {s : EngineState σ}
    (h : Text.isBlankText formula.toList = true) :
    (calculate formula bindings s).1 = .error .emptyFormula := by
  unfold calculate
  rw [if_pos h]

section Calculations

variable {s : EngineState σ} {formula : String} {bindings : Bindings} {s' : EngineState σ}
  (hformula : Text.isBlankText formula.toList = false)
include hformula

theorem build_of_not_blank (s : EngineState σ) :
    build formula s = throughCache formula (createFormula formula none) s := by
  rw [build, if_neg (by simp [hformula])]

variable (haccepted : s.engine.nameError? (s.engine.normalize bindings) = none)
include haccepted

theorem calculate_of_build_error {e : CalculationError} (h : build formula s = (.error e, s')) :
    (calculate formula bindings s).1 = .error e := by
  unfold calculate
  dsimp only
  rw [if_neg (by simp [hformula]), haccepted, h]

theorem calculate_of_build {φ : Formula σ} (h : build formula s = (.ok φ, s')) :
    (calculate formula bindings s).1 =
      (evaluateNormalized φ (s.engine.normalize bindings) s').1 := by
  unfold calculate
  dsimp only
  rw [if_neg (by simp [hformula]), haccepted, h]

/-- What a formula that was made for its text comes to when it is calculated. -/
theorem calculate_of_made (hoptimizer : s.engine.options.optimizerEnabled = false)
    (hkeyed : s.engine.functions.Keyed)
    (hsize : s.engine.options.executionMode = .compiled → formula.length < 2 ^ 28) {φ : Formula σ}
    (h : build formula s = (.ok φ, s')) (hcalls : s'.calls = s.calls)
    (hmade : s.engine.Made (.plain formula) φ) :
    ∃ t, Tree.parse s.engine.options.locale (s.engine.vocabulary s.engine.constants) formula =
        .ok t ∧
      (calculate formula bindings s).1 = (t.evaluate ⟨s.engine.functions, s.engine.constants,
        s.engine.normalize bindings⟩ s.calls).1.mapError .evaluation := by
  obtain ⟨t, hparse, hown, hevaluate⟩ := hmade.evaluate hoptimizer hkeyed
  have hread : parseWith formula s.engine.constants s = (.ok t, s) := by
    rw [parseWith, hparse, hoptimizer]
    rfl
  obtain ⟨cache, hengine⟩ := (build_keepsTables formula).engine s
  rw [h] at hengine
  let scope : Scope σ := ⟨s.engine.functions, s.engine.constants, s.engine.normalize bindings⟩
  have hcallees : ∀ name ∈ t.callees, scope.functions.contains name = true :=
    callees_of_parseWith hkeyed hread
  have hsmall : s.engine.options.executionMode = .compiled → t.postorder.length < 2 ^ 28 :=
    fun hcompiled => Nat.lt_of_le_of_lt (length_postorder_of_parseWith hread) (hsize hcompiled)
  have hwalk : (φ.evaluator.evaluate scope s.calls).1 = (t.evaluate scope s.calls).1 := by
    rw [hevaluate scope rfl]
    exact evaluate_prepare_result hsmall hcallees s.calls
  refine ⟨t, hparse, ?_⟩
  rw [calculate_of_build hformula haccepted h, evaluateNormalized_result, hown, Option.getD_none,
    hengine, hcalls]
  exact congrArg (Except.mapError CalculationError.evaluation) hwalk

end Calculations

end Engine

theorem Request.constants_ne_nil {request : Request σ} {formula : String} {constants : Bindings}
    (h : request.source? = some (.withConstants formula constants)) : constants ≠ [] := by
  cases request with
  | buildWithConstants text entries =>
    have hof : Source.of text entries = .withConstants formula constants := Option.some.inj h
    unfold Source.of at hof
    split at hof
    · cases hof
    · rename_i hne
      cases hof
      rw [← List.length_pos_iff, List.length_mergeSort, List.length_pos_iff]
      simpa using hne
  | _ => cases h

namespace Session

open Engine

/-- Building a formula without folding makes it for its text, or fails because it cannot be read, or
finds what was kept for another formula with constants of its own. -/
theorem build_cases {requests : List (Request σ)} {s : Session σ} (hstocked : s.Stocked requests)
    (hkeyed : s.state.engine.functions.Keyed)
    (hoptimizer : s.state.engine.options.optimizerEnabled = false) {formula : String}
    (hformula : Text.isBlankText formula.toList = false) :
    (∃ φ s', build formula s.state = (.ok φ, s') ∧ s'.calls = s.state.calls ∧
      s.state.engine.Made (.plain formula) φ) ∨
    (∃ cause s', build formula s.state = (.error (.parse cause), s') ∧
      Tree.parse s.state.engine.options.locale
        (s.state.engine.vocabulary s.state.engine.constants) formula = .error cause) ∨
    ∃ request ∈ requests, ∃ text constants, request.source? = some (.withConstants text constants) ∧
      constantsKey text constants = formula ∧
      ∃ φ, s.state.engine.Made (.withConstants text constants) φ := by
  rw [build_of_not_blank hformula]
  rcases throughCache_cases formula (createFormula_keepsEngine formula none) s.state with
    ⟨φ, s', hthrough, hholds, hcalls, -⟩ | ⟨missed, s', hmissed, hthrough, hcalls, -⟩
  · obtain ⟨request, hrequest, source, hsource, hkey, hmade⟩ := hstocked formula φ hholds
    cases source with
    | plain text =>
      obtain rfl : text = formula := hkey
      exact .inl ⟨φ, s', hthrough, hcalls, hmade⟩
    | withConstants text constants =>
      exact .inr (.inr ⟨request, hrequest, text, constants, hsource, hkey, φ, hmade⟩)
  · rw [← hmissed.engine] at hoptimizer hkeyed ⊢
    rcases createFormula_cases hoptimizer formula with
      ⟨cause, hparse, hcreate⟩ | ⟨t, hparse, hcreate⟩ <;> rw [hcreate] at hthrough hcalls
    · exact .inr (.inl ⟨cause, s', hthrough, hparse⟩)
    · refine .inl ⟨_, s', hthrough, hcalls.trans hmissed.calls, missed.engine, .refl _, hkeyed,
        missed, rfl, ?_⟩
      exact congrArg Prod.fst hcreate

/-- The options stay, and the constants keep letter case as the options have it. -/
theorem settings_after {options : Options} {memory : σ} {generator : Generator}
    {state : EngineState σ} (h : EngineState.start options memory generator = .ok state)
    (requests : List (Request σ)) :
    ((start state).after requests).state.engine.options = options ∧
      ((start state).after requests).state.engine.constants.caseSensitive =
        options.caseSensitive := by
  have hnew := EngineState.isNew_of_start h
  obtain ⟨tried, -, hconstants⟩ := hnew.constants
  rw [options_after, constants_after, Table.caseSensitive_attemptAll]
  refine ⟨hnew.options, ?_⟩
  change state.engine.constants.caseSensitive = options.caseSensitive
  rw [hconstants]
  exact Table.caseSensitive_attemptAll _ tried

section Calculations

variable {requests : List (Request σ)} {s : Session σ} (hstocked : s.Stocked requests)
  (hkeyed : s.state.engine.functions.Keyed)
  (hoptimizer : s.state.engine.options.optimizerEnabled = false)
  (hcase : s.state.engine.constants.caseSensitive = s.state.engine.options.caseSensitive)
  {formula : String} (hformula : Text.isBlankText formula.toList = false) {bindings : Bindings}
  (haccepted : s.state.engine.nameError? (s.state.engine.normalize bindings) = none)
include hstocked hkeyed hoptimizer hcase hformula haccepted

/-- What is found under a text that can be read was made for it: no other key is such a text. -/
theorem calculate_of_read
    (hsize : s.state.engine.options.executionMode = .compiled → formula.length < 2 ^ 28) {t : Tree}
    (h : Tree.parse s.state.engine.options.locale
      (s.state.engine.vocabulary s.state.engine.constants).bare formula = .ok t) :
    (calculate formula bindings s.state).1 =
      (t.evaluate ⟨s.state.engine.functions, s.state.engine.constants,
        s.state.engine.unregistered (s.state.engine.normalize bindings)⟩
        s.state.calls).1.mapError .evaluation := by
  have hfilled := filled_parse hcase formula
  rw [h] at hfilled
  have hread := hfilled.of_ok
  rcases build_cases hstocked hkeyed hoptimizer hformula with
    ⟨φ, s', hbuild, hcalls, hmade⟩ | ⟨cause, s', -, herror⟩ |
      ⟨request, -, text, constants, hsource, hkey, φ, hmade⟩
  · obtain ⟨t', hparse, hresult⟩ :=
      calculate_of_made hformula haccepted hoptimizer hkeyed hsize hbuild hcalls hmade
    obtain rfl : t.fill s.state.engine.constantValues = t' :=
      Except.ok.inj (hread.symm.trans hparse)
    rw [hresult, Tree.evaluate_fill (s.state.engine.fills_constantValues _) t]
  · cases hread.symm.trans herror
  · rw [← hkey] at hread
    exact (Source.parse_constantsKey_ne_ok (Request.constants_ne_nil hsource)
      (isName_of_made hmade) _ _ text _ hread).elim

theorem calculate_of_unread {cause : ParseError}
    (h : Tree.parse s.state.engine.options.locale
      (s.state.engine.vocabulary s.state.engine.constants).bare formula = .error cause) :
    (∃ cause', (calculate formula bindings s.state).1 = .error (.parse cause') ∧
      cause'.span = cause.span) ∨
    ∃ request ∈ requests, ∃ text constants,
      request.source? = some (.withConstants text constants) ∧
      constantsKey text constants = formula := by
  have hfilled := filled_parse hcase formula
  rw [h] at hfilled
  obtain ⟨cause', hread, hspan⟩ := hfilled.of_error
  rcases build_cases hstocked hkeyed hoptimizer hformula with
    ⟨φ, s', hbuild, hcalls, hmade⟩ | ⟨cause'', s', hbuild, herror⟩ |
      ⟨request, hrequest, text, constants, hsource, hkey, -⟩
  · obtain ⟨t, hparse, -⟩ := hmade.evaluate hoptimizer hkeyed
    cases hread.symm.trans hparse
  · obtain rfl : cause' = cause'' := Except.error.inj (hread.symm.trans herror)
    exact .inl ⟨cause', calculate_of_build_error hformula haccepted hbuild, hspan⟩
  · exact .inr ⟨request, hrequest, text, constants, hsource, hkey⟩

end Calculations

/-- Without folding a calculation is the evaluation of the formula that is read without constants,
in a scope where the registered constants go before the bindings. So every binding counts whose name
belongs to no constant. What cannot be read fails, unless it is spelled like the key of a formula
with constants of its own. -/
theorem calculate_puts_constants_first {options : Options} {memory : σ} {generator : Generator}
    {state : EngineState σ} (hstart : EngineState.start options memory generator = .ok state)
    (hoptimizer : options.optimizerEnabled = false) (requests : List (Request σ))
    {formula : String} (hsize : options.executionMode = .compiled → formula.length < 2 ^ 28)
    {bindings : Bindings}
    (haccepted : let e := ((start state).after requests).state.engine
      e.nameError? (e.normalize bindings) = none) :
    let s := ((start state).after requests).state
    let e := s.engine
    let bound := e.normalize bindings
    let result := (calculate formula bindings s).1
    let read := Tree.parse options.locale (e.vocabulary e.constants).bare formula
    (∀ t, read = .ok t →
      result = (t.evaluate ⟨e.functions, e.constants, e.unregistered bound⟩ s.calls).1.mapError
        .evaluation ∧
      ((∀ name ∈ t.variableNames, (bound.lookup name).isSome = true →
          e.constants.contains name = false) →
        result = (t.evaluate ⟨e.functions, e.constants, bound⟩ s.calls).1.mapError
          .evaluation)) ∧
    ∀ cause, read = .error cause →
      (Text.isBlankText formula.toList = true ∧ result = .error .emptyFormula) ∨
      (∃ cause', result = .error (.parse cause') ∧ cause'.span = cause.span) ∨
      ∃ request ∈ requests, ∃ text constants,
        request.source? = some (.withConstants text constants) ∧
        constantsKey text constants = formula := by
  intro s e bound result read
  obtain ⟨hoptions, hcase⟩ := settings_after hstart requests
  have hstocked := stocked_after hstart requests
  have hkeyed : e.functions.Keyed := ((sourced_start hstart).after requests).keyed
  have hoff : e.options.optimizerEnabled = false := by rw [hoptions, hoptimizer]
  have hsame : e.constants.caseSensitive = e.options.caseSensitive := by rw [hoptions, hcase]
  have hread : read = Tree.parse e.options.locale (e.vocabulary e.constants).bare formula := by
    rw [hoptions]
  rw [← hoptions] at hsize
  refine ⟨fun t ht => ?_, fun cause hcause => ?_⟩
  · have hformula := Tree.isBlankText_of_parse ht
    have hfirst := calculate_of_read hstocked hkeyed hoff hsame hformula haccepted hsize
      (hread.symm.trans ht)
    refine ⟨hfirst, fun hnone => hfirst.trans ?_⟩
    rw [(agreesOn_unregistered hnone).evaluate_tree]
  · cases hformula : Text.isBlankText formula.toList with
    | true => exact .inl ⟨rfl, calculate_of_blank hformula⟩
    | false =>
      exact .inr (calculate_of_unread hstocked hkeyed hoff hsame hformula haccepted
        (hread.symm.trans hcause))

/-- A constant that is bound does not stand in the way of a formula that does not name it. -/
theorem calculate_puts_constants_first_sum :
    let options : Options :=
      { optimizerEnabled := false, defaultFunctions := false, defaultConstants := false }
    let requests : List (Request Nat) :=
      [.addConstant "k" 10, .calculate "m+x" [("m", 1), ("x", 1)], .addConstant "m" 20]
    let bindings : Bindings := [("k", 5), ("x", 2)]
    ∃ state t, EngineState.start options 0 ⟨[], 0⟩ = .ok state ∧
      let s := ((start state).after requests).state
      let e := s.engine
      let bound := e.normalize bindings
      e.nameError? bound = none ∧
      Tree.parse options.locale (e.vocabulary e.constants).bare "m+x" = .ok t ∧
      (∀ name ∈ t.variableNames, (bound.lookup name).isSome = true →
        e.constants.contains name = false) ∧
      (calculate "m+x" bindings s).1 =
        (t.evaluate ⟨e.functions, e.constants, bound⟩ s.calls).1.mapError .evaluation := by
  intro options requests bindings
  have hruns : (EngineState.start options 0 ⟨[], 0⟩).toOption.any (fun state =>
      let e := ((start state).after requests).state.engine
      (e.nameError? (e.normalize bindings)).isNone &&
        (Tree.parse options.locale (e.vocabulary e.constants).bare "m+x").toOption.any fun t =>
          decide (∀ name ∈ t.variableNames, ((e.normalize bindings).lookup name).isSome = true →
            e.constants.contains name = false)) = true := by
    decide +kernel
  obtain ⟨state, hstart, hstate⟩ := exists_ok_of_any hruns
  simp only [Bool.and_eq_true, Option.isNone_iff_eq_none] at hstate
  obtain ⟨haccepted, hparses⟩ := hstate
  obtain ⟨t, hread, hnone⟩ := exists_ok_of_any hparses
  have hnone := of_decide_eq_true hnone
  exact ⟨state, t, hstart, haccepted, hread, hnone,
    ((calculate_puts_constants_first hstart rfl requests (fun _ => by decide) haccepted).1 t
      hread).2 hnone⟩

/-- The binding of `k` is accepted, and the constant counts. -/
theorem binding_of_constant_name_lost :
    let options : Options :=
      { optimizerEnabled := false, defaultFunctions := false, defaultConstants := false }
    let requests : List (Request Nat) := [.addConstant "k" 10]
    ∃ state t, EngineState.start options 0 ⟨[], 0⟩ = .ok state ∧
      let s := ((start state).after requests).state
      let e := s.engine
      let bound := e.normalize [("k", 2)]
      e.nameError? bound = none ∧
      Tree.parse options.locale (e.vocabulary e.constants).bare "k+1" = .ok t ∧
      (calculate "k+1" [("k", 2)] s).1.toOption = some 11 ∧
      (t.evaluate ⟨e.functions, e.constants, bound⟩ s.calls).1.toOption = some 3 := by
  intro options requests
  have hruns : (EngineState.start options 0 ⟨[], 0⟩).toOption.any (fun state =>
      let s := ((start state).after requests).state
      let e := s.engine
      let bound := e.normalize [("k", 2)]
      (e.nameError? bound).isNone &&
        decide ((calculate "k+1" [("k", 2)] s).1.toOption = some 11) &&
        (Tree.parse options.locale (e.vocabulary e.constants).bare "k+1").toOption.any
          fun t => (t.evaluate ⟨e.functions, e.constants, bound⟩ s.calls).1.toOption = some 3) =
      true := by
    decide +kernel
  obtain ⟨state, hstart, hstate⟩ := exists_ok_of_any hruns
  simp only [Bool.and_eq_true, Option.isNone_iff_eq_none, decide_eq_true_eq] at hstate
  obtain ⟨⟨haccepted, hgiven⟩, hparses⟩ := hstate
  obtain ⟨t, hread, hbound⟩ := exists_ok_of_any hparses
  exact ⟨state, t, hstart, haccepted, hread, hgiven, of_decide_eq_true hbound⟩

end Session

end FormulaEngine
