import FormulaEngine.Proofs.CacheKeys
import FormulaEngine.Proofs.ReplacedFunctions

/-!
Formulas made at different times. What an engine makes from a source depends on its functions, its
constants and its options alone, and making it changes nothing that functions can see. After a
function was replaced, the same source gives a formula that does what the one before does.
-/
namespace FormulaEngine

variable {σ : Type}

/-- The engine without its cache. -/
def Engine.uncached (e : Engine σ) : Engine σ :=
  { e with options := { e.options with cacheEnabled := false }, cache := none }

/-- Whether a state differs from another at most in the calls made and in what was reported. -/
structure EngineState.Unchanged (s s' : EngineState σ) : Prop where
  engine : s'.engine = s.engine
  calls : s'.calls.Alike (· = ·) s.calls

namespace EngineState.Unchanged

theorem refl (s : EngineState σ) : s.Unchanged s := ⟨rfl, rfl, rfl⟩

theorem report (s : EngineState σ) (events : List Event) : s.Unchanged (s.report events) :=
  ⟨rfl, rfl, rfl⟩

theorem trans {s s' s'' : EngineState σ} (h : s.Unchanged s') (h' : s'.Unchanged s'') :
    s.Unchanged s'' :=
  ⟨h'.engine.trans h.engine, h'.calls.memory.trans h.calls.memory,
    h'.calls.generator.trans h.calls.generator⟩

end EngineState.Unchanged

namespace Engine

/-- Whether an action comes to a result in every state with the given engine, with or without a
cache, and leaves the state as it was. -/
def ComesTo {α : Type} (e : Engine σ) (action : Action σ α) (result : Except CalculationError α) :
    Prop :=
  ∀ s : EngineState σ, s.engine.uncached = e → ∃ s', action s = (result, s') ∧ s.Unchanged s'

theorem foldTree_of_fold {s : EngineState σ} {t t' : Tree} {constants : Table Constant}
    {final : FoldingState σ}
    (h : t.fold .interpreted s.engine.functions constants ⟨s.calls, []⟩ = (.ok t', final))
    (hcalls : final.calls.Alike (· = ·) s.calls) :
    ∃ s', foldTree t constants s = (.ok t', s') ∧ s.Unchanged s' := by
  refine ⟨{ s with calls := final.calls }.report
    (final.replacements.reverse.map Event.ofReplacement), ?_, rfl, hcalls⟩
  unfold foldTree
  dsimp only [ExceptT.run, StateT.run]
  rw [h]
  rfl

section Making

variable {e : Engine σ} {functions : Table (Function σ)} {now : Labels} {s s' : EngineState σ}

theorem parseWith_eq (hs : s.engine.uncached = e) (formula : String) (constants : Table Constant) :
    parseWith formula constants s =
      match Tree.parse e.options.locale (e.vocabulary constants) formula with
      | .error complaint => (.error (.parse complaint), s)
      | .ok t => if e.options.optimizerEnabled then foldTree t constants s else (.ok t, s) := by
  subst hs
  rfl

/-- The formula that an engine makes of a tree. -/
def formulaOf (e : Engine σ) (t : Tree) (ownConstants : Option (Table Constant)) : Formula σ :=
  ⟨e.options.executionMode.prepare t e.functions, ownConstants, e.options.caseSensitive⟩

theorem createFormula_of_parseWith (hs : s.engine.uncached = e) {formula : String}
    {ownConstants : Option (Table Constant)} {t : Tree} {s₁ : EngineState σ}
    (h : parseWith formula (ownConstants.getD e.constants) s = (.ok t, s₁))
    (hunchanged : s.Unchanged s₁) :
    ∃ s₂, createFormula formula ownConstants s = (.ok (e.formulaOf t ownConstants), s₂) ∧
      s.Unchanged s₂ := by
  subst hs
  have hparse : parseWith formula (ownConstants.getD s.engine.constants) s = (.ok t, s₁) := h
  refine ⟨s₁.report [.built formula t], ?_, hunchanged.trans (.report s₁ _)⟩
  simp only [createFormula, hparse, hunchanged.engine]
  rfl

variable (hsound : e.functions.Sound)
  (hrelabels : e.functions.Relabels now e.options.optimizerEnabled functions)
  (hs : s.engine.uncached = e) (hs' : s'.engine.uncached = { e with functions })
include hsound hrelabels hs hs'

/-- What is parsed, and folded, in one state is parsed in a state that has the same functions or
some that took their place. -/
theorem parseWith_relabel (formula : String) (constants : Table Constant) {t₀ : Tree}
    (hparse : Tree.parse e.options.locale (e.vocabulary constants) formula = .ok t₀) :
    ∃ t s₁ s₁', parseWith formula constants s = (.ok t, s₁) ∧ s.Unchanged s₁ ∧
      parseWith formula constants s' = (.ok (t.relabel now), s₁') ∧ s'.Unchanged s₁' := by
  have hvocabulary : ({ e with functions } : Engine σ).vocabulary constants =
      (e.vocabulary constants).relabel now := hrelabels.vocabulary constants e.options.caseSensitive
  rw [parseWith_eq hs, parseWith_eq hs', hparse, hvocabulary]
  have hparse' : Tree.parse e.options.locale ((e.vocabulary constants).relabel now) formula =
      .ok (t₀.relabel now) := Tree.parse_relabel hparse
  rw [hparse']
  dsimp only
  split
  · rename_i hfolding
    have hfold : ∀ node ∈ t₀.postorder, Tree.FoldsAlike now e.functions functions node :=
      fun node hnode =>
        hrelabels.folds hfolding node (Tree.parse_marked hsound.keyed hparse node hnode)
    obtain ⟨t, final, final', hrun, hrun', halike, halike'⟩ :=
      Tree.fold_relabel constants hfold ⟨s.calls, []⟩ ⟨s'.calls, []⟩
    have hfunctions := congrArg Engine.functions hs
    have hfunctions' := congrArg Engine.functions hs'
    dsimp only [uncached] at hfunctions hfunctions'
    rw [← hfunctions] at hrun
    rw [← hfunctions'] at hrun'
    obtain ⟨s₁, hresult, hunchanged⟩ := foldTree_of_fold hrun halike
    obtain ⟨s₁', hresult', hunchanged'⟩ := foldTree_of_fold hrun' halike'
    exact ⟨t, s₁, s₁', hresult, hunchanged, hresult', hunchanged'⟩
  · exact ⟨t₀, s, s', rfl, .refl s, rfl, .refl s'⟩

/-- A formula that is made of a tree in one state is made of the relabeled tree in the other. -/
theorem createFormula_relabel {formula : String} {ownConstants : Option (Table Constant)}
    {φ : Formula σ} {s₁ : EngineState σ}
    (h : createFormula formula ownConstants s = (.ok φ, s₁)) :
    s.Unchanged s₁ ∧ ∃ t s₁', φ = e.formulaOf t ownConstants ∧
      createFormula formula ownConstants s' =
        (.ok (({ e with functions } : Engine σ).formulaOf (t.relabel now) ownConstants), s₁') ∧
      s'.Unchanged s₁' := by
  cases hparse : Tree.parse e.options.locale (e.vocabulary (ownConstants.getD e.constants))
      formula with
  | error complaint =>
    have hfail := parseWith_eq hs formula (ownConstants.getD e.constants)
    rw [hparse] at hfail
    subst hs
    have hfail' : parseWith formula (ownConstants.getD s.engine.constants) s = _ := hfail
    rw [createFormula, hfail'] at h
    cases h
  | ok t₀ =>
    obtain ⟨t, made, made', hmade, hunchanged, hmade', hunchanged'⟩ :=
      parseWith_relabel hsound hrelabels hs hs' formula _ hparse
    obtain ⟨s₂, hcreate, hunchanged₂⟩ := createFormula_of_parseWith hs hmade hunchanged
    obtain ⟨s₂', hcreate', hunchanged₂'⟩ := createFormula_of_parseWith hs' hmade' hunchanged'
    rw [hcreate] at h
    cases h
    exact ⟨hunchanged₂, t, s₂', rfl, hcreate', hunchanged₂'⟩

end Making

section Results

variable {e : Engine σ} {s : EngineState σ}
  (hsound : e.functions.Sound) (hs : s.engine.uncached = e)
include hsound hs

theorem parseWith_comesTo (formula : String) (constants : Table Constant) :
    ComesTo e (parseWith formula constants) (parseWith formula constants s).1 := by
  intro s' hs'
  cases hparse : Tree.parse e.options.locale (e.vocabulary constants) formula with
  | error complaint =>
    rw [parseWith_eq hs, parseWith_eq hs', hparse]
    exact ⟨s', rfl, .refl s'⟩
  | ok t₀ =>
    obtain ⟨t, s₁, s₁', hmade, -, hmade', hunchanged⟩ :=
      parseWith_relabel hsound (hsound.relabels_none _) hs hs' formula constants hparse
    rw [Tree.relabel_none] at hmade'
    rw [hmade]
    exact ⟨s₁', hmade', hunchanged⟩

theorem parse_comesTo (formula : String) : ComesTo e (parse formula) (parse formula s).1 := by
  intro s' hs'
  have hconstants := congrArg Engine.constants (hs'.trans hs.symm)
  dsimp only [uncached] at hconstants
  rw [parse, parse, hconstants]
  exact parseWith_comesTo hsound hs formula _ s' hs'

theorem createFormula_comesTo (formula : String) (ownConstants : Option (Table Constant)) :
    ComesTo e (createFormula formula ownConstants) (createFormula formula ownConstants s).1 := by
  intro s' hs'
  cases hparse : Tree.parse e.options.locale (e.vocabulary (ownConstants.getD e.constants))
      formula with
  | error complaint =>
    have hfail : ∀ s : EngineState σ, s.engine.uncached = e →
        createFormula formula ownConstants s = (.error (.parse complaint), s) := by
      intro s hs
      have hparsed := parseWith_eq hs formula (ownConstants.getD e.constants)
      rw [hparse] at hparsed
      subst hs
      have hparsed' : parseWith formula (ownConstants.getD s.engine.constants) s = _ := hparsed
      rw [createFormula, hparsed']
    rw [hfail s hs, hfail s' hs']
    exact ⟨s', rfl, .refl s'⟩
  | ok t₀ =>
    obtain ⟨t, made, made', hmade, hunchanged, hmade', hunchanged'⟩ :=
      parseWith_relabel hsound (hsound.relabels_none _) hs hs' formula _ hparse
    rw [Tree.relabel_none] at hmade'
    obtain ⟨s₂, hcreate, -⟩ := createFormula_of_parseWith hs hmade hunchanged
    obtain ⟨s₂', hcreate', hunchanged₂'⟩ := createFormula_of_parseWith hs' hmade' hunchanged'
    rw [hcreate]
    exact ⟨s₂', hcreate', hunchanged₂'⟩

end Results

theorem createWithConstants_eq {e : Engine σ} {s : EngineState σ} (hs : s.engine.uncached = e)
    (formula : String) (constants : Bindings) :
    createWithConstants formula constants s =
      match e.constants.registerAll
        (constants.map fun (name, value) => Constant.mk name value true) with
      | (events, _, .error complaint) => (.error (.registration complaint), s.report events)
      | (events, table, .ok ()) => createFormula formula (some table) (s.report events) := by
  subst hs
  rfl

end Engine

/-- Whether two formulas do the same, with the given functions and after whatever is registered
later. -/
structure Formula.Interchangeable (functions : Table (Function σ)) (φ φ' : Formula σ) : Prop where
  ownConstants : φ.ownConstants = φ'.ownConstants
  evaluate : ∀ registrations constants bindings,
    φ.evaluator.evaluate ⟨functions.attemptAll registrations, constants, bindings⟩ =
      φ'.evaluator.evaluate ⟨functions.attemptAll registrations, constants, bindings⟩

namespace Formula.Interchangeable

variable {functions : Table (Function σ)} {φ φ' φ'' : Formula σ}

theorem refl (φ : Formula σ) : φ.Interchangeable functions φ := ⟨rfl, fun _ _ _ => rfl⟩

theorem trans (h : φ.Interchangeable functions φ') (h' : φ'.Interchangeable functions φ'') :
    φ.Interchangeable functions φ'' :=
  ⟨h.ownConstants.trans h'.ownConstants, fun registrations constants bindings =>
    (h.evaluate registrations constants bindings).trans
      (h'.evaluate registrations constants bindings)⟩

theorem attempt (h : φ.Interchangeable functions φ') (f : Function σ) :
    φ.Interchangeable (functions.attempt f) φ' :=
  ⟨h.ownConstants, fun registrations => h.evaluate (f :: registrations)⟩

end Formula.Interchangeable

namespace Source

open Engine

def create : Source → Action σ (Formula σ)
  | plain formula => createFormula formula none
  | withConstants formula constants => createWithConstants formula constants

variable {e : Engine σ} {s : EngineState σ}

/-- What is made from a source does not depend on what happened before. -/
theorem create_comesTo (source : Source) (hsound : e.functions.Sound)
    (hs : s.engine.uncached = e) : ComesTo e source.create (source.create s).1 := by
  cases source with
  | plain formula => exact createFormula_comesTo hsound hs formula none
  | withConstants formula constants =>
    intro s' hs'
    simp only [create, createWithConstants_eq hs, createWithConstants_eq hs']
    rcases e.constants.registerAll _ with ⟨events, table, complaint | ⟨⟩⟩
    · exact ⟨s'.report events, rfl, .report s' events⟩
    · have hreported : (s.report events).engine.uncached = e := hs
      obtain ⟨s₁, hcreate, hunchanged⟩ :=
        createFormula_comesTo hsound hreported formula (some table) (s'.report events) hs'
      exact ⟨s₁, hcreate, (EngineState.Unchanged.report s' events).trans hunchanged⟩

theorem create_relabel (source : Source) {functions : Table (Function σ)} {now : Labels}
    {s' : EngineState σ} (hsound : e.functions.Sound)
    (hrelabels : e.functions.Relabels now e.options.optimizerEnabled functions)
    (hs : s.engine.uncached = e) (hs' : s'.engine.uncached = { e with functions })
    {φ : Formula σ} {s₁ : EngineState σ} (h : source.create s = (.ok φ, s₁)) :
    ∃ t ownConstants, φ = e.formulaOf t ownConstants ∧ (source.create s').1 =
      .ok (({ e with functions } : Engine σ).formulaOf (t.relabel now) ownConstants) := by
  cases source with
  | plain formula =>
    obtain ⟨-, t, s₁', hφ, hcreate, -⟩ := createFormula_relabel hsound hrelabels hs hs' h
    exact ⟨t, none, hφ, congrArg Prod.fst hcreate⟩
  | withConstants formula constants =>
    simp only [create, createWithConstants_eq hs] at h
    simp only [create, createWithConstants_eq hs']
    revert h
    rcases e.constants.registerAll _ with ⟨events, table, complaint | ⟨⟩⟩ <;> intro h
    · cases h
    · have hreported : (s.report events).engine.uncached = e := hs
      have hreported' : (s'.report events).engine.uncached = { e with functions } := hs'
      obtain ⟨-, t, s₁', hφ, hcreate, -⟩ :=
        createFormula_relabel hsound hrelabels hreported hreported' h
      exact ⟨t, some table, hφ, congrArg Prod.fst hcreate⟩

/-- When a function takes the place of another, the formula made from a source before and the one
made from it afterwards do the same. -/
theorem create_replaced (source : Source) (hsound : e.functions.Sound) {f : Function σ}
    {later : Table (Function σ)} (hregister : e.functions.register f = .ok (true, later))
    (hopen : e.options.optimizerEnabled = true → f.overwritable = true)
    (hlater : later.Sound) {φ : Formula σ} (he : e.uncached = e)
    (h : ComesTo e source.create (.ok φ)) {s' : EngineState σ}
    (hs' : s'.engine.uncached = { e with functions := later }) :
    ∃ φ', ComesTo { e with functions := later } source.create (.ok φ') ∧
      φ.Interchangeable later φ' := by
  have hrelabels := hsound.relabels_register hregister hopen
  obtain ⟨s₁, hcreate, -⟩ := h { s' with engine := e } he
  obtain ⟨t, ownConstants, rfl, hresult⟩ := source.create_relabel hsound hrelabels he hs' hcreate
  have hcomes := source.create_comesTo (e := { e with functions := later }) hlater hs'
  rw [hresult] at hcomes
  refine ⟨_, hcomes, rfl, fun registrations constants bindings => ?_⟩
  have hfollows : later.Follows e.functions := by
    rw [← Table.attempt_of_register_ok hregister]
    exact e.functions.follows_attemptAll [f]
  exact e.options.executionMode.evaluate_prepare_relabel t
    (hlater.keyed.labels_lead registrations) (hfollows.attemptAll registrations)
    (later.follows_attemptAll registrations)

end Source

end FormulaEngine
