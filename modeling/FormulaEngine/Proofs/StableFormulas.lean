import FormulaEngine.Proofs.DeterminateEvaluation
import FormulaEngine.Proofs.FormulaOrigins

/-!
Formulas that were handed out. A formula keeps its handle and its result, whatever is registered,
forgotten or made later: constants in it became literals, variables take their values from the
bindings, and functions are looked up by names that are there for good. Only a function that takes
the place of one that the formula calls can change the result.
-/
namespace FormulaEngine

variable {σ : Type}

/-- A function that is there stays what it is when another is registered that does not take its
place. -/
theorem Table.get?_attempt_of_kept {functions : Table (Function σ)} {f : Function σ} {name : String}
    (hthere : functions.contains name = true)
    (hkept : functions.admission f = .ok true → functions.key name = functions.key f.name →
      Tree.isProtected functions name = true) :
    (functions.attempt f).get? name = functions.get? name := by
  cases hregister : functions.register f with
  | error e => rw [attempt_of_register_error hregister]
  | ok registered =>
    obtain ⟨replaced, next⟩ := registered
    obtain ⟨rfl, -, hreplaced, hreplaces⟩ := register_ok hregister
    rw [attempt_of_register_ok hregister]
    by_cases hkey : functions.key name = functions.key f.name
    · obtain ⟨existing, hexisting⟩ := Option.isSome_iff_exists.mp hthere
      have hget : functions.get? f.name = some existing := (get?_congr hkey).symm.trans hexisting
      have hadmission : functions.admission f = .ok true := by
        have htrue : replaced = true := by rw [hreplaced, contains]; exact hget ▸ rfl
        unfold register at hregister
        cases hadmission : functions.admission f with
        | error e => simp [hadmission] at hregister
        | ok admitted =>
          simp only [hadmission, Except.ok.injEq, Prod.mk.injEq] at hregister
          rw [hregister.1, htrue]
      have hprotected := hkept hadmission hkey
      rw [Tree.isProtected, hexisting, Option.any_some,
        show existing.overwritable = true from (hreplaces existing hget).1] at hprotected
      cases hprotected
    · exact (get?_put functions f name).trans (if_neg hkey)

/-- Scopes with the same bindings mean the same by names that are bound, whatever their constants
are. -/
theorem Scope.share_of_bound {functions functions' : Table (Function σ)}
    {constants constants' : Table Constant} {bindings : Bindings} {t : Tree}
    (hbound : ∀ name ∈ t.variableNames, (bindings.lookup name).isSome = true)
    (hcallees : ∀ name ∈ t.callees, functions.Share functions' name) :
    Share ⟨functions, constants, bindings⟩ ⟨functions', constants', bindings⟩ t.postorder := by
  refine ⟨fun name hname => ?_, hcallees⟩
  obtain ⟨x, hx⟩ := Option.isSome_iff_exists.mp (hbound name (Node.mem_firstUses.mpr hname))
  simp only [Scope.variable, hx]

/-- No function is found under the empty name. -/
theorem Table.get?_nameless {functions : Table (Function σ)} (hkeyed : functions.Keyed)
    (hnamed : functions.Named) : functions.get? "" = none := by
  rw [Option.eq_none_iff_forall_ne_some]
  intro f hget
  have hkey : functions.key f.name = functions.key "" := hkeyed "" f hget
  have hempty : f.name = "" := by
    revert hkey
    unfold Table.key Text.nameKey Text.lower
    split
    · exact id
    · intro hkey
      apply String.toList_injective
      simpa using congrArg String.toList hkey
  have hname : Text.isName f.name = true := hnamed "" f hget
  rw [hempty] at hname
  cases hname

/-- The variables that a formula looks up while it is walked over. -/
def Formula.walkedNames (φ : Formula σ) : List String :=
  match φ.evaluator with
  | .interpreted t => t.variableNames
  | .compiled _ => []

/-- A formula has a value if its variables are bound. -/
theorem Formula.MadeFrom.exists_value {e : Engine σ} {φ : Formula σ} {t : Tree}
    (h : φ.MadeFrom e t)
    (hsize : e.options.executionMode = .compiled → t.postorder.length < 2 ^ 28)
    {bindings : Bindings} (hbound : ∀ name ∈ t.variableNames, (bindings.lookup name).isSome = true)
    (constants : Table Constant) (s : CallState σ) :
    ∃ x, (φ.evaluator.evaluate ⟨e.functions, constants, bindings⟩ s).1 = .ok x := by
  have hdefined : ∀ name ∈ t.variableNames,
      Scope.defines ⟨e.functions, constants, bindings⟩ name = true := by
    intro name hname
    rw [Scope.defines, hbound name hname, Bool.true_or]
  obtain ⟨earlier, hprepared, hfollows⟩ := h.prepared
  have hwalk := e.options.executionMode.evaluate_prepare hsize
    (show ∀ name f, earlier.get? name = some f → f.overwritable = false →
      e.functions.get? name = some f from hfollows) hdefined
  obtain ⟨x, s', hx⟩ := Tree.exists_value_of_defined hdefined h.callees s
  rw [hprepared, hwalk, hx]
  exact ⟨x, rfl⟩

namespace Session

open Engine

/-- Whether a request replaces no function that a tree calls and that could be overwritten when the
functions were the given ones. -/
def LeavesCallees (functions : Table (Function σ)) (t : Tree) (s : Session σ)
    (request : Request σ) : Prop :=
  ∀ f, request = .addFunction f → s.state.engine.functions.admission f = .ok true →
    ∀ name ∈ t.callees, functions.key name = functions.key f.name →
      Tree.isProtected functions name = true

section Steps

variable {s : Session σ} {functions : Table (Function σ)} {t : Tree}

theorem leavesCallees_of_function? {request : Request σ} (h : request.function? = none) :
    s.LeavesCallees functions t request := by
  rintro f rfl
  cases h

/-- Whether the functions that a tree calls are those of a table. -/
structure Retains (functions : Table (Function σ)) (t : Tree) (s : Session σ) : Prop where
  caseSensitive : s.state.engine.functions.caseSensitive = functions.caseSensitive
  callees : ∀ name ∈ t.callees, s.state.engine.functions.get? name = functions.get? name

variable (hthere : ∀ name ∈ t.callees, functions.contains name = true)
include hthere

theorem Retains.handle (h : s.Retains functions t) {request : Request σ}
    (hleaves : s.LeavesCallees functions t request) :
    (s.handle request).2.Retains functions t := by
  obtain ⟨cache, hengine⟩ := s.handle_engine request
  have hfunctions := congrArg Engine.functions hengine
  have hkey : ∀ name, s.state.engine.functions.key name = functions.key name :=
    fun name => by rw [Table.key, h.caseSensitive, Table.key]
  constructor
  · rw [hfunctions, Table.caseSensitive_attemptAll, h.caseSensitive]
  · intro name hname
    rw [hfunctions]
    cases hrequest : request.function? with
    | none => exact h.callees name hname
    | some f =>
      obtain rfl : request = .addFunction f := by
        cases request <;> simp_all [Request.function?]
      refine (Table.get?_attempt_of_kept ?_ fun hadmission hsame => ?_).trans
        (h.callees name hname)
      · rw [Table.contains, h.callees name hname]
        exact hthere name hname
      · rw [hkey, hkey] at hsame
        rw [Tree.isProtected, h.callees name hname]
        exact hleaves f rfl hadmission name hname hsame

theorem Retains.after (h : s.Retains functions t) {requests : List (Request σ)}
    (hleaves : s.Along (LeavesCallees functions t) requests) :
    (s.after requests).Retains functions t := by
  induction requests generalizing s with
  | nil => exact h
  | cons request requests ih => exact ih (h.handle hthere hleaves.1) hleaves.2

end Steps

theorem getElem?_after {s : Session σ} {n : Nat} {φ : Formula σ} (h : s.formulas[n]? = some φ)
    (requests : List (Request σ)) : (s.after requests).formulas[n]? = some φ := by
  induction requests generalizing s with
  | nil => exact h
  | cons request requests ih => exact ih (getElem?_handle request h)

theorem exists_formula_of_handOut {s : Session σ} {φ : Formula σ} {n : Nat}
    (h : (s.handOut φ).1 = .ok (.handle n)) : ∃ ψ, (s.handOut φ).2.formulas[n]? = some ψ := by
  cases h
  exact ⟨φ, Array.getElem?_push_size⟩

theorem exists_formula_of_performBuild {s : Session σ} {action : Action σ (Formula σ)} {n : Nat}
    (h : (s.performBuild action).1 = .ok (.handle n)) :
    ∃ φ, (s.performBuild action).2.formulas[n]? = some φ := by
  unfold Session.performBuild at h ⊢
  revert h
  rcases action s.state with ⟨e | φ, state⟩ <;> intro h
  · cases h
  · exact exists_formula_of_handOut h

theorem perform_ne_handle {α : Type} (s : Session σ) (action : Action σ α) {outcome : α → Outcome}
    {n : Nat} (houtcome : ∀ x, outcome x ≠ .handle n) :
    (s.perform action outcome).1 ≠ .ok (.handle n) := by
  rw [perform_eq]
  cases (action s.state).1 with
  | error e => exact fun h => by cases h
  | ok x => exact fun h => houtcome x (Except.ok.inj h)

/-- A request that is answered with a handle hands a formula out under it. -/
theorem exists_formula_of_answer {s : Session σ} {request : Request σ} {n : Nat}
    (h : (s.handle request).1 = .ok (.handle n)) :
    ∃ φ, (s.handle request).2.formulas[n]? = some φ := by
  cases request with
  | build formula => exact exists_formula_of_performBuild h
  | buildWithConstants formula constants => exact exists_formula_of_performBuild h
  | calculate | parse | addFunction | addConstant =>
    exact (s.perform_ne_handle _ (fun _ => Outcome.noConfusion) h).elim
  | evaluate handle bindings =>
    simp only [Session.handle] at h
    split at h
    · exact (s.perform_ne_handle _ (fun _ => Outcome.noConfusion) h).elim
    · cases h
  | cacheGet key =>
    simp only [Session.handle] at h ⊢
    revert h
    rcases s.state.cachedFormula? key with ⟨_ | φ, state⟩ <;> intro h
    · cases h
    · exact exists_formula_of_handOut h
  | cacheContains | describeFormula =>
    simp only [Session.handle] at h
    split at h <;> cases h
  | functionExists | constantExists | functions | constants | cacheClear | options | describe =>
    cases h

theorem handle_evaluate_answer {s : Session σ} {n : Nat} {φ : Formula σ}
    (h : s.formulas[n]? = some φ) (bindings : Bindings) :
    (s.handle (.evaluate n bindings)).1 =
      ((φ.evaluator.evaluate ⟨s.state.engine.functions,
        φ.ownConstants.getD s.state.engine.constants, s.state.engine.normalize bindings⟩
          s.state.calls).1.mapError .evaluation).map .value := by
  simp only [Session.handle, h, perform_eq]
  rfl

/-- What a formula comes to with its variables bound is the same after some requests, whatever
happened to the constants. -/
theorem Sourced.coincide_after {s : Session σ} (hs : s.Sourced) {φ : Formula σ} {t : Tree}
    (ht : φ.MadeFrom s.state.engine t)
    (hdeterminate : ∀ name ∈ t.callees, ∀ f, s.state.engine.functions.get? name = some f →
      f.Determinate)
    {bindings : Bindings} (hbound : ∀ name ∈ t.variableNames, (bindings.lookup name).isSome = true)
    {later : List (Request σ)}
    (hleaves : s.Along (LeavesCallees s.state.engine.functions t) later)
    (constants constants' : Table Constant) :
    Evaluation.Coincide
      (φ.evaluator.evaluate ⟨(s.after later).state.engine.functions, constants, bindings⟩)
      (φ.evaluator.evaluate ⟨s.state.engine.functions, constants', bindings⟩) := by
  have hretains : (s.after later).Retains s.state.engine.functions t :=
    Retains.after ht.callees ⟨rfl, fun _ _ => rfl⟩ hleaves
  have hlater : (s.after later).Sourced := hs.after later
  -- A program has bound what could not be overwritten earlier; both tables still have it.
  obtain ⟨earlier, hprepared, hfollows⟩ := ht.prepared
  have hfollows' : (s.after later).state.engine.functions.Follows earlier := by
    rw [functions_after]
    exact hfollows.attemptAll _
  have hcallees : ∀ name ∈ t.callees, Table.Share (s.after later).state.engine.functions
      s.state.engine.functions name := by
    intro name hname
    obtain ⟨f, hf⟩ := Option.isSome_iff_exists.mp (ht.callees name hname)
    exact ⟨f, (hretains.callees name hname).trans hf, hf, hdeterminate name hname f hf⟩
  rw [hprepared]
  exact ExecutionMode.prepare_coincide _ hfollows' hfollows
    (Table.get?_nameless hlater.keyed hlater.named) (Table.get?_nameless hs.keyed hs.named)
    (Scope.share_of_bound hbound hcallees)

/-- A formula that was handed out has the same result at any later time, if its functions are
determinate and its variables bound, unless a function was replaced that it calls and that could be
overwritten. -/
theorem handed_out_stable {options : Options} {memory : σ} {generator : Generator}
    {state : EngineState σ} (hstart : EngineState.start options memory generator = .ok state)
    (earlier : List (Request σ)) {request : Request σ} {n : Nat}
    (hanswer : (((start state).after earlier).handle request).1 = .ok (.handle n)) :
    let built := (((start state).after earlier).handle request).2
    ∃ φ t, built.formulas[n]? = some φ ∧ φ.MadeFrom built.state.engine t ∧
      ∀ later bindings,
        (∀ name ∈ t.callees, ∀ f, built.state.engine.functions.get? name = some f →
          f.Determinate) →
        (∀ name ∈ t.variableNames,
          ((built.state.engine.normalize bindings).lookup name).isSome = true) →
        built.Along (LeavesCallees built.state.engine.functions t) later →
        ((built.after later).handle (.evaluate n bindings)).1 =
            (built.handle (.evaluate n bindings)).1 ∧
          ((built.state.engine.options.executionMode = .compiled → t.postorder.length < 2 ^ 28) →
            ∃ x, (built.handle (.evaluate n bindings)).1 = .ok (.value x)) := by
  intro built
  have hsourced : built.Sourced := ((sourced_start hstart).after earlier).handle request
  obtain ⟨φ, hφ⟩ := exists_formula_of_answer hanswer
  obtain ⟨t, ht⟩ := hsourced.madeFrom φ (.inl (Array.mem_of_getElem? hφ))
  refine ⟨φ, t, hφ, ht, fun later bindings hdeterminate hbound hleaves => ?_⟩
  have hnormalize : (built.after later).state.engine.normalize bindings =
      built.state.engine.normalize bindings := by
    rw [Engine.normalize, options_after, Engine.normalize]
  rw [handle_evaluate_answer (getElem?_after hφ later), handle_evaluate_answer hφ, hnormalize]
  constructor
  · rw [hsourced.coincide_after ht hdeterminate hbound hleaves _ _ _ built.state.calls]
  · intro hsize
    obtain ⟨x, hx⟩ := ht.exists_value hsize hbound
      (φ.ownConstants.getD built.state.engine.constants) built.state.calls
    rw [hx]
    exact ⟨x, rfl⟩

/-- The variable of a formula becomes the name of a function and of a constant, its constant is
registered anew, and the cache is emptied. -/
theorem handed_out_stable_shadowed :
    let options : Options :=
      { executionMode := .interpreted, defaultFunctions := false, defaultConstants := false }
    let next : Function Nat := ⟨⟨"next", some 1, false, true⟩, .pure fun xs => xs.headD 0 + 1⟩
    let other : Function Nat := ⟨⟨"x", none, false, true⟩, .random⟩
    let state : EngineState Nat := ⟨⟨options, .empty false, .empty false, some (.empty 500 50)⟩,
      ⟨0, ⟨[], 0⟩, []⟩, [.ready options 0 0]⟩
    let earlier : List (Request Nat) := [.addFunction next, .addConstant "c" 2]
    let built := (((start state).after earlier).handle (.build "next(x)+c")).2
    let later : List (Request Nat) := [.addFunction other, .addConstant "x" 7, .addConstant "c" 5,
      .cacheClear, .calculate "next(c)" []]
    ((built.after later).handle (.evaluate 0 [("x", 3)])).1 =
        (built.handle (.evaluate 0 [("x", 3)])).1 ∧
      values ((built.after later).answers [.evaluate 0 [("x", 3)], .calculate "next(c)" []]) =
        [6, 6] := by
  intro options next other state earlier built later
  have hstart : EngineState.start options 0 ⟨[], 0⟩ = .ok state := rfl
  have hanswer : (((start state).after earlier).handle (.build "next(x)+c")).1 =
      .ok (.handle 0) := by
    have hmade : (Engine.build "next(x)+c" ((start state).after earlier).state).1.isOk = true := by
      decide +kernel
    have hsize : ((start state).after earlier).formulas.size = 0 := by decide +kernel
    simp only [Session.handle, performBuild_answer, hsize]
    revert hmade
    cases (Engine.build "next(x)+c" ((start state).after earlier).state).1 with
    | error e => exact fun h => Bool.noConfusion h
    | ok φ => exact fun _ => rfl
  have hmode : built.state.engine.options.executionMode = .interpreted := by decide +kernel
  have hnames : built.formulas[0]?.map Formula.walkedNames = some ["x"] := by decide +kernel
  have hbound : ((built.state.engine.normalize [("x", 3)]).lookup "x").isSome = true := by
    decide +kernel
  have hnew : built.state.engine.functions.admission other = .ok false := by decide +kernel
  have hfunctions : built.state.engine.functions = (Table.empty false).attemptAll [next] := by
    obtain ⟨cache, hengine⟩ := ((start state).after earlier).handle_engine (.build "next(x)+c")
    exact (congrArg Engine.functions hengine).trans (functions_after (start state) earlier)
  obtain ⟨φ, t, hφ, hmade, hstable⟩ := handed_out_stable hstart earlier hanswer
  have htree : φ.evaluator = .interpreted t := by
    obtain ⟨made, hprepared, -⟩ := hmade.prepared
    exact hprepared.trans (congrArg (ExecutionMode.prepare · t made) hmode)
  have hvariables : t.variableNames = ["x"] := by
    rw [hφ, Option.map_some, Formula.walkedNames, htree] at hnames
    exact Option.some.inj hnames
  refine ⟨(hstable later [("x", 3)] (fun name _ f hget => ?_) ?_ ?_).1, by decide +kernel⟩
  · rw [hfunctions] at hget
    rcases Table.mem_of_get?_attemptAll hget with hmem | hnone
    · obtain rfl := List.mem_singleton.mp hmem
      exact fun _ _ _ => rfl
    · cases hnone
  · rw [hvariables]
    exact List.forall_mem_singleton.mpr hbound
  · refine ⟨?_, leavesCallees_of_function? rfl, leavesCallees_of_function? rfl,
      leavesCallees_of_function? rfl, leavesCallees_of_function? rfl, trivial⟩
    rintro f ⟨⟩ hreplaced
    cases hnew.symm.trans hreplaced

end Session

end FormulaEngine
