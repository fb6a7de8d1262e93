import FormulaEngine.Proofs.CreatedFormulas
import FormulaEngine.Proofs.FormulaOrigins

/-!
What the formulas in a cache are made from. A request asks for the formula of a source, and the
cache keeps it under the key of that source. As long as it is kept, no constant and no new function
is registered, so it was made with the constants and the function names that there are now.
-/
namespace FormulaEngine

variable {σ : Type}

namespace Source

/-- What a formula with the given constants of its own is made from, if there are any. -/
def of (formula : String) (constants : Bindings) : Source :=
  if constants.isEmpty then plain formula
  else withConstants formula (constants.mergeSort fun a b => a.1 ≤ b.1)

/-- The text of the formula. -/
def formula : Source → String
  | plain formula | withConstants formula _ => formula

theorem formula_of (formula : String) (constants : Bindings) :
    (of formula constants).formula = formula := by
  unfold of
  split <;> rfl

theorem create_keepsEngine (source : Source) : Engine.KeepsEngine (σ := σ) source.create := by
  cases source with
  | plain formula => exact Engine.createFormula_keepsEngine formula none
  | withConstants formula constants => exact Engine.createWithConstants_keepsEngine formula constants

end Source

/-- The source that a request asks for. -/
def Request.source? : Request σ → Option Source
  | calculate formula _ | build formula => some (.plain formula)
  | buildWithConstants formula entries => some (.of formula entries)
  | _ => none

namespace Engine

open EngineState

/-- Whether a formula is what an engine makes from a source. -/
def Makes (e : Engine σ) (source : Source) (φ : Formula σ) : Prop :=
  ∃ s : EngineState σ, s.engine = e ∧ (source.create s).1 = .ok φ

/-- The formula of a source, from the cache if it is there. -/
def fetch (source : Source) : Action σ (Formula σ) := fun s =>
  if Text.isBlankText source.formula.toList then (.error .emptyFormula, s)
  else throughCache source.key source.create s

theorem build_eq_fetch (formula : String) : build (σ := σ) formula = fetch (.plain formula) := rfl

theorem buildWithConstants_eq_fetch (formula : String) (constants : Bindings) :
    buildWithConstants (σ := σ) formula constants = fetch (.of formula constants) := by
  funext s
  unfold buildWithConstants Source.of
  dsimp only
  split <;> rfl

theorem holds_of_fetch {source : Source} {s : EngineState σ} {key : String} {φ : Formula σ}
    (h : (fetch source s).2.engine.Holds key φ) :
    s.engine.Holds key φ ∨ key = source.key ∧ s.engine.Makes source φ := by
  unfold fetch at h
  split at h
  · exact .inl h
  · rcases throughCache_cases source.key source.create_keepsEngine s with
      ⟨ψ, s', hthrough, -, -, hholds⟩ | ⟨missed, s', hmissed, hthrough, -, hholds⟩
    · rw [hthrough] at h
      exact .inl (hholds key φ h)
    · rw [hthrough] at h
      exact (hholds key φ h).imp_right fun ⟨hkey, hmade⟩ => ⟨hkey, missed, hmissed.engine, hmade⟩

theorem calculate_engine (formula : String) (bindings : Bindings) (s : EngineState σ) :
    (calculate formula bindings s).2.engine = s.engine ∨
      (calculate formula bindings s).2.engine = (build formula s).2.engine := by
  unfold calculate
  dsimp only
  split
  · exact .inl rfl
  · split
    · exact .inl rfl
    · right
      rcases build formula s with ⟨e | φ, s'⟩ <;> rfl

/-- Whether an engine differs from an earlier one in its cache and in the functions that took the
place of others at most. -/
structure Succeeds (e earlier : Engine σ) : Prop where
  options : e.options = earlier.options
  constants : e.constants = earlier.constants
  functions : ∃ registrations, e.functions = earlier.functions.attemptAll registrations
  contains : ∀ name, e.functions.contains name = earlier.functions.contains name

namespace Succeeds

theorem of_cache {e : Engine σ} (cache : Option (Cache (Formula σ))) :
    ({ e with cache } : Engine σ).Succeeds e :=
  ⟨rfl, rfl, ⟨[], rfl⟩, fun _ => rfl⟩

theorem refl (e : Engine σ) : e.Succeeds e := of_cache e.cache

theorem trans {e e' e'' : Engine σ} (h : e''.Succeeds e') (h' : e'.Succeeds e) :
    e''.Succeeds e where
  options := h.options.trans h'.options
  constants := h.constants.trans h'.constants
  functions := by
    obtain ⟨later, hlater⟩ := h.functions
    obtain ⟨first, hfirst⟩ := h'.functions
    refine ⟨first ++ later, ?_⟩
    rw [hlater, hfirst]
    exact List.foldl_append.symm
  contains name := (h.contains name).trans (h'.contains name)

end Succeeds

/-- Whether a formula was made from a source by an engine that this one succeeds. -/
def Made (e : Engine σ) (source : Source) (φ : Formula σ) : Prop :=
  ∃ earlier, e.Succeeds earlier ∧ earlier.functions.Keyed ∧ earlier.Makes source φ

/-- What takes the place of another function has its name, so there is no new one. -/
theorem addFunction_succeeds {f : Function σ} {s : EngineState σ} {key : String} {φ : Formula σ}
    (h : (addFunction f s).2.engine.Holds key φ) :
    s.engine.Holds key φ ∧ (addFunction f s).2.engine.Succeeds s.engine := by
  unfold addFunction at h ⊢
  dsimp only at h ⊢
  cases hregister : s.engine.functions.register f with
  | error e =>
    rw [hregister] at h
    exact ⟨h, .refl s.engine⟩
  | ok registered =>
    obtain ⟨replaced, functions⟩ := registered
    rw [hregister] at h
    cases replaced with
    | false => exact (not_holds_clearCache _ key φ h).elim
    | true =>
      refine ⟨h, rfl, rfl, ⟨[f], (Table.attempt_of_register_ok hregister).symm⟩, fun name => ?_⟩
      change functions.contains name = _
      rw [Table.contains, Table.contains]
      rcases Table.replacement_cases hregister name with hsame | ⟨g, hget, hlater, -⟩
      · rw [hsame]
      · rw [hget, hlater]
        rfl

/-- A new constant leaves nothing in the cache. -/
theorem addConstant_succeeds {name : String} {value : Float} {s : EngineState σ} {key : String}
    {φ : Formula σ} (h : (addConstant name value s).2.engine.Holds key φ) :
    s.engine.Holds key φ ∧ (addConstant name value s).2.engine.Succeeds s.engine := by
  unfold addConstant at h ⊢
  dsimp only at h ⊢
  split at h
  · exact ⟨h, .refl s.engine⟩
  · exact (not_holds_clearCache _ key φ h).elim

end Engine

namespace Session

open Engine

variable {s : Session σ} {key : String} {φ : Formula σ}

/-- What is kept after a request was kept before, or was made for the request. -/
theorem holds_of_handle {request : Request σ} (h : (s.handle request).2.state.engine.Holds key φ) :
    s.state.engine.Holds key φ ∨
      ∃ source, request.source? = some source ∧ source.key = key ∧
        s.state.engine.Makes source φ := by
  have hfetched : ∀ {source : Source}, request.source? = some source →
      (fetch source s.state).2.engine.Holds key φ →
      s.state.engine.Holds key φ ∨ ∃ source, request.source? = some source ∧ source.key = key ∧
        s.state.engine.Makes source φ := by
    intro source hsource hheld
    refine (holds_of_fetch hheld).imp_right fun ⟨hkey, hmakes⟩ => ?_
    exact ⟨source, hsource, hkey.symm, hmakes⟩
  cases request with
  | calculate formula bindings =>
    simp only [Session.handle, perform_eq] at h
    rcases calculate_engine formula bindings s.state with hengine | hengine <;> rw [hengine] at h
    · exact .inl h
    · rw [build_eq_fetch] at h
      exact hfetched rfl h
  | build formula =>
    simp only [Session.handle, performBuild_state, build_eq_fetch] at h
    exact hfetched rfl h
  | buildWithConstants formula constants =>
    simp only [Session.handle, performBuild_state, buildWithConstants_eq_fetch] at h
    exact hfetched rfl h
  | evaluate handle bindings =>
    simp only [Session.handle] at h
    split at h
    · rw [perform_eq] at h
      exact .inl h
    · exact .inl h
  | parse formula =>
    simp only [Session.handle, perform_eq] at h
    rw [(parse_keepsEngine formula).engine s.state] at h
    exact .inl h
  | addFunction f =>
    simp only [Session.handle, perform_eq] at h
    exact .inl (addFunction_succeeds h).1
  | addConstant name value =>
    simp only [Session.handle, perform_eq] at h
    exact .inl (addConstant_succeeds h).1
  | cacheGet other =>
    have hfound : (s.state.cachedFormula? other).2.engine.Holds key φ →
        s.state.engine.Holds key φ := holds_of_cachedFormula?
    simp only [Session.handle] at h
    revert h hfound
    rcases s.state.cachedFormula? other with ⟨_ | ψ, state⟩ <;>
      exact fun h hfound => .inl (hfound h)
  | cacheClear => exact (not_holds_clearCache s.state key φ h).elim
  | cacheContains | describeFormula =>
    simp only [Session.handle] at h
    split at h <;> exact .inl h
  | functionExists | constantExists | functions | constants | options | describe => exact .inl h

/-- As long as anything is kept, constants and the names of functions stay as they are. -/
theorem succeeds_handle {request : Request σ}
    (h : (s.handle request).2.state.engine.Holds key φ) :
    (s.handle request).2.state.engine.Succeeds s.state.engine := by
  have hkept : request.function? = none → request.constant? = none →
      (s.handle request).2.state.engine.Succeeds s.state.engine := by
    intro hfunction hconstant
    obtain ⟨cache, hengine⟩ := s.handle_engine request
    rw [hengine, hfunction, hconstant]
    exact .of_cache cache
  cases request with
  | addFunction f =>
    simp only [Session.handle, perform_eq] at h ⊢
    exact (addFunction_succeeds h).2
  | addConstant name value =>
    simp only [Session.handle, perform_eq] at h ⊢
    exact (addConstant_succeeds h).2
  | _ => exact hkept rfl rfl

/-- The invariant of the cache: what is kept under a key was made from a source with this key that
one of the requests asked for. -/
def Stocked (requests : List (Request σ)) (s : Session σ) : Prop :=
  ∀ key φ, s.state.engine.Holds key φ → ∃ request ∈ requests, ∃ source,
    request.source? = some source ∧ source.key = key ∧ s.state.engine.Made source φ

theorem Stocked.handle {requests : List (Request σ)} {s : Session σ} (h : s.Stocked requests)
    (hkeyed : s.state.engine.functions.Keyed) {request : Request σ} (hrequest : request ∈ requests) :
    (s.handle request).2.Stocked requests := by
  intro key φ hheld
  have hsucceeds := succeeds_handle hheld
  rcases holds_of_handle hheld with hbefore | ⟨source, hsource, hkey, hmakes⟩
  · obtain ⟨asked, hasked, source, hsource, hkey, earlier, hearlier, hmade⟩ := h key φ hbefore
    exact ⟨asked, hasked, source, hsource, hkey, earlier, hsucceeds.trans hearlier, hmade⟩
  · exact ⟨request, hrequest, source, hsource, hkey, s.state.engine, hsucceeds, hkeyed, hmakes⟩

theorem stocked_after {options : Options} {memory : σ} {generator : Generator}
    {state : EngineState σ} (h : EngineState.start options memory generator = .ok state)
    (requests : List (Request σ)) : ((start state).after requests).Stocked requests := by
  refine (after_keeps (P := fun s => s.Sourced ∧ s.Stocked requests)
    (fun s request hrequest hs => ⟨hs.1.handle request, hs.2.handle hs.1.keyed hrequest⟩)
    ⟨sourced_start h, ?_⟩ fun _ => id).2
  rintro key φ ⟨cache, hcache, hmem⟩
  rw [(EngineState.isNew_of_start h).entries_nil hcache] at hmem
  cases hmem

end Session

end FormulaEngine
