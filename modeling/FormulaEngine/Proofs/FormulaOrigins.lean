import FormulaEngine.Proofs.RegistrationHistory
import FormulaEngine.Proofs.ReplacedFunctions
import FormulaEngine.Proofs.RequestEffects
import FormulaEngine.Proofs.TreeSize

/-!
Where the formulas of a session come from. Each of them, in the cache or handed out, was made from
a tree at some earlier time, from a tree that calls only functions which were there by then. They
are there for good, and what cannot be overwritten is what it was.
-/
namespace FormulaEngine

variable {σ : Type}

/-- The names of the functions that a tree calls. -/
def Tree.callees (t : Tree) : List String := t.postorder.filterMap Node.calleeName?

/-- Whether a formula was made from a tree, now or at an earlier time. -/
structure Formula.MadeFrom (e : Engine σ) (φ : Formula σ) (t : Tree) : Prop where
  prepared : ∃ earlier, φ.evaluator = e.options.executionMode.prepare t earlier ∧
    e.functions.Follows earlier
  callees : ∀ name ∈ t.callees, e.functions.contains name = true

namespace Engine

open EngineState

/-- Whether a formula is kept under a key. -/
def Holds (e : Engine σ) (key : String) (φ : Formula σ) : Prop :=
  ∃ cache, e.cache = some cache ∧ (key, φ) ∈ cache.entries

/-- Whether a formula is in the cache. -/
def Caches (e : Engine σ) (φ : Formula σ) : Prop :=
  ∃ cache, e.cache = some cache ∧ ∃ key, (key, φ) ∈ cache.entries

theorem caches_iff {e : Engine σ} {φ : Formula σ} : e.Caches φ ↔ ∃ key, e.Holds key φ :=
  ⟨fun ⟨cache, hcache, key, hmem⟩ => ⟨key, cache, hcache, hmem⟩,
    fun ⟨key, cache, hcache, hmem⟩ => ⟨cache, hcache, key, hmem⟩⟩

/-- A formula comes from the cache, or it is made now and kept. -/
theorem throughCache_cases (key : String) {create : Action σ (Formula σ)}
    (hcreate : KeepsEngine create) (s : EngineState σ) :
    (∃ φ s', throughCache key create s = (.ok φ, s') ∧ s.engine.Holds key φ ∧
      s'.calls = s.calls ∧ ∀ other ψ, s'.engine.Holds other ψ → s.engine.Holds other ψ) ∨
    ∃ missed s', s.Untouched missed ∧ throughCache key create s = ((create missed).1, s') ∧
      s'.calls = (create missed).2.calls ∧ ∀ other ψ, s'.engine.Holds other ψ →
        s.engine.Holds other ψ ∨ other = key ∧ (create missed).1 = .ok ψ := by
  unfold throughCache
  split
  · refine .inr ⟨s, _, .refl s, rfl, rfl, fun other ψ hψ => .inl ?_⟩
    rwa [hcreate.engine s] at hψ
  · rename_i cache hcache
    have hmissed : s.Untouched
        (if cache.contains key then s else s.report [.cacheMiss key]) := by
      split
      · exact .refl s
      · exact s.untouched_report _
    generalize (if cache.contains key then s else s.report [.cacheMiss key]) = missed
      at hmissed ⊢
    dsimp only
    rcases cache.getOrCreate_cases key create missed with
      ⟨φ, touched, hresult, hmem, htouched⟩ | ⟨φ, made, hmade, hresult⟩ | ⟨e, made, hmade, hresult⟩
    · rw [hresult]
      refine .inl ⟨φ, _, rfl, ⟨cache, hcache, hmem⟩, hmissed.calls, ?_⟩
      rintro other ψ ⟨_, ⟨⟩, hψ⟩
      exact ⟨cache, hcache, htouched _ hψ⟩
    · rw [hresult]
      refine .inr ⟨missed, _, hmissed, by rw [hmade], by rw [hmade]; rfl, ?_⟩
      rintro other ψ ⟨_, ⟨⟩, hψ⟩
      rcases Cache.mem_insert hψ with heq | hψ
      · cases heq
        exact .inr ⟨rfl, by rw [hmade]⟩
      · exact .inl ⟨cache, hcache, hψ⟩
    · have hengine := hcreate.engine missed
      rw [hmade] at hengine
      rw [hresult]
      refine .inr ⟨missed, _, hmissed, by rw [hmade], by rw [hmade], fun other ψ hψ => .inl ?_⟩
      rwa [hengine, hmissed.engine] at hψ

theorem not_holds_clearCache (s : EngineState σ) (key : String) (φ : Formula σ) :
    ¬s.clearCache.engine.Holds key φ := by
  unfold EngineState.clearCache
  split
  · rename_i hnone
    rintro ⟨cache, hsome, -⟩
    cases hnone.symm.trans hsome
  · rintro ⟨_, ⟨⟩, hmem⟩
    cases hmem

theorem holds_of_cachedFormula? {key other : String} {s : EngineState σ} {φ : Formula σ}
    (h : (s.cachedFormula? key).2.engine.Holds other φ) : s.engine.Holds other φ := by
  unfold EngineState.cachedFormula? at h
  split at h
  · exact h
  · rename_i cache hcache
    obtain ⟨_, ⟨⟩, hmem⟩ := h
    refine ⟨cache, hcache, ?_⟩
    rcases hget : cache.get key with ⟨_ | ψ, touched⟩ <;> rw [hget] at hmem
    · obtain ⟨-, rfl⟩ := Cache.get_none hget
      exact hmem
    · exact (Cache.get_some hget).2 _ hmem

/-- Whether a formula is in the cache or was made from a tree. -/
def Supplies (e : Engine σ) (φ : Formula σ) : Prop := e.Caches φ ∨ ∃ t, φ.MadeFrom e t

/-- Whether an action returns and caches nothing but what was in the cache or is made by it. -/
def KeepsSupply (action : Action σ (Formula σ)) : Prop :=
  ∀ s : EngineState σ, s.engine.functions.Keyed →
    (∀ φ, (action s).1 = .ok φ → s.engine.Supplies φ) ∧
      ∀ φ, (action s).2.engine.Caches φ → s.engine.Supplies φ

/-- The calls in a parsed tree, folded or not, are of functions that are there. -/
theorem callees_of_parseWith {formula : String} {constants : Table Constant} {s s' : EngineState σ}
    (hkeyed : s.engine.functions.Keyed) {t : Tree}
    (h : parseWith formula constants s = (.ok t, s')) :
    ∀ name ∈ t.callees, s.engine.functions.contains name = true := by
  rcases parseWith_cases formula constants s with ⟨e, hparse⟩ | ⟨t₀, u, s'', ht₀, hparse, -, hu, -⟩
  · cases h.symm.trans hparse
  · cases h.symm.trans hparse
    intro name hname
    obtain ⟨node, hnode, hcallee⟩ := List.mem_filterMap.mp hname
    rcases hu node hnode with hnode | ⟨x, rfl⟩
    · obtain ⟨n, idempotent, rfl⟩ : ∃ n i, node = .call name n i := by
        cases node <;> simp_all [Node.calleeName?]
      obtain ⟨f, hget, -⟩ := Tree.parse_admitted hkeyed ht₀ _ hnode
      rw [Table.contains, hget]
      rfl
    · cases hcallee

/-- A parsed tree, folded or not, has no more nodes than the formula has characters. -/
theorem length_postorder_of_parseWith {formula : String} {constants : Table Constant}
    {s s' : EngineState σ} {t : Tree} (h : parseWith formula constants s = (.ok t, s')) :
    t.postorder.length ≤ formula.length := by
  rcases parseWith_cases formula constants s with
    ⟨e, hparse⟩ | ⟨t₀, u, s'', ht₀, hparse, -, -, hle⟩
  · cases h.symm.trans hparse
  · cases h.symm.trans hparse
    exact Nat.le_trans hle (Tree.length_postorder_le_of_parse ht₀)

theorem createFormula_madeFrom {formula : String} {ownConstants : Option (Table Constant)}
    {s : EngineState σ} (hkeyed : s.engine.functions.Keyed) {φ : Formula σ}
    (h : (createFormula formula ownConstants s).1 = .ok φ) : ∃ t, φ.MadeFrom s.engine t := by
  have hkept := parseWith_keepsEngine formula (ownConstants.getD s.engine.constants) s
  unfold createFormula at h
  rcases hparse : parseWith formula (ownConstants.getD s.engine.constants) s with ⟨e | t, s'⟩ <;>
    rw [hparse] at h hkept
  · cases h
  · cases h
    have hengine : s'.engine = s.engine := hkept
    rw [hengine]
    exact ⟨t, ⟨s.engine.functions, rfl, fun _ _ hget _ => hget⟩,
      callees_of_parseWith hkeyed hparse⟩

theorem createFormula_keepsSupply (formula : String) (ownConstants : Option (Table Constant)) :
    KeepsSupply (σ := σ) (createFormula formula ownConstants) := by
  intro s hkeyed
  refine ⟨fun φ hφ => .inr (createFormula_madeFrom hkeyed hφ), fun φ hφ => .inl ?_⟩
  rwa [(createFormula_keepsEngine formula ownConstants).engine s] at hφ

theorem createWithConstants_keepsSupply (formula : String) (constants : Bindings) :
    KeepsSupply (σ := σ) (createWithConstants formula constants) := by
  intro s hkeyed
  unfold createWithConstants
  dsimp only
  split
  · exact ⟨nofun, fun φ => .inl⟩
  · exact createFormula_keepsSupply formula _ (s.report _) hkeyed

theorem throughCache_keepsSupply (key : String) {create : Action σ (Formula σ)}
    (hengine : KeepsEngine create) (hcreate : KeepsSupply create) :
    KeepsSupply (throughCache key create) := by
  intro s hkeyed
  rcases throughCache_cases key hengine s with
    ⟨φ, s', hthrough, hheld, -, hholds⟩ | ⟨missed, s', hmissed, hthrough, -, hholds⟩ <;>
    rw [hthrough]
  · refine ⟨?_, fun ψ hψ => ?_⟩
    · rintro _ ⟨⟩
      exact .inl (caches_iff.mpr ⟨key, hheld⟩)
    · obtain ⟨other, hother⟩ := caches_iff.mp hψ
      exact .inl (caches_iff.mpr ⟨other, hholds other ψ hother⟩)
  · rw [← hmissed.engine] at hkeyed
    have hmade := (hcreate missed hkeyed).1
    rw [hmissed.engine] at hmade
    refine ⟨hmade, fun ψ hψ => ?_⟩
    obtain ⟨other, hother⟩ := caches_iff.mp hψ
    rcases hholds other ψ hother with hbefore | ⟨-, hcreated⟩
    · exact .inl (caches_iff.mpr ⟨other, hbefore⟩)
    · exact hmade ψ hcreated

theorem build_keepsSupply (formula : String) : KeepsSupply (σ := σ) (build formula) := by
  intro s hkeyed
  unfold build
  split
  · exact ⟨nofun, fun φ => .inl⟩
  · exact throughCache_keepsSupply formula (createFormula_keepsEngine formula none)
      (createFormula_keepsSupply formula none) s hkeyed

theorem buildWithConstants_keepsSupply (formula : String) (constants : Bindings) :
    KeepsSupply (σ := σ) (buildWithConstants formula constants) := by
  intro s hkeyed
  unfold buildWithConstants
  dsimp only
  split
  · exact build_keepsSupply formula s hkeyed
  · split
    · exact ⟨nofun, fun φ => .inl⟩
    · exact throughCache_keepsSupply _ (createWithConstants_keepsEngine formula _)
        (createWithConstants_keepsSupply formula _) s hkeyed

theorem calculate_supplies {formula : String} {bindings : Bindings} {s : EngineState σ}
    (hkeyed : s.engine.functions.Keyed) {φ : Formula σ}
    (h : (calculate formula bindings s).2.engine.Caches φ) : s.engine.Supplies φ := by
  unfold calculate at h
  dsimp only at h
  split at h
  · exact .inl h
  · split at h
    · exact .inl h
    · have hbuild := (build_keepsSupply formula s hkeyed).2 φ
      revert h hbuild
      rcases build formula s with ⟨e | ψ, s'⟩ <;> exact fun h hbuild => hbuild h

theorem caches_of_clearCache {s : EngineState σ} {φ : Formula σ}
    (h : s.clearCache.engine.Caches φ) : s.engine.Caches φ := by
  obtain ⟨key, hheld⟩ := caches_iff.mp h
  exact (not_holds_clearCache s key φ hheld).elim

theorem caches_of_addFunction {f : Function σ} {s : EngineState σ} {φ : Formula σ}
    (h : (addFunction f s).2.engine.Caches φ) : s.engine.Caches φ := by
  unfold addFunction at h
  dsimp only at h
  split at h
  · exact h
  · split at h
    · exact h
    · have hbefore := caches_of_clearCache h
      exact hbefore

theorem caches_of_addConstant {name : String} {value : Float} {s : EngineState σ} {φ : Formula σ}
    (h : (addConstant name value s).2.engine.Caches φ) : s.engine.Caches φ := by
  unfold addConstant at h
  dsimp only at h
  split at h
  · exact h
  · have hbefore := caches_of_clearCache h
    exact hbefore

/-- Looking a formula up finds one that is there, and leaves what is there. -/
theorem caches_of_cachedFormula? (key : String) (s : EngineState σ) :
    (∀ φ, (s.cachedFormula? key).1 = some φ → s.engine.Caches φ) ∧
      ∀ φ, (s.cachedFormula? key).2.engine.Caches φ → s.engine.Caches φ := by
  refine ⟨fun φ hφ => ?_, fun φ hφ => ?_⟩
  · unfold EngineState.cachedFormula? at hφ
    split at hφ
    · cases hφ
    · rename_i cache hcache
      rcases hget : cache.get key with ⟨_ | ψ, touched⟩ <;> rw [hget] at hφ <;> cases hφ
      exact caches_iff.mpr ⟨key, cache, hcache, (Cache.get_some hget).1⟩
  · obtain ⟨other, hheld⟩ := caches_iff.mp hφ
    exact caches_iff.mpr ⟨other, holds_of_cachedFormula? hheld⟩

end Engine

namespace Session

open Engine

/-- Whether a session has a formula, in its cache or handed out. -/
def Has (s : Session σ) (φ : Formula σ) : Prop := φ ∈ s.formulas ∨ s.state.engine.Caches φ

section Requests

variable {s : Session σ} {φ : Formula σ}

theorem has_of_perform {α : Type} {action : Action σ α} {outcome : α → Outcome}
    (haction : (action s.state).2.engine.Caches φ → s.state.engine.Supplies φ)
    (h : (s.perform action outcome).2.Has φ) : s.Has φ ∨ ∃ t, φ.MadeFrom s.state.engine t := by
  rw [perform_eq] at h
  rcases h with hhanded | hcached
  · exact .inl (.inl hhanded)
  · exact (haction hcached).imp_left .inr

theorem has_of_handOut {state : EngineState σ} {ψ : Formula σ}
    (hψ : s.state.engine.Supplies ψ) (hstate : state.engine.Caches φ → s.state.engine.Supplies φ)
    (h : (handOut { s with state } ψ).2.Has φ) : s.Has φ ∨ ∃ t, φ.MadeFrom s.state.engine t := by
  rcases h with hhanded | hcached
  · rcases Array.mem_push.mp hhanded with hhanded | rfl
    · exact .inl (.inl hhanded)
    · exact hψ.imp_left .inr
  · exact (hstate hcached).imp_left .inr

theorem has_of_performBuild (hkeyed : s.state.engine.functions.Keyed)
    {action : Action σ (Formula σ)} (haction : KeepsSupply action)
    (h : (s.performBuild action).2.Has φ) : s.Has φ ∨ ∃ t, φ.MadeFrom s.state.engine t := by
  obtain ⟨hresult, hcaches⟩ := haction s.state hkeyed
  unfold Session.performBuild at h
  revert h hresult hcaches
  rcases action s.state with ⟨e | ψ, state⟩ <;> intro h hresult hcaches
  · rcases h with hhanded | hcached
    · exact .inl (.inl hhanded)
    · exact (hcaches φ hcached).imp_left .inr
  · exact has_of_handOut (hresult ψ rfl) (hcaches φ) h

/-- What is there after a request was there before or was made from a tree. -/
theorem has_of_handle (hkeyed : s.state.engine.functions.Keyed) {request : Request σ}
    (h : (s.handle request).2.Has φ) : s.Has φ ∨ ∃ t, φ.MadeFrom s.state.engine t := by
  cases request with
  | calculate formula bindings => exact has_of_perform (calculate_supplies hkeyed) h
  | build formula => exact has_of_performBuild hkeyed (build_keepsSupply formula) h
  | buildWithConstants formula constants =>
    exact has_of_performBuild hkeyed (buildWithConstants_keepsSupply formula constants) h
  | evaluate handle bindings =>
    simp only [Session.handle] at h
    split at h
    · exact has_of_perform .inl h
    · exact .inl h
  | parse formula =>
    refine has_of_perform (fun hcached => .inl ?_) h
    rwa [(parse_keepsEngine formula).engine s.state] at hcached
  | addFunction f => exact has_of_perform (fun hcached => .inl (caches_of_addFunction hcached)) h
  | addConstant name value =>
    exact has_of_perform (fun hcached => .inl (caches_of_addConstant hcached)) h
  | cacheGet key =>
    obtain ⟨hgiven, hcaches⟩ := caches_of_cachedFormula? key s.state
    simp only [Session.handle] at h
    revert h hgiven hcaches
    rcases s.state.cachedFormula? key with ⟨_ | ψ, state⟩ <;> intro h hgiven hcaches
    · exact .inl (h.imp_right (hcaches φ))
    · exact has_of_handOut (.inl (hgiven ψ rfl)) (fun hcached => .inl (hcaches φ hcached)) h
  | cacheClear => exact .inl (h.imp_right caches_of_clearCache)
  | cacheContains | describeFormula =>
    simp only [Session.handle] at h
    split at h <;> exact .inl h
  | functionExists | constantExists | functions | constants | options | describe => exact .inl h

/-- A formula that was handed out keeps its handle. -/
theorem getElem?_handle (request : Request σ) {n : Nat} (h : s.formulas[n]? = some φ) :
    (s.handle request).2.formulas[n]? = some φ := by
  have hpush : ∀ ψ, (s.formulas.push ψ)[n]? = some φ := by
    intro ψ
    obtain ⟨hlt, hat⟩ := Array.getElem?_eq_some_iff.mp h
    rw [Array.getElem?_push_lt hlt, hat]
  have hbuild : ∀ action : Action σ (Formula σ),
      (s.performBuild action).2.formulas[n]? = some φ := by
    intro action
    unfold Session.performBuild
    rcases action s.state with ⟨e | ψ, state⟩
    · exact h
    · exact hpush ψ
  cases request with
  | build formula => exact hbuild _
  | buildWithConstants formula constants => exact hbuild _
  | calculate | parse | addFunction | addConstant =>
    simp only [Session.handle, perform_eq]
    exact h
  | evaluate handle bindings =>
    simp only [Session.handle]
    split
    · rw [perform_eq]
      exact h
    · exact h
  | cacheGet key =>
    simp only [Session.handle]
    rcases s.state.cachedFormula? key with ⟨_ | ψ, state⟩
    · exact h
    · exact hpush ψ
  | cacheContains | describeFormula =>
    simp only [Session.handle]
    split <;> exact h
  | functionExists | constantExists | functions | constants | cacheClear | options | describe =>
    exact h

end Requests

/-- The invariant of a session: every function is found under its own name, and every formula was
made from a tree. -/
structure Sourced (s : Session σ) : Prop where
  keyed : s.state.engine.functions.Keyed
  named : s.state.engine.functions.Named
  madeFrom : ∀ φ, s.Has φ → ∃ t, φ.MadeFrom s.state.engine t

theorem madeFrom_handle {s : Session σ} (request : Request σ) {φ : Formula σ} {t : Tree}
    (h : φ.MadeFrom s.state.engine t) : φ.MadeFrom (s.handle request).2.state.engine t := by
  obtain ⟨cache, hengine⟩ := s.handle_engine request
  obtain ⟨⟨earlier, hprepared, hfollows⟩, hcallees⟩ := h
  rw [hengine]
  refine ⟨⟨earlier, hprepared, Table.Follows.attemptAll hfollows _⟩, fun name hname => ?_⟩
  exact Table.contains_attemptAll (hcallees name hname) _

theorem Sourced.handle {s : Session σ} (h : s.Sourced) (request : Request σ) :
    (s.handle request).2.Sourced := by
  have hmade : ∀ φ, (s.handle request).2.Has φ →
      ∃ t, φ.MadeFrom (s.handle request).2.state.engine t := by
    intro φ hφ
    obtain ⟨t, ht⟩ := (has_of_handle h.keyed hφ).elim (h.madeFrom φ) id
    exact ⟨t, madeFrom_handle request ht⟩
  obtain ⟨cache, hengine⟩ := s.handle_engine request
  have hfunctions := congrArg Engine.functions hengine
  refine ⟨?_, ?_, hmade⟩
  · rw [hfunctions]
    exact h.keyed.attemptAll _
  · rw [hfunctions]
    exact h.named.attemptAll _

theorem Sourced.after {s : Session σ} (h : s.Sourced) (requests : List (Request σ)) :
    (s.after requests).Sourced :=
  after_keeps (A := fun _ => True) (fun _ request _ h => h.handle request) h fun _ _ => trivial

theorem sourced_start {options : Options} {memory : σ} {generator : Generator}
    {state : EngineState σ} (h : EngineState.start options memory generator = .ok state) :
    (start state).Sourced := by
  have hnew := EngineState.isNew_of_start h
  refine ⟨hnew.keyed, ?_, ?_⟩
  · obtain ⟨tried, -, htable⟩ := hnew.functions
    change state.engine.functions.Named
    rw [htable]
    exact (Table.named_empty _).attemptAll tried
  · rintro φ (hhanded | ⟨cache, hcache, key, hmem⟩)
    · simp [start] at hhanded
    · rw [hnew.entries_nil hcache] at hmem
      cases hmem

end Session

end FormulaEngine
