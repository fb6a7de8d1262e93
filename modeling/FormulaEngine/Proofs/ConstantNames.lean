import FormulaEngine.Proofs.CacheSources
import FormulaEngine.Proofs.UnreadableKeys

/-!
Names of constants that come with a formula. A name that is no identifier or belongs to a protected
constant is refused when the formula is made, not when it is found in the cache. The keys of the
cache tell protected names apart from all others, so these are always refused. A name that is no
identifier may spell the rest of the key of another formula, and then that formula is found.
-/
namespace FormulaEngine

variable {σ : Type}

theorem exists_ok_of_any {ε α : Type} {result : Except ε α} {p : α → Bool}
    (h : result.toOption.any p = true) : ∃ value, result = .ok value ∧ p value = true := by
  cases result with
  | error e => cases h
  | ok value => exact ⟨value, rfl, h⟩

namespace Table

variable {ε : Type} [Entry ε] {t : Table ε} {name : String}

/-- Whether a table takes no new entry of a name. -/
def Refuses (t : Table ε) (name : String) : Prop :=
  Text.isName name = false ∨
    ∃ existing, t.get? name = some existing ∧ Entry.overwritable existing = false

/-- What is refused once is always refused. -/
theorem Refuses.attempt (h : t.Refuses name) (entry : ε) : (t.attempt entry).Refuses name :=
  h.imp_right fun ⟨existing, hget, hprotected⟩ =>
    ⟨existing, get?_attempt_of_protected hget hprotected entry, hprotected⟩

theorem not_refuses_of_register {entry : ε} {replaced : Bool} {next : Table ε}
    (h : t.register entry = .ok (replaced, next)) : ¬t.Refuses (Entry.name entry) := by
  obtain ⟨-, hname, -, hreplaces⟩ := register_ok h
  rintro (hbad | ⟨existing, hget, hprotected⟩)
  · cases hname.symm.trans hbad
  · cases (hreplaces existing hget).1.symm.trans hprotected

/-- Entries that are all registered have names that were not refused from the start. -/
theorem not_refuses_of_registerAll {entries : List ε} (h : (t.registerAll entries).2.2 = .ok ()) :
    ∀ entry ∈ entries, ¬t.Refuses (Entry.name entry) := by
  induction entries generalizing t with
  | nil => nofun
  | cons entry rest ih =>
    unfold registerAll at h
    cases hregister : t.register entry with
    | error e =>
      rw [hregister] at h
      cases h
    | ok registered =>
      obtain ⟨replaced, next⟩ := registered
      rw [hregister] at h
      rw [List.forall_mem_cons]
      refine ⟨not_refuses_of_register hregister, fun other hother hrefuses => ?_⟩
      have hlater := hrefuses.attempt entry
      rw [attempt_of_register_ok hregister] at hlater
      exact ih h other hother hlater

end Table

namespace Engine

/-- With a name that is refused nothing is made. -/
theorem createWithConstants_refuses (formula : String) {constants : Bindings} {s : EngineState σ}
    (hbad : ∃ constant ∈ constants, s.engine.constants.Refuses constant.1) :
    ∃ e, (createWithConstants formula constants s).1 = .error (.registration e) := by
  obtain ⟨constant, hconstant, hrefuses⟩ := hbad
  unfold createWithConstants
  dsimp only
  split
  · exact ⟨_, rfl⟩
  · rename_i hregistered
    refine (Table.not_refuses_of_registerAll (congrArg (fun registered => registered.2.2)
      hregistered) ⟨constant.1, constant.2, true⟩ ?_ hrefuses).elim
    exact List.mem_map_of_mem hconstant

theorem parse_of_makes {e : Engine σ} {formula : String} {φ : Formula σ}
    (h : e.Makes (.plain formula) φ) :
    ∃ t, Tree.parse e.options.locale (e.vocabulary e.constants) formula = .ok t := by
  obtain ⟨s, rfl, hmade⟩ := h
  have hcreate : (createFormula formula none s).1 = .ok φ := hmade
  rcases parseWith_cases formula s.engine.constants s with
    ⟨e, hparse⟩ | ⟨t, -, -, hparse, -⟩
  · rw [createFormula, Option.getD_none, hparse] at hcreate
    cases hcreate
  · exact ⟨t, hparse⟩

/-- The constants that a formula was made with have names that are not refused. -/
theorem not_refuses_of_made {e : Engine σ} {formula : String} {constants : Bindings} {φ : Formula σ}
    (h : e.Made (.withConstants formula constants) φ) :
    ∀ constant ∈ constants, ¬e.constants.Refuses constant.1 := by
  obtain ⟨_, hsucceeds, -, s, rfl, hcreate⟩ := h
  intro constant hconstant hrefuses
  rw [hsucceeds.constants] at hrefuses
  obtain ⟨cause, herror⟩ := createWithConstants_refuses formula
    ⟨constant, hconstant, hrefuses⟩
  cases herror.symm.trans hcreate

theorem isName_of_made {e : Engine σ} {formula : String} {constants : Bindings} {φ : Formula σ}
    (h : e.Made (.withConstants formula constants) φ) :
    ∀ constant ∈ constants, Text.isName constant.1 = true := fun constant hconstant =>
  Bool.eq_true_of_not_eq_false fun hbad => not_refuses_of_made h constant hconstant (.inl hbad)

/-- Where some name is refused, a formula that is kept under the key was made from something else,
and some name is no identifier. -/
theorem exists_not_isName_of_made {e : Engine σ} {formula : String} {constants : Bindings}
    (hbad : ∃ constant ∈ constants, e.constants.Refuses constant.1) {source : Source}
    {φ : Formula σ} (hmade : e.Made source φ) (hkey : source.key = constantsKey formula constants) :
    source ≠ .withConstants formula constants ∧
      ∃ constant ∈ constants, Text.isName constant.1 = false := by
  obtain ⟨constant, hconstant, hrefuses⟩ := hbad
  refine ⟨?_, ?_⟩
  · rintro rfl
    exact not_refuses_of_made hmade constant hconstant hrefuses
  by_contra hnone
  have hnames : ∀ constant ∈ constants, Text.isName constant.1 = true := fun constant hmem =>
    Bool.eq_true_of_not_eq_false fun hbad => hnone ⟨constant, hmem, hbad⟩
  cases source with
  | plain text =>
    obtain ⟨earlier, -, -, hmakes⟩ := hmade
    obtain ⟨t, hparse⟩ := parse_of_makes hmakes
    obtain rfl : text = constantsKey formula constants := hkey
    exact Source.parse_constantsKey_ne_ok (List.ne_nil_of_mem hconstant) hnames _ _ _ t hparse
  | withConstants formula' constants' =>
    have hnames' := isName_of_made hmade
    obtain ⟨-, htexts⟩ := Source.eq_of_constantsKey_eq hnames' hnames hkey
    obtain ⟨constant', hconstant', htext⟩ :=
      List.mem_map.mp (htexts ▸ List.mem_map_of_mem hconstant)
    obtain ⟨hname, -⟩ :=
      Source.eq_of_constantText_eq (hnames' constant' hconstant') (hnames constant hconstant) htext
    exact not_refuses_of_made hmade constant' hconstant' (hname ▸ hrefuses)

end Engine

namespace Session

open Engine

/-- A formula with constants of its own is refused, at any time, if one of the names is no
identifier or belongs to a protected constant. There is one exception: another formula may be kept
under the same key, which takes a name that is no identifier, and then that one is handed out. -/
theorem bad_constant_names_refused {options : Options} {memory : σ} {generator : Generator}
    {state : EngineState σ} (hstart : EngineState.start options memory generator = .ok state)
    (requests : List (Request σ)) {formula : String}
    (hformula : Text.isBlankText formula.toList = false) {constants : Bindings}
    (hbad : ∃ constant ∈ constants,
      ((start state).after requests).state.engine.constants.Refuses constant.1) :
    let s := (start state).after requests
    let answer := (s.handle (.buildWithConstants formula constants)).1
    let source := Source.of formula constants
    (∃ e, answer = .error (.registration e)) ∨
      answer = .ok (.handle s.formulas.size) ∧
      (∃ constant ∈ constants, Text.isName constant.1 = false) ∧
      ∃ φ other, s.state.engine.Holds source.key φ ∧ s.state.engine.Made other φ ∧
        other.key = source.key ∧ other ≠ source ∧
        ∃ request ∈ requests, request.source? = some other := by
  intro s answer source
  have hordered : source =
      .withConstants formula (constants.mergeSort fun a b => a.1 ≤ b.1) := by
    obtain ⟨constant, hconstant, -⟩ := hbad
    have hne : constants.isEmpty = false := List.isEmpty_eq_false_iff_exists_mem.mpr ⟨_, hconstant⟩
    exact if_neg (by simp [hne])
  have hbad' : ∃ constant ∈ constants.mergeSort (fun a b => a.1 ≤ b.1),
      s.state.engine.constants.Refuses constant.1 := by
    obtain ⟨constant, hconstant, hrefuses⟩ := hbad
    exact ⟨constant, List.mem_mergeSort.mpr hconstant, hrefuses⟩
  have hfetch : fetch source s.state = throughCache source.key source.create s.state := by
    rw [fetch, Source.formula_of, if_neg (by simp [hformula])]
  have hanswer : answer =
      (throughCache source.key source.create s.state).1.map fun _ => .handle s.formulas.size := by
    rw [← hfetch, ← buildWithConstants_eq_fetch]
    exact performBuild_answer s _
  rw [hanswer]
  rcases throughCache_cases source.key source.create_keepsEngine s.state with
    ⟨φ, s', hthrough, hholds, -⟩ | ⟨missed, s', hmissed, hthrough, -⟩
  · obtain ⟨request, hrequest, other, hother, hkey, hmade⟩ :=
      stocked_after hstart requests source.key φ hholds
    rw [hordered] at hkey
    obtain ⟨hne, constant, hconstant, hname⟩ := exists_not_isName_of_made hbad' hmade hkey
    rw [hthrough]
    refine .inr ⟨rfl, ⟨constant, List.mem_mergeSort.mp hconstant, hname⟩, φ, other, hholds, hmade,
      ?_, ?_, request, hrequest, hother⟩
    · rw [hordered, hkey]
    · rwa [hordered]
  · left
    rw [← hmissed.engine] at hbad'
    obtain ⟨e, herror⟩ := createWithConstants_refuses formula hbad'
    have hcreate : (source.create missed).1 = .error (.registration e) := by
      rw [hordered]
      exact herror
    exact ⟨e, by rw [hthrough, hcreate]; rfl⟩

/-- A protected constant is refused also where formulas with its name are kept. -/
theorem bad_constant_names_refused_pi :
    let options : Options := { caseSensitive := true, defaultFunctions := false }
    let requests : List (Request Nat) := [.calculate "2*pi" [], .buildWithConstants "pi*x" [("x", 3)]]
    let constants : Bindings := [("x", 3), ("pi", 3)]
    ∃ state, EngineState.start options 0 ⟨[], 0⟩ = .ok state ∧
      Text.isBlankText "pi*x".toList = false ∧
      (∃ constant ∈ constants,
        ((start state).after requests).state.engine.constants.Refuses constant.1) ∧
      ∃ e, (((start state).after requests).handle (.buildWithConstants "pi*x" constants)).1 =
        .error (.registration e) := by
  intro options requests constants
  have hprotected : (EngineState.start options 0 ⟨[], 0⟩).toOption.any (fun state =>
      (((start state).after requests).state.engine.constants.get? "pi").any
        fun pi => !Entry.overwritable pi) = true := by
    decide +kernel
  obtain ⟨state, hstart, hpi⟩ := exists_ok_of_any hprotected
  obtain ⟨pi, hget, hover⟩ := (Option.any_eq_true _ _).mp hpi
  have hbad : ∃ constant ∈ constants,
      ((start state).after requests).state.engine.constants.Refuses constant.1 :=
    ⟨("pi", 3), by simp [constants], .inr ⟨pi, hget, by simpa using hover⟩⟩
  refine ⟨state, hstart, by decide, hbad,
    (bad_constant_names_refused hstart requests (by decide) hbad).resolve_right fun hfound => ?_⟩
  exact absurd hfound.2.1 (by decide)

/-- A name that spells the rest of a key is taken for the names and values that the key has. -/
theorem bad_constant_name_found :
    let options : Options := { defaultFunctions := false, defaultConstants := false }
    let requests : List (Request Nat) := [.buildWithConstants "a+b" [("a", 1), ("b", 2)]]
    let constants : Bindings := [("a:1,b", 2)]
    ∃ state, EngineState.start options 0 ⟨[], 0⟩ = .ok state ∧
      Text.isBlankText "a+b".toList = false ∧
      (∃ constant ∈ constants, Text.isName constant.1 = false) ∧
      (((start state).after requests).handle (.buildWithConstants "a+b" constants)).1.isOk =
        true := by
  intro options requests constants
  refine ⟨_, rfl, by decide, by decide, ?_⟩
  have hsorted : Source.of "a+b" [("a", 1), ("b", 2)] =
      .withConstants "a+b" [("a", 1), ("b", 2)] := by
    rw [Source.of, if_neg (by decide), List.mergeSort_of_pairwise (by decide)]
  simp only [requests, Session.after, Session.handle, buildWithConstants_eq_fetch, hsorted]
  decide +kernel

end Session

end FormulaEngine
