import FormulaEngine.Event
import FormulaEngine.Proofs.Registrations

/-!
What a table keeps while functions are replaced in it. A function that takes the place of
another takes as many arguments, whatever else it does. So a number of arguments that a
name accepts is accepted for good.
-/
namespace FormulaEngine

/-- Functions that may take each other's place have the same arity. -/
theorem Signature.arity_eq_of_replacementError? {existing replacement : Signature}
    (h : existing.replacementError? replacement = none) : replacement.arity = existing.arity := by
  unfold replacementError? at h
  split at h
  · rename_i hexisting hreplacement
    split at h
    · rename_i heq
      rw [hexisting, hreplacement, heq]
    · cases h
  · rename_i hexisting hreplacement
    rw [hexisting, hreplacement]
  · cases h

namespace Table

variable {ε : Type} [Entry ε]

/-- An entry is registered over nothing or over an entry that it may replace. -/
theorem register_ok {t next : Table ε} {entry : ε} {replaced : Bool}
    (h : t.register entry = .ok (replaced, next)) :
    next = t.put entry ∧ Text.isName (Entry.name entry) = true ∧
      replaced = t.contains (Entry.name entry) ∧
      ∀ existing, t.get? (Entry.name entry) = some existing →
        Entry.overwritable existing = true ∧ Entry.replacementError? existing entry = none := by
  unfold register admission at h
  by_cases hname : Text.isName (Entry.name entry) = true
  · cases hget : t.get? (Entry.name entry) with
    | none =>
      simp only [hname, hget, Bool.not_true, Bool.false_eq_true, if_false, Except.ok.injEq,
        Prod.mk.injEq] at h
      obtain ⟨rfl, rfl⟩ := h
      exact ⟨rfl, hname, by simp [contains, hget], nofun⟩
    | some existing =>
      by_cases hover : Entry.overwritable existing = true
      · cases herror : Entry.replacementError? existing entry with
        | none =>
          simp only [hname, hget, hover, herror, Bool.not_true, Bool.false_eq_true, if_false,
            Except.ok.injEq, Prod.mk.injEq] at h
          obtain ⟨rfl, rfl⟩ := h
          refine ⟨rfl, hname, by simp [contains, hget], fun other hother => ?_⟩
          cases hother
          exact ⟨hover, herror⟩
        | some e => simp [hname, hget, hover, herror] at h
      · simp [hname, hget, hover] at h
  · simp [hname] at h

theorem attempt_of_register_ok {t next : Table ε} {entry : ε} {replaced : Bool}
    (h : t.register entry = .ok (replaced, next)) : t.attempt entry = next := by
  rw [attempt, h]

theorem attempt_of_register_error {t : Table ε} {entry : ε} {e : RegistrationError}
    (h : t.register entry = .error e) : t.attempt entry = t := by
  rw [attempt, h]

/-- Registering entries up to the first that is refused attempts to register some of them. -/
theorem registerAll_eq_attemptAll (t : Table ε) (entries : List ε) :
    ∃ tried, tried <+: entries ∧ (t.registerAll entries).2.1 = t.attemptAll tried := by
  induction entries generalizing t with
  | nil => exact ⟨[], List.prefix_refl _, rfl⟩
  | cons entry rest ih =>
    unfold registerAll
    cases hregister : t.register entry with
    | error e => exact ⟨[], List.nil_prefix, rfl⟩
    | ok registered =>
      obtain ⟨replaced, next⟩ := registered
      obtain ⟨tried, htried, hnext⟩ := ih next
      refine ⟨entry :: tried, (List.prefix_cons_inj entry).mpr htried, ?_⟩
      rw [attemptAll, List.foldl_cons, attempt_of_register_ok hregister]
      exact hnext

/-- Whether every entry stands under the key of its own name. -/
def Keyed (t : Table ε) : Prop :=
  ∀ name entry, t.get? name = some entry → t.key (Entry.name entry) = t.key name

theorem keyed_empty (caseSensitive : Bool) : (empty caseSensitive : Table ε).Keyed := by
  intro name entry h
  simp [get?, empty] at h

theorem Keyed.attempt {t : Table ε} (h : t.Keyed) (entry : ε) : (t.attempt entry).Keyed := by
  intro name found hfound
  rcases t.attempt_cases entry with hsame | ⟨-, -, hput⟩
  · rw [hsame] at hfound ⊢
    exact h name found hfound
  · rw [hput] at hfound ⊢
    rw [get?_put] at hfound
    split at hfound
    · rename_i hkey
      cases hfound
      exact hkey.symm
    · exact h name found hfound

theorem Keyed.attemptAll {t : Table ε} (h : t.Keyed) (entries : List ε) :
    (t.attemptAll entries).Keyed :=
  attemptAll_induction (fun _ entry _ h => h.attempt entry) h

/-- An entry is found under its own name. -/
theorem Keyed.get?_name {t : Table ε} (h : t.Keyed) {name : String} {entry : ε}
    (hget : t.get? name = some entry) : t.get? (Entry.name entry) = some entry :=
  (get?_congr (h name entry hget)).trans hget

variable {σ : Type}

/-- The function of a name may be replaced, but not by one that takes another number of
arguments. -/
theorem exists_get?_attempt {t : Table (Function σ)} {name : String} {f : Function σ}
    (hget : t.get? name = some f) (g : Function σ) :
    ∃ f', (t.attempt g).get? name = some f' ∧ f'.arity = f.arity := by
  cases hregister : t.register g with
  | error e => exact ⟨f, by rw [attempt_of_register_error hregister, hget], rfl⟩
  | ok registered =>
    obtain ⟨replaced, next⟩ := registered
    obtain ⟨rfl, -, -, hreplaces⟩ := register_ok hregister
    rw [attempt_of_register_ok hregister]
    by_cases hkey : t.key name = t.key g.name
    · have hexisting : t.get? g.name = some f := (get?_congr hkey).symm.trans hget
      exact ⟨g, (get?_put t g name).trans (if_pos hkey),
        Signature.arity_eq_of_replacementError? (hreplaces f hexisting).2⟩
    · exact ⟨f, by rw [get?_put]; exact (if_neg hkey).trans hget, rfl⟩

theorem exists_get?_attemptAll {t : Table (Function σ)} {name : String} {f : Function σ}
    (hget : t.get? name = some f) (functions : List (Function σ)) :
    ∃ f', (t.attemptAll functions).get? name = some f' ∧ f'.arity = f.arity := by
  refine attemptAll_induction (P := fun t => ∃ f', t.get? name = some f' ∧ f'.arity = f.arity)
    (fun t g _ h => ?_) ⟨f, hget, rfl⟩
  obtain ⟨f', hget', harity⟩ := h
  obtain ⟨f'', hget'', harity'⟩ := exists_get?_attempt hget' g
  exact ⟨f'', hget'', harity'.trans harity⟩

/-- Whether a call with this number of arguments fits the function of a name. -/
def Admits (t : Table (Function σ)) (name : String) (argumentCount : Nat) : Prop :=
  ∃ f, t.get? name = some f ∧ f.accepts argumentCount = true

/-- What a name accepts it accepts for good. -/
theorem Admits.attemptAll {t : Table (Function σ)} {name : String} {argumentCount : Nat}
    (h : t.Admits name argumentCount) (functions : List (Function σ)) :
    (t.attemptAll functions).Admits name argumentCount := by
  obtain ⟨f, hget, haccepts⟩ := h
  obtain ⟨f', hget', harity⟩ := exists_get?_attemptAll hget functions
  refine ⟨f', hget', ?_⟩
  rw [Signature.accepts, harity]
  exact haccepts

end Table

end FormulaEngine
