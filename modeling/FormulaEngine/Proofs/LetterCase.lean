import FormulaEngine.Proofs.RegistrationHistory
import FormulaEngine.Proofs.RequestEffects
import FormulaEngine.Proofs.Respelling

/-!
Letter case. Writing a formula in small letters is a respelling, and where letter case does not
matter a table finds under a name what it finds under the name in small letters. Bindings that
differ in the letter case of their names, and in their order, give the same values to the same
names.
-/
namespace FormulaEngine

variable {σ : Type}

namespace Text

/-- A character is the small form of itself, or it and its small form are letters. -/
theorem toLower_cases (c : Char) :
    c.toLower = c ∨ (c.isUpper = true ∧ c.isAlpha = true ∧ c.toLower.isAlpha = true) := by
  by_cases h : c.isUpper = true
  · have halpha : c.isAlpha = true := by simp [Char.isAlpha, h]
    exact .inr ⟨h, halpha, by rw [Char.isAlpha_toLower_eq_isAlpha, halpha]⟩
  · exact .inl (Char.toLower_eq_of_not_isUpper h)

theorem lowerChar_toLower (c : Char) : lowerChar c.toLower = lowerChar c := by
  rcases toLower_cases c with hsame | ⟨-, halpha, hlower⟩
  · rw [hsame]
  · have hkelvin : ∀ d : Char, d.isAlpha = true → d ≠ '\u212a' := by
      rintro d hd rfl
      revert hd
      decide
    rw [lowerChar, lowerChar, if_neg (hkelvin _ hlower), if_neg (hkelvin _ halpha),
      Char.toLower_toLower_eq_toLower]

theorem lower_toLower (name : String) : lower name.toLower = lower name := by
  apply String.toList_injective
  rw [lower, lower, String.toLower, String.toList_map, String.toList_map, String.toList_map,
    List.map_map]
  exact List.map_congr_left fun c _ => lowerChar_toLower c

theorem isBlank_toLower (c : Char) : isBlank c.toLower = isBlank c := by
  have hletter : ∀ d : Char, d.isAlpha = true → isBlank d = false := by
    intro d hd
    have hrange := toNat_of_isAlpha hd
    exact isBlank_eq_false (by omega)
  rcases toLower_cases c with hsame | ⟨-, halpha, hlower⟩
  · rw [hsame]
  · rw [hletter c halpha, hletter _ hlower]

end Text

namespace Respelling

/-- Writing in small letters. -/
def lowering : Respelling := ⟨Char.toLower, String.toLower⟩

theorem toLower_eq_e_iff (c : Char) : c.toLower = 'e' ↔ c = 'e' ∨ c = 'E' := by
  constructor
  · intro h
    rcases Text.toLower_cases c with hsame | ⟨hupper, -, -⟩
    · exact .inl (hsame.symm.trans h)
    · right
      rw [Char.toLower_eq_of_isUpper hupper] at h
      have hnat := congrArg Char.toNat h
      rw [Char.toNat_ofNat] at hnat
      split at hnat
      · have hc : c.toNat = 69 := Nat.add_right_cancel hnat
        rw [← Char.ofNat_toNat c, hc]
      · cases hnat
  · rintro (rfl | rfl) <;> rfl

theorem isExponentMark_toLower (c : Char) :
    Decimal.Numeral.isExponentMark c.toLower = Decimal.Numeral.isExponentMark c := by
  have hmark : ∀ d : Char, Decimal.Numeral.isExponentMark d = true ↔ d.toLower = 'e' := by
    intro d
    rw [toLower_eq_e_iff, Decimal.Numeral.isExponentMark, Bool.or_eq_true, beq_iff_eq, beq_iff_eq]
  rw [Bool.eq_iff_iff, hmark, hmark, Char.toLower_toLower_eq_toLower]

theorem fits_lowering {L : Locale} (hdecimal : L.decimalSeparator.isAlpha = false)
    (hargument : L.argumentSeparator.isAlpha = false) : lowering.Fits L L := by
  -- What no letter is holds of a character if it holds of the small form.
  have hagree : ∀ p : Char → Prop, (∀ c : Char, p c → c.isAlpha = false) →
      ∀ c : Char, p c.toLower ↔ p c := by
    intro p hp c
    rcases Text.toLower_cases c with hsame | ⟨-, halpha, hlower⟩
    · rw [hsame]
    · exact iff_of_false (fun h => by simp [hp _ h] at hlower) fun h => by simp [hp c h] at halpha
  have hdigit : ∀ c : Char, c.isDigit = true → c.isAlpha = false := by
    intro c hc
    rw [Bool.eq_false_iff]
    intro halpha
    have hlow := Text.toNat_of_isDigit hc
    have hhigh := Text.toNat_of_isAlpha halpha
    omega
  have hsymbol : ∀ c : Char, TokenKind.isSymbol c = true → c.isAlpha = false := by
    have hsymbols : TokenKind.symbols.all (fun c => !c.isAlpha) = true := by decide +kernel
    intro c hc
    simpa using List.all_eq_true.mp hsymbols c (List.contains_iff_mem.mp hc)
  exact {
    isBlank := Text.isBlank_toLower
    decimal := hagree (· = L.decimalSeparator) fun c hc => hc ▸ hdecimal
    argument := hagree (· = L.argumentSeparator) fun c hc => hc ▸ hargument
    isNameStart := Char.isAlpha_toLower_eq_isAlpha
    isNamePart := fun c => by
      rcases Text.toLower_cases c with hsame | ⟨-, halpha, hlower⟩
      · exact congrArg Text.isNamePart hsame
      · simp [lowering, Text.isNamePart, Char.isAlphanum, halpha, hlower]
    isExponentMark := isExponentMark_toLower
    fixed := fun c hc => by
      have halpha : c.isAlpha = false := hc.elim (hdigit c) (hsymbol c)
      exact (Text.toLower_cases c).resolve_right fun h => by simp [halpha] at h
    isDigit := fun c => Bool.eq_iff_iff.mpr (hagree (·.isDigit = true) hdigit c)
    isSymbol := fun c => Bool.eq_iff_iff.mpr (hagree (TokenKind.isSymbol · = true) hsymbol c)
    name := fun text _ => String.toList_injective (by simp [lowering, String.toLower]) }

end Respelling

theorem Table.get?_toLower {ε : Type} {t : Table ε} (h : t.caseSensitive = false)
    (name : String) : t.get? name.toLower = t.get? name := by
  simp only [get?, key, h, Text.nameKey, Bool.false_eq_true, if_false, Text.lower_toLower]

section Bindings

/-- Bindings with their names in small letters. -/
def Bindings.lowered (bindings : Bindings) : Bindings :=
  bindings.map fun binding => (binding.1.toLower, binding.2)

/-- Where every name is bound once, it does not matter in which order. -/
theorem lookup_eq_of_perm {bindings bindings' : Bindings} (h : bindings'.Perm bindings)
    (hnodup : (bindings.map Prod.fst).Nodup) (name : String) :
    bindings'.lookup name = bindings.lookup name := by
  have hnodup' : (bindings'.map Prod.fst).Nodup := (h.map Prod.fst).nodup_iff.mpr hnodup
  cases hlookup : bindings.lookup name with
  | some x => exact Table.lookup_of_mem hnodup' (h.mem_iff.mpr (Cache.mem_of_lookup hlookup))
  | none =>
    rw [List.lookup_eq_none_iff] at hlookup ⊢
    exact fun binding hbinding => hlookup binding (h.mem_iff.mp hbinding)

theorem Engine.normalize_perm {e : Engine σ} (h : e.options.caseSensitive = false)
    {bindings bindings' : Bindings} (hperm : bindings'.lowered.Perm bindings.lowered) :
    (e.normalize bindings').Perm (e.normalize bindings) := by
  have hnormalize : ∀ bindings : Bindings, e.normalize bindings.lowered = e.normalize bindings := by
    intro bindings
    simp only [normalize, Bindings.lowered, List.map_map, h, Text.nameKey, Bool.false_eq_true,
      if_false]
    refine List.map_congr_left fun binding _ => ?_
    exact Prod.ext (Text.lower_toLower binding.1) rfl
  rw [← hnormalize bindings, ← hnormalize bindings']
  exact hperm.map _

/-- The complaints about single bindings. -/
def Engine.complaints (e : Engine σ) (bindings : Bindings) : List CalculationError :=
  bindings.filterMap fun binding => e.nameError? [binding]

theorem Engine.nameError?_eq_head? (e : Engine σ) (bindings : Bindings) :
    e.nameError? bindings = (e.complaints bindings).head? := by
  rw [complaints, List.head?_filterMap]
  unfold nameError?
  refine congrArg (bindings.findSome? ·) (funext fun binding => ?_)
  rw [List.findSome?_singleton]

/-- If there is one complaint at most, it is the first one in every order. -/
theorem Engine.nameError?_eq_of_perm (e : Engine σ) {bindings bindings' : Bindings}
    (h : bindings'.Perm bindings) (hone : (e.complaints bindings).length ≤ 1) :
    e.nameError? bindings' = e.nameError? bindings := by
  have hperm : (e.complaints bindings').Perm (e.complaints bindings) := h.filterMap _
  rw [nameError?_eq_head?, nameError?_eq_head?]
  cases hcomplaints : e.complaints bindings with
  | nil =>
    rw [hcomplaints, List.perm_nil] at hperm
    rw [hperm]
  | cons complaint rest =>
    rw [hcomplaints, List.length_cons] at hone
    obtain rfl : rest = [] := List.eq_nil_of_length_eq_zero (by omega)
    rw [hcomplaints, List.perm_singleton] at hperm
    rw [hperm]

end Bindings

end FormulaEngine
