import FormulaEngine.Proofs.Respelling
import Mathlib.Logic.Equiv.Basic

/-!
Formulas in the punctuation of other locales. A text that has none of the marks of a locale, but for
points and commas, is read in the punctuation of that locale as it is read in that of the United
States. For texts of this kind putting in the marks of the locale is an exchange of characters, and
an exchange leaves apart what was apart.
-/
namespace FormulaEngine.Locale

open Equiv

/-- Whether a character is neither blank nor a letter or a digit, and no bracket or operator has
it. -/
structure IsMark (c : Char) : Prop where
  isBlank : Text.isBlank c = false
  isAlphanum : c.isAlphanum = false
  isSymbol : TokenKind.isSymbol c = false

instance (c : Char) : Decidable (IsMark c) :=
  decidable_of_iff (Text.isBlank c = false ∧ c.isAlphanum = false ∧ TokenKind.isSymbol c = false)
    ⟨fun h => ⟨h.1, h.2.1, h.2.2⟩, fun h => ⟨h.1, h.2, h.3⟩⟩

/-- A character of a text with points and commas in the punctuation of a locale. -/
def punctuate (L : Locale) (c : Char) : Char :=
  if c = '.' then L.decimalSeparator else if c = ',' then L.argumentSeparator else c

/-- Whether a text has the separators of a locale at most as points and commas. -/
def UnusedIn (L : Locale) (text : String) : Prop :=
  ∀ c ∈ text.toList, c = L.decimalSeparator ∨ c = L.argumentSeparator → c = '.' ∨ c = ','

instance (L : Locale) (text : String) : Decidable (L.UnusedIn text) :=
  List.decidableBAll
    (fun c => c = L.decimalSeparator ∨ c = L.argumentSeparator → c = '.' ∨ c = ',') text.toList

/-- Whether a character is a mark that no name has. -/
def IsOutside (c : Char) : Prop := IsMark c ∧ c ≠ '_'

theorem IsOutside.isNamePart {c : Char} (h : IsOutside c) : Text.isNamePart c = false := by
  rw [Text.isNamePart, h.1.isAlphanum, Bool.false_or, beq_eq_false_iff_ne]
  exact h.2

theorem IsOutside.isNameStart {c : Char} (h : IsOutside c) : Text.isNameStart c = false :=
  (Bool.or_eq_false_iff.mp h.1.isAlphanum).1

theorem IsOutside.isDigit {c : Char} (h : IsOutside c) : c.isDigit = false :=
  (Bool.or_eq_false_iff.mp h.1.isAlphanum).2

theorem IsOutside.isExponentMark {c : Char} (h : IsOutside c) :
    Decimal.Numeral.isExponentMark c = false := by
  have hstart := h.isNameStart
  rw [Decimal.Numeral.isExponentMark, Bool.or_eq_false_iff, beq_eq_false_iff_ne,
    beq_eq_false_iff_ne]
  constructor <;> rintro rfl <;> revert hstart <;> decide

theorem isOutside_point : IsOutside '.' := ⟨by decide, by decide⟩

theorem isOutside_comma : IsOutside ',' := ⟨by decide, by decide⟩

theorem swap_of_not_isOutside {p q c : Char} (hp : IsOutside p) (hq : IsOutside q)
    (hc : ¬ IsOutside c) : swap p q c = c :=
  swap_apply_of_ne_of_ne (fun h => hc (h ▸ hp)) fun h => hc (h ▸ hq)

theorem IsOutside.swap {p q c : Char} (hp : IsOutside p) (hq : IsOutside q) (hc : IsOutside c) :
    IsOutside (swap p q c) := by
  rw [swap_apply_def]
  split
  · exact hq
  split
  · exact hp
  · exact hc

/-- The exchange of characters that puts the marks of a locale in the place of point and comma. The
comma may have given way to the decimal separator already. -/
def exchange (L : Locale) : Perm Char :=
  (swap '.' L.decimalSeparator).trans
    (swap (swap '.' L.decimalSeparator ',') L.argumentSeparator)

section Exchange

variable {L : Locale}

theorem exchange_comma : L.exchange ',' = L.argumentSeparator := swap_apply_left _ _

theorem exchange_point (hne : L.decimalSeparator ≠ L.argumentSeparator) :
    L.exchange '.' = L.decimalSeparator := by
  have hmoved : swap '.' L.decimalSeparator ',' ≠ L.decimalSeparator := by
    intro h
    have hcomma := (swap '.' L.decimalSeparator).injective (h.trans (swap_apply_left _ _).symm)
    exact absurd hcomma (by decide)
  rw [exchange, trans_apply, swap_apply_left, swap_apply_of_ne_of_ne hmoved.symm hne]

/-- In a text without the separators the exchange does no more than to put them in. -/
theorem exchange_eq_punctuate (hne : L.decimalSeparator ≠ L.argumentSeparator) {c : Char}
    (hc : c = L.decimalSeparator ∨ c = L.argumentSeparator → c = '.' ∨ c = ',') :
    L.exchange c = L.punctuate c := by
  unfold punctuate
  split
  · rename_i h
    rw [h, exchange_point hne]
  split
  · rename_i h
    rw [h, exchange_comma]
  · rename_i hpoint hcomma
    have hdecimal : c ≠ L.decimalSeparator := fun h => (hc (.inl h)).elim hpoint hcomma
    have hargument : c ≠ L.argumentSeparator := fun h => (hc (.inr h)).elim hpoint hcomma
    have hmoved : c ≠ swap '.' L.decimalSeparator ',' := by
      rw [swap_apply_def]
      split
      · exact hdecimal
      split
      · exact hpoint
      · exact hcomma
    rw [exchange, trans_apply, swap_apply_of_ne_of_ne hpoint hdecimal,
      swap_apply_of_ne_of_ne hmoved hargument]

theorem exchange_cases (hdecimal : IsOutside L.decimalSeparator)
    (hargument : IsOutside L.argumentSeparator) (c : Char) :
    L.exchange c = c ∨ (IsOutside c ∧ IsOutside (L.exchange c)) := by
  have hmoved : IsOutside (swap '.' L.decimalSeparator ',') :=
    isOutside_point.swap hdecimal isOutside_comma
  by_cases hc : IsOutside c
  · exact .inr ⟨hc, hmoved.swap hargument (isOutside_point.swap hdecimal hc)⟩
  · left
    rw [exchange, trans_apply, swap_of_not_isOutside isOutside_point hdecimal hc,
      swap_of_not_isOutside hmoved hargument hc]

/-- What the exchange moves is looked at by the scanner as a separator only. -/
theorem fits_exchange (hne : L.decimalSeparator ≠ L.argumentSeparator)
    (hdecimal : IsOutside L.decimalSeparator) (hargument : IsOutside L.argumentSeparator) :
    Respelling.Fits ⟨L.exchange, id⟩ .enUs L := by
  have hagree : ∀ p : Char → Bool, (∀ c, IsOutside c → p c = false) →
      ∀ c, p (L.exchange c) = p c := by
    intro p hp c
    rcases exchange_cases hdecimal hargument c with hsame | ⟨hbefore, hafter⟩
    · rw [hsame]
    · rw [hp _ hbefore, hp _ hafter]
  have hkept : ∀ c, ¬ IsOutside c → L.exchange c = c := fun c hc =>
    (exchange_cases hdecimal hargument c).resolve_right fun h => hc h.1
  exact {
    isBlank := hagree _ fun c hc => hc.1.isBlank
    decimal := fun c => by
      rw [← exchange_point hne]
      exact L.exchange.injective.eq_iff
    argument := fun c => by
      rw [← exchange_comma]
      exact L.exchange.injective.eq_iff
    isNameStart := hagree _ fun c hc => hc.isNameStart
    isNamePart := hagree _ fun c hc => hc.isNamePart
    isExponentMark := hagree _ fun c hc => hc.isExponentMark
    fixed := fun c hc => by
      apply hkept c
      intro houtside
      simp [houtside.isDigit, houtside.1.isSymbol] at hc
    isDigit := hagree _ fun c hc => hc.isDigit
    isSymbol := hagree _ fun c hc => hc.1.isSymbol
    name := fun text htext => by
      have hsame : text.map L.exchange = text := by
        refine (List.map_congr_left fun c hc => ?_).trans (List.map_id _)
        refine hkept c fun houtside => ?_
        simpa [houtside.isNamePart] using htext c hc
      exact congrArg String.ofList hsame }

/-- A text in the punctuation of another locale has the tokens that it has in the punctuation of the
United States, at the same places, and it has the same tree, whatever its names mean; if it is
refused, it is refused for the same stretch of text. The separators are two marks that occur in the
text as points and commas at most, and none of them is the underscore, which may be in names. -/
theorem locale_changes_punctuation (L : Locale) (hne : L.decimalSeparator ≠ L.argumentSeparator)
    (hdecimal : IsMark L.decimalSeparator) (hargument : IsMark L.argumentSeparator)
    (hunderscore : '_' ≠ L.decimalSeparator ∧ '_' ≠ L.argumentSeparator) (text : String)
    (hunused : L.UnusedIn text) :
    (Token.scan L (text.map L.punctuate).toList).mapError ParseError.span =
        (Token.scan .enUs text.toList).mapError ParseError.span ∧
      ∀ v : Vocabulary, (Tree.parse L v (text.map L.punctuate)).mapError ParseError.span =
        (Tree.parse .enUs v text).mapError ParseError.span := by
  have hfits : Respelling.Fits ⟨L.exchange, id⟩ .enUs L :=
    fits_exchange hne ⟨hdecimal, hunderscore.1.symm⟩ ⟨hargument, hunderscore.2.symm⟩
  have htext : text.map L.punctuate = text.map L.exchange := by
    apply String.toList_injective
    rw [String.toList_map, String.toList_map]
    exact List.map_congr_left fun c hc => (exchange_eq_punctuate hne (hunused c hc)).symm
  have htoken : Respelling.token ⟨L.exchange, id⟩ = id := by
    funext token
    obtain ⟨kind, span⟩ := token
    cases kind <;> rfl
  rw [htext]
  constructor
  · rw [String.toList_map, hfits.tokens, Respelling.mapError_span, htoken, List.map_id_fun]
    cases Token.scan .enUs text.toList <;> rfl
  · intro v
    rw [hfits.parse ⟨fun _ => rfl, fun _ => rfl, fun _ => rfl⟩, Respelling.mapError_span]

end Exchange

/-- The comma becomes the decimal separator, and its place is taken by the semicolon. -/
theorem locale_changes_punctuation_german :
    let text := "max(1.5, x)"
    deDe.decimalSeparator ≠ deDe.argumentSeparator ∧ IsMark deDe.decimalSeparator ∧
      IsMark deDe.argumentSeparator ∧
      ('_' ≠ deDe.decimalSeparator ∧ '_' ≠ deDe.argumentSeparator) ∧ deDe.UnusedIn text ∧
      text.map deDe.punctuate = "max(1,5; x)" ∧
      (Token.scan deDe (text.map deDe.punctuate).toList).mapError ParseError.span =
        (Token.scan .enUs text.toList).mapError ParseError.span ∧
      (Token.scan .enUs text.toList).isOk = true := by
  intro text
  have hne : deDe.decimalSeparator ≠ deDe.argumentSeparator := by decide
  have hdecimal : IsMark deDe.decimalSeparator := by decide
  have hargument : IsMark deDe.argumentSeparator := by decide
  have hunderscore : '_' ≠ deDe.decimalSeparator ∧ '_' ≠ deDe.argumentSeparator := by decide
  have hunused : deDe.UnusedIn text := by decide
  have htext : text.map deDe.punctuate = "max(1,5; x)" :=
    String.toList_injective (by rw [String.toList_map]; decide)
  exact ⟨hne, hdecimal, hargument, hunderscore, hunused, htext,
    (locale_changes_punctuation deDe hne hdecimal hargument hunderscore text hunused).1,
    by decide +kernel⟩

/-- An underscore that is meant to separate two names makes one name of them. -/
theorem underscore_joins_names :
    let L : Locale := ⟨'.', '_'⟩
    let text := "max(x,y)"
    L.decimalSeparator ≠ L.argumentSeparator ∧ IsMark L.decimalSeparator ∧
      IsMark L.argumentSeparator ∧ L.UnusedIn text ∧ text.map L.punctuate = "max(x_y)" ∧
      (Token.scan L (text.map L.punctuate).toList).mapError ParseError.span ≠
        (Token.scan .enUs text.toList).mapError ParseError.span := by
  intro L text
  have htext : text.map L.punctuate = "max(x_y)" :=
    String.toList_injective (by rw [String.toList_map]; decide)
  refine ⟨by decide, by decide, by decide, by decide, htext, fun h => ?_⟩
  rw [htext] at h
  have hcounts := congrArg (fun result => result.toOption.map List.length) h
  revert hcounts
  decide +kernel

end FormulaEngine.Locale
