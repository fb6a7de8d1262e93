import FormulaEngine.Decimal.Notation
import FormulaEngine.Token.Numeral

/-!
Numerals in a text. A numeral whose parts are made of digits is found again at the start
of a text, if what follows cannot belong to it. Printed numbers are such numerals: an
integer is digits alone, and a double has a fraction or an exponent.
-/
namespace FormulaEngine.Decimal

/-- The longest row of characters of a kind ends where a character of another kind follows. -/
theorem takeWhile_append {p : Char → Bool} {digits rest : List Char}
    (hdigits : ∀ c ∈ digits, p c = true) (hrest : ∀ c ∈ rest.head?, p c = false) :
    (digits ++ rest).takeWhile p = digits := by
  rw [List.takeWhile_append_of_pos hdigits]
  cases rest with
  | nil => simp
  | cons c rest => simp [hrest c rfl]

theorem dropWhile_append {p : Char → Bool} {digits rest : List Char}
    (hdigits : ∀ c ∈ digits, p c = true) (hrest : ∀ c ∈ rest.head?, p c = false) :
    (digits ++ rest).dropWhile p = rest := by
  rw [List.dropWhile_append_of_pos hdigits]
  cases rest with
  | nil => rfl
  | cons c rest => simp [hrest c rfl]

namespace Numeral

/-- Whether the parts of a numeral are what they stand for: digits, and a sign. -/
structure Proper (n : Numeral) : Prop where
  whole : ∀ c ∈ n.whole, c.isDigit = true
  fraction : ∀ digits, n.fraction = some digits → ∀ c ∈ digits, c.isDigit = true
  exponent : ∀ sign digits, n.exponent = some (sign, digits) →
    digits ≠ [] ∧ (∀ c ∈ digits, c.isDigit = true) ∧ ∀ c ∈ sign, c = '+' ∨ c = '-'

/-- Whether a numeral cannot go on with the text. -/
def Stops (rest : List Char) : Prop :=
  ∀ c ∈ rest.head?, c.isDigit = false ∧ c ≠ '.' ∧ isExponentMark c = false

theorem stops_nil : Stops [] := by
  intro c hc
  cases hc

def fractionText : Option (List Char) → List Char
  | none => []
  | some digits => '.' :: digits

def exponentText : Option (Option Char × List Char) → List Char
  | none => []
  | some (sign, digits) => 'e' :: (sign.toList ++ digits)

theorem text_eq (n : Numeral) :
    n.text = n.whole ++ fractionText n.fraction ++ exponentText n.exponent := by
  obtain ⟨whole, fraction, exponent⟩ := n
  cases fraction <;> cases exponent <;> rfl

theorem mantissa_eq {whole : List Char} (hwhole : ∀ c ∈ whole, c.isDigit = true)
    {fraction : Option (List Char)}
    (hfraction : ∀ digits, fraction = some digits → ∀ c ∈ digits, c.isDigit = true)
    {rest : List Char} (hrest : ∀ c ∈ rest.head?, c.isDigit = false ∧ c ≠ '.') :
    mantissa '.' (whole ++ (fractionText fraction ++ rest)) = ⟨whole, fraction, none⟩ := by
  have hstop : ∀ c ∈ (fractionText fraction ++ rest).head?, c.isDigit = false := by
    cases fraction with
    | none => exact fun c hc => (hrest c hc).1
    | some digits =>
      intro c hc
      cases hc
      rfl
  rw [mantissa, takeWhile_append hwhole hstop, dropWhile_append hwhole hstop]
  cases fraction with
  | none =>
    cases rest with
    | nil => rfl
    | cons c rest => simp [fractionText, fractionPart?, (hrest c rfl).2]
  | some digits =>
    have hdigits := takeWhile_append (hfraction digits rfl) fun c hc => (hrest c hc).1
    simp [fractionText, fractionPart?, hdigits]

theorem exponentPart?_append {e : Char} {sign : Option Char} {digits : List Char}
    (he : isExponentMark e = true) (hsign : ∀ c ∈ sign, c = '+' ∨ c = '-') (hne : digits ≠ [])
    (hdigits : ∀ c ∈ digits, c.isDigit = true) (after : List Char) :
    exponentPart? (e :: (sign.toList ++ digits) ++ after) =
      some (sign, digits ++ after.takeWhile Char.isDigit) := by
  have hpart : signPart? (sign.toList ++ (digits ++ after)) = sign := by
    cases sign with
    | none =>
      obtain ⟨c, more, rfl⟩ := List.exists_cons_of_ne_nil hne
      have hc := hdigits c List.mem_cons_self
      have hplus : c ≠ '+' := by
        rintro rfl
        cases hc
      have hminus : c ≠ '-' := by
        rintro rfl
        cases hc
      simp [signPart?, hplus, hminus]
    | some c => simpa [signPart?] using hsign c rfl
  rw [List.cons_append, List.append_assoc, exponentPart?, hpart, List.drop_left,
    List.takeWhile_append_of_pos hdigits, he]
  simp [hne]

theorem exponentPart?_eq {exponent : Option (Option Char × List Char)}
    (hexponent : ∀ sign digits, exponent = some (sign, digits) →
      digits ≠ [] ∧ (∀ c ∈ digits, c.isDigit = true) ∧ ∀ c ∈ sign, c = '+' ∨ c = '-')
    {rest : List Char} (hrest : Stops rest) :
    exponentPart? (exponentText exponent ++ rest) = exponent := by
  cases exponent with
  | none =>
    cases rest with
    | nil => rfl
    | cons c rest => simp [exponentText, exponentPart?, (hrest c rfl).2.2]
  | some part =>
    obtain ⟨sign, digits⟩ := part
    obtain ⟨hne, hdigits, hsign⟩ := hexponent sign digits rfl
    have hstop : rest.takeWhile Char.isDigit = [] := by
      cases rest with
      | nil => rfl
      | cons c rest => exact List.takeWhile_cons_of_neg (by simp [(hrest c rfl).1])
    rw [exponentText, exponentPart?_append (by decide) hsign hne hdigits, hstop, List.append_nil]

/-- A numeral is found again in front of a text that stops it. -/
theorem scan_text {n : Numeral} (h : n.Proper) {rest : List Char} (hrest : Stops rest)
    (start : Nat) : scan '.' start (n.text ++ rest) = .ok n := by
  obtain ⟨whole, fraction, exponent⟩ := n
  have htext : (⟨whole, fraction, exponent⟩ : Numeral).text ++ rest =
      whole ++ (fractionText fraction ++ (exponentText exponent ++ rest)) := by
    simp [text_eq]
  have hexponent : ∀ c ∈ (exponentText exponent ++ rest).head?, c.isDigit = false ∧ c ≠ '.' := by
    intro c hc
    cases exponent with
    | none => exact ⟨(hrest c hc).1, (hrest c hc).2.1⟩
    | some part =>
      cases hc
      decide
  have hdrop : (whole ++ (fractionText fraction ++ (exponentText exponent ++ rest))).drop
      (⟨whole, fraction, none⟩ : Numeral).length = exponentText exponent ++ rest := by
    rw [← List.append_assoc]
    exact List.drop_left' (by simp [length, text_eq, exponentText])
  have hend : (whole ++ (fractionText fraction ++ (exponentText exponent ++ rest))).drop
      (⟨whole, fraction, exponent⟩ : Numeral).length = rest := by
    rw [← htext]
    exact List.drop_left' rfl
  have hmark : (exponentText exponent ++ rest).head? ≠ some '.' :=
    fun hhead => (hexponent '.' hhead).2 rfl
  rw [scan, htext, mantissa_eq h.whole h.fraction hexponent, hdrop, if_neg hmark,
    exponentPart?_eq h.exponent hrest]
  dsimp only
  rw [hend]
  cases exponent with
  | none => rfl
  | some part =>
    cases rest with
    | nil => rfl
    | cons c rest => simp [(hrest c rfl).2]

end Numeral

namespace Notation

theorem isDigit_of_mem_zeros (count : Nat) : ∀ c ∈ zeros count, c.isDigit = true := by
  intro c hc
  rw [List.eq_of_mem_replicate hc]
  rfl

theorem isDigit_of_mem_toDigits {n : Nat} {c : Char} (h : c ∈ Nat.toDigits 10 n) :
    c.isDigit = true :=
  Nat.isDigit_of_mem_toDigits (by decide) (by decide) h

/-- Whether a text is that of a numeral for a double: it begins with a digit, and it has a fraction
or an exponent. -/
def IsFloatText (text : List Char) : Prop :=
  ∃ n : Numeral, n.Proper ∧ n.text = text ∧ n.whole ≠ [] ∧
    (n.fraction.isSome = true ∨ n.exponent.isSome = true)

theorem isFloatText_fraction {whole fraction : List Char} (hne : whole ≠ [])
    (hwhole : ∀ c ∈ whole, c.isDigit = true) (hfraction : ∀ c ∈ fraction, c.isDigit = true) :
    IsFloatText (whole ++ '.' :: fraction) := by
  refine ⟨⟨whole, some fraction, none⟩, ⟨hwhole, ?_, nofun⟩, ?_, hne, .inl rfl⟩
  · rintro _ ⟨⟩
    exact hfraction
  · simp [Numeral.text]

theorem isFloatText_positional (d : Decimal) : IsFloatText (literal.positionalText d) := by
  have hdigits : ∀ c ∈ Nat.toDigits 10 d.significand, c.isDigit = true :=
    fun c hc => isDigit_of_mem_toDigits hc
  unfold positionalText
  split
  · apply isFloatText_fraction (by simp)
    · exact List.forall_mem_append.mpr ⟨hdigits, isDigit_of_mem_zeros _⟩
    · exact isDigit_of_mem_zeros 1
  · dsimp only
    split
    case isTrue hplaces =>
      refine isFloatText_fraction ?_ (fun c hc => hdigits c (List.mem_of_mem_take hc))
        fun c hc => hdigits c (List.mem_of_mem_drop hc)
      rw [List.ne_nil_iff_length_pos, List.length_take]
      omega
    case isFalse hplaces =>
      have hfraction := List.forall_mem_append.mpr
        ⟨isDigit_of_mem_zeros ((-d.exponent).toNat - (Nat.toDigits 10 d.significand).length),
          hdigits⟩
      have htext :=
        isFloatText_fraction (List.cons_ne_nil '0' []) (isDigit_of_mem_zeros 1) hfraction
      simpa using htext

theorem exists_integerText (n : Int) : ∃ sign : Option Char,
    integerText n = sign.toList ++ Nat.toDigits 10 n.natAbs ∧ ∀ c ∈ sign, c = '+' ∨ c = '-' := by
  unfold integerText
  split
  · exact ⟨some '-', rfl, by simp⟩
  · exact ⟨none, rfl, nofun⟩

/-- A numeral with an exponent. -/
theorem isFloatText_leading {whole : List Char} (hne : whole ≠ [])
    (hwhole : ∀ c ∈ whole, c.isDigit = true) {fraction : Option (List Char)}
    (hfraction : ∀ digits, fraction = some digits → ∀ c ∈ digits, c.isDigit = true)
    (leading : Int) :
    IsFloatText (whole ++ Numeral.fractionText fraction ++ 'e' :: integerText leading) := by
  obtain ⟨sign, htext, hsign⟩ := exists_integerText leading
  refine ⟨⟨whole, fraction, some (sign, Nat.toDigits 10 leading.natAbs)⟩,
    ⟨hwhole, hfraction, ?_⟩, ?_, hne, .inr rfl⟩
  · rintro _ _ ⟨⟩
    exact ⟨Nat.toDigits_ne_nil, fun c hc => isDigit_of_mem_toDigits hc, hsign⟩
  · rw [Numeral.text_eq, htext]
    rfl

theorem isFloatText_exponent (d : Decimal) : IsFloatText (exponentText d) := by
  have hdigits : ∀ c ∈ Nat.toDigits 10 d.significand, c.isDigit = true :=
    fun c hc => isDigit_of_mem_toDigits hc
  have hfirst : ∀ c ∈ (Nat.toDigits 10 d.significand).take 1, c.isDigit = true :=
    fun c hc => hdigits c (List.mem_of_mem_take hc)
  have hne : (Nat.toDigits 10 d.significand).take 1 ≠ [] := by
    have := Nat.length_toDigits_pos (b := 10) (n := d.significand)
    rw [List.ne_nil_iff_length_pos, List.length_take]
    omega
  unfold exponentText
  dsimp only
  split
  · exact @isFloatText_leading _ hne hfirst none nofun _
  · refine @isFloatText_leading _ hne hfirst (some _) ?_ _
    rintro _ ⟨⟩ c hc
    exact hdigits c (List.mem_of_mem_drop hc)

theorem isFloatText_unsigned (x : Float) : IsFloatText (literal.unsignedText x) := by
  unfold unsignedText decimalText
  dsimp only
  split
  · exact isFloatText_fraction (List.cons_ne_nil '0' []) (isDigit_of_mem_zeros 1)
      (isDigit_of_mem_zeros 1)
  · split
    · exact isFloatText_positional _
    · exact isFloatText_exponent _

end Notation

end FormulaEngine.Decimal
