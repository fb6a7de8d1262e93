import FormulaEngine.Proofs.NumeralText
import FormulaEngine.Proofs.TokenCoverage

/-!
The language of numerals. Where a number starts, the scanner reads the longest text of digits with
at most one decimal mark among them, and then the longest exponent if one follows. What comes
directly behind decides whether the text is refused. An `e` without an exponent is no part of the
number: a name begins there.
-/
namespace FormulaEngine

/-- Whether a lexeme is the longest start of a text that belongs to a language. -/
structure LongestStart (language : List Char → Prop) (text lexeme : List Char) : Prop where
  starts : lexeme <+: text
  belongs : language lexeme
  longest : ∀ other, other <+: text → language other → other.length ≤ lexeme.length

theorem LongestStart.unique {language : List Char → Prop} {text lexeme lexeme' : List Char}
    (h : LongestStart language text lexeme) (h' : LongestStart language text lexeme') :
    lexeme = lexeme' := by
  have hle := h.longest lexeme' h'.starts h'.belongs
  have hge := h'.longest lexeme h.starts h.belongs
  have hprefix := List.prefix_of_prefix_length_le h.starts h'.starts hge
  exact hprefix.eq_of_length (Nat.le_antisymm hge hle)

namespace Decimal.Numeral

/-- Digits with at most one decimal mark before, among or after them. -/
inductive IsMantissa (mark : Char) : List Char → Prop
  | plain {digits : List Char} (hdigits : ∀ c ∈ digits, c.isDigit = true) : IsMantissa mark digits
  | marked {digits digits' : List Char} (hdigits : ∀ c ∈ digits, c.isDigit = true)
      (hdigits' : ∀ c ∈ digits', c.isDigit = true) : IsMantissa mark (digits ++ mark :: digits')

theorem IsMantissa.isDigit_or_eq {mark : Char} {word : List Char} (h : IsMantissa mark word) :
    ∀ c ∈ word, c.isDigit = true ∨ c = mark := by
  cases h with
  | plain hdigits => exact fun c hc => .inl (hdigits c hc)
  | marked hdigits hdigits' =>
    rw [List.forall_mem_append, List.forall_mem_cons]
    exact ⟨fun c hc => .inl (hdigits c hc), .inr rfl, fun c hc => .inl (hdigits' c hc)⟩

/-- An exponent mark, perhaps a sign, and at least one digit. -/
inductive IsExponent : List Char → Prop
  | intro {e : Char} {sign : Option Char} {digits : List Char} (he : isExponentMark e = true)
      (hsign : ∀ c ∈ sign, c = '+' ∨ c = '-') (hne : digits ≠ [])
      (hdigits : ∀ c ∈ digits, c.isDigit = true) : IsExponent (e :: (sign.toList ++ digits))

theorem IsExponent.ne_nil {lexeme : List Char} (h : IsExponent lexeme) : lexeme ≠ [] := by
  cases h
  exact List.cons_ne_nil _ _

/-- What a numeral is spelled like up to its exponent. -/
def mantissaLexeme (mark : Char) (n : Numeral) : List Char :=
  n.whole ++ n.fraction.elim [] (mark :: ·)

theorem length_mantissaLexeme (mark : Char) (text : List Char) :
    (mantissaLexeme mark (mantissa mark text)).length = (mantissa mark text).length := by
  rw [length_eq, mantissaLexeme, List.length_append]
  cases (mantissa mark text).fraction <;> rfl

theorem length_le_takeWhile {p : Char → Bool} {text digits : List Char} (h : digits <+: text)
    (hdigits : ∀ c ∈ digits, p c = true) : digits.length ≤ (text.takeWhile p).length := by
  obtain ⟨after, rfl⟩ := h
  rw [List.takeWhile_append_of_pos hdigits, List.length_append]
  exact Nat.le_add_right _ _

theorem fractionPart?_eq_some {mark : Char} {rest digits : List Char}
    (h : fractionPart? mark rest = some digits) :
    ∃ tail, rest = mark :: tail ∧ digits = tail.takeWhile Char.isDigit := by
  cases rest with
  | nil => cases h
  | cons c tail =>
    rw [fractionPart?] at h
    split at h
    · rename_i hmark
      cases h
      exact ⟨tail, by rw [hmark], rfl⟩
    · cases h

theorem longestStart_mantissa (mark : Char) (text : List Char) :
    LongestStart (IsMantissa mark) text (mantissaLexeme mark (mantissa mark text)) where
  starts := by
    rw [mantissaLexeme, mantissa]
    dsimp only
    have hsplit := List.takeWhile_append_dropWhile (p := Char.isDigit) (l := text)
    cases hfraction : fractionPart? mark (text.dropWhile Char.isDigit) with
    | none => exact (List.append_nil _).symm ▸ List.takeWhile_prefix _
    | some digits =>
      obtain ⟨tail, hrest, rfl⟩ := fractionPart?_eq_some hfraction
      refine ⟨tail.dropWhile Char.isDigit, ?_⟩
      rw [Option.elim_some, List.append_assoc, List.cons_append, List.takeWhile_append_dropWhile,
        ← hrest, hsplit]
  belongs := by
    rw [mantissaLexeme, mantissa]
    dsimp only
    have hwhole : ∀ c ∈ text.takeWhile Char.isDigit, c.isDigit = true :=
      fun c hc => List.mem_takeWhile_imp hc
    cases hfraction : fractionPart? mark (text.dropWhile Char.isDigit) with
    | none =>
      rw [Option.elim_none, List.append_nil]
      exact .plain hwhole
    | some digits =>
      obtain ⟨tail, -, rfl⟩ := fractionPart?_eq_some hfraction
      exact .marked hwhole fun c hc => List.mem_takeWhile_imp hc
  longest := by
    intro other hstart hother
    have hplain : ∀ {digits : List Char}, digits <+: text → (∀ c ∈ digits, c.isDigit = true) →
        digits.length ≤ (mantissaLexeme mark (mantissa mark text)).length := by
      intro digits hdigits hall
      rw [mantissaLexeme, List.length_append]
      exact Nat.le_trans (length_le_takeWhile hdigits hall) (Nat.le_add_right _ _)
    cases hother with
    | plain hdigits => exact hplain hstart hdigits
    | @marked digits digits' hdigits hdigits' =>
      by_cases hmark : mark.isDigit = true
      · refine hplain hstart (List.forall_mem_append.mpr ⟨hdigits, ?_⟩)
        exact List.forall_mem_cons.mpr ⟨hmark, hdigits'⟩
      · -- The digits before the mark are all there are, so the fractions start at one place.
        obtain ⟨after, rfl⟩ := hstart
        have hstop : ∀ c ∈ (mark :: (digits' ++ after)).head?, c.isDigit = false := by
          rintro _ ⟨⟩
          exact Bool.eq_false_iff.mpr hmark
        rw [mantissaLexeme, mantissa, List.append_assoc, List.cons_append,
          takeWhile_append hdigits hstop, dropWhile_append hdigits hstop, fractionPart?, if_pos rfl,
          List.takeWhile_append_of_pos hdigits', Option.elim_some]
        simp only [List.length_append, List.length_cons]
        omega

theorem exponentPart?_eq_some {rest digits : List Char} {sign : Option Char}
    (h : exponentPart? rest = some (sign, digits)) :
    ∃ e after, rest = e :: (sign.toList ++ digits) ++ after ∧ isExponentMark e = true ∧
      (∀ c ∈ sign, c = '+' ∨ c = '-') ∧ digits ≠ [] ∧ ∀ c ∈ digits, c.isDigit = true := by
  cases rest with
  | nil => cases h
  | cons e tail =>
    unfold exponentPart? at h
    dsimp only at h
    split at h
    · rename_i hmark
      obtain ⟨he, hdigits⟩ := Bool.and_eq_true_iff.mp hmark
      cases h
      have hsign : ∀ c ∈ signPart? tail, tail.head? = some c ∧ (c = '+' ∨ c = '-') := by
        intro c hc
        obtain ⟨hhead, hc⟩ := Option.filter_eq_some_iff.mp hc
        exact ⟨hhead, by simpa using hc⟩
      have htail : (signPart? tail).toList ++ tail.drop (signPart? tail).toList.length = tail := by
        cases hpart : signPart? tail with
        | none => rfl
        | some c =>
          obtain ⟨more, rfl⟩ := List.head?_eq_some_iff.mp (hsign c hpart).1
          rfl
      refine ⟨e, (tail.drop (signPart? tail).toList.length).dropWhile Char.isDigit, ?_, he,
        fun c hc => (hsign c hc).2, by simpa using hdigits, fun c hc => List.mem_takeWhile_imp hc⟩
      rw [List.cons_append, List.append_assoc, List.takeWhile_append_dropWhile, htail]
    · cases h

/-- The exponent at the start of a text as it is spelled there; nothing if there is none. -/
def exponentLexeme (rest : List Char) : List Char :=
  rest.take ((exponentPart? rest).elim 0 fun part => part.1.toList.length + part.2.length + 1)

theorem exponentLexeme_of_none {rest : List Char} (h : exponentPart? rest = none) :
    exponentLexeme rest = [] := by
  rw [exponentLexeme, h, Option.elim_none, List.take_zero]

theorem exponentLexeme_append {e : Char} {sign : Option Char} {digits after : List Char}
    (h : exponentPart? (e :: (sign.toList ++ digits) ++ after) = some (sign, digits)) :
    exponentLexeme (e :: (sign.toList ++ digits) ++ after) = e :: (sign.toList ++ digits) := by
  rw [exponentLexeme, h, Option.elim_some]
  exact List.take_left' (by simp)

theorem longestStart_exponent (rest : List Char) :
    LongestStart (fun lexeme => lexeme = [] ∨ IsExponent lexeme) rest (exponentLexeme rest) := by
  refine ⟨List.take_prefix _ _, ?_, ?_⟩
  · cases hpart : exponentPart? rest with
    | none => exact .inl (exponentLexeme_of_none hpart)
    | some part =>
      obtain ⟨e, after, rfl, he, hsign, hne, hdigits⟩ := exponentPart?_eq_some hpart
      rw [exponentLexeme_append hpart]
      exact .inr (.intro he hsign hne hdigits)
  · rintro other ⟨after, rfl⟩ (rfl | ⟨he, hsign, hne, hdigits⟩)
    · exact Nat.zero_le _
    · rw [exponentLexeme, exponentPart?_append he hsign hne hdigits, Option.elim_some]
      simp only [List.length_take, List.length_append, List.length_cons]
      have := length_takeWhile_le Char.isDigit after
      omega

theorem length_exponentLexeme (rest : List Char) :
    (exponentLexeme rest).length =
      (exponentPart? rest).elim 0 fun part => part.1.toList.length + part.2.length + 1 := by
  cases hpart : exponentPart? rest with
  | none => rw [exponentLexeme_of_none hpart]; rfl
  | some part =>
    rw [exponentLexeme, hpart]
    exact List.length_take_of_le (length_exponentPart?_le hpart)

theorem exponentPart?_eq_none_iff (rest : List Char) :
    exponentPart? rest = none ↔ exponentLexeme rest = [] := by
  rw [← List.length_eq_zero_iff, length_exponentLexeme]
  cases exponentPart? rest <;> simp

theorem Proper.eq_of_text_eq {n n' : Numeral} (h : n.Proper) (h' : n'.Proper)
    (htext : n.text = n'.text) : n = n' := by
  have hscan := scan_text h stops_nil 0
  rw [htext, scan_text h' stops_nil 0] at hscan
  exact (Except.ok.inj hscan).symm

theorem leading_proper (mark : Char) (text : List Char) : (leading mark text).Proper where
  whole c hc := List.mem_takeWhile_imp hc
  fraction digits hdigits := by
    obtain ⟨tail, -, rfl⟩ := fractionPart?_eq_some hdigits
    exact fun c hc => List.mem_takeWhile_imp hc
  exponent sign digits hpart := by
    obtain ⟨e, after, -, -, hsign, hne, hdigits⟩ := exponentPart?_eq_some hpart
    exact ⟨hne, hdigits, hsign⟩

/-- The text of a number with a point for its decimal mark and a small `e`. -/
def plainText (mark : Char) (mantissa exponent : List Char) : List Char :=
  mantissa.map (fun c => if c = mark then '.' else c) ++
    exponent.map fun c => if c = 'E' then 'e' else c

theorem map_eq_self_of_digits {c d : Char} (hc : c.isDigit = false) {digits : List Char}
    (hdigits : ∀ a ∈ digits, a.isDigit = true) :
    digits.map (fun a => if a = c then d else a) = digits := by
  have hne : ∀ a ∈ digits, (if a = c then d else a) = a := by
    intro a ha
    refine if_neg ?_
    rintro rfl
    rw [hdigits a ha] at hc
    cases hc
  exact (List.map_congr_left hne).trans (List.map_id' digits)

theorem map_mantissaLexeme {mark : Char} {n : Numeral} (hproper : n.Proper)
    (hmark : mark.isDigit = false) :
    (mantissaLexeme mark n).map (fun c => if c = mark then '.' else c) =
      n.whole ++ fractionText n.fraction := by
  rw [mantissaLexeme, List.map_append, map_eq_self_of_digits hmark hproper.whole]
  cases hfraction : n.fraction with
  | none => rfl
  | some digits =>
    rw [Option.elim_some, List.map_cons, if_pos rfl,
      map_eq_self_of_digits hmark (hproper.fraction digits hfraction), fractionText]

theorem map_exponentLexeme (rest : List Char) :
    (exponentLexeme rest).map (fun c => if c = 'E' then 'e' else c) =
      exponentText (exponentPart? rest) := by
  cases hpart : exponentPart? rest with
  | none => rw [exponentLexeme_of_none hpart]; rfl
  | some part =>
    obtain ⟨sign, digits⟩ := part
    obtain ⟨e, after, rfl, he, hsign, -, hdigits⟩ := exponentPart?_eq_some hpart
    have he : (if e = 'E' then 'e' else e) = 'e' := by
      rcases Bool.or_eq_true_iff.mp he with he | he
      · rw [beq_iff_eq.mp he]; rfl
      · rw [beq_iff_eq.mp he]; rfl
    have hsign : sign.toList.map (fun c => if c = 'E' then 'e' else c) = sign.toList := by
      cases sign with
      | none => rfl
      | some c => rcases hsign c rfl with rfl | rfl <;> rfl
    rw [exponentLexeme_append hpart, List.map_cons, he, List.map_append, hsign,
      map_eq_self_of_digits (by decide) hdigits, exponentText]

/-- Whether the longest number at the start of a text is a mantissa with an exponent, which is empty
if there is none, and no character behind it makes it wrong. -/
structure Extent (mark : Char) (text mantissa exponent : List Char) : Prop where
  longest_mantissa : LongestStart (IsMantissa mark) text mantissa
  unmarked : (text.drop mantissa.length).head? ≠ some mark
  longest_exponent : LongestStart (fun lexeme => lexeme = [] ∨ IsExponent lexeme)
    (text.drop mantissa.length) exponent
  ended : exponent ≠ [] → ∀ c ∈ (text.drop (mantissa.length + exponent.length)).head?,
    c ≠ mark ∧ isExponentMark c = false

section Lexemes

variable {mark : Char} {text m x : List Char}
  (hm : LongestStart (IsMantissa mark) text m)
include hm

theorem length_mantissa_of_longest : (mantissa mark text).length = m.length := by
  rw [hm.unique (longestStart_mantissa mark text), length_mantissaLexeme]

theorem mantissaDigits_leading (hmark : mark.isDigit = false) :
    (leading mark text).mantissaDigits = m.filter Char.isDigit := by
  have hproper := leading_proper mark text
  have hm : m = mantissaLexeme mark (leading mark text) :=
    hm.unique (longestStart_mantissa mark text)
  rw [hm, mantissaLexeme, mantissaDigits, List.filter_append,
    List.filter_eq_self.mpr hproper.whole]
  cases hfraction : (leading mark text).fraction with
  | none => rfl
  | some digits =>
    rw [Option.elim_some, List.filter_cons_of_neg (by simp [hmark]),
      List.filter_eq_self.mpr (hproper.fraction digits hfraction)]
    rfl

theorem fraction_leading_eq_none_iff (hmark : mark.isDigit = false) :
    (leading mark text).fraction = none ↔ mark ∉ m := by
  have hwhole : mark ∉ (leading mark text).whole := by
    intro hmem
    rw [(leading_proper mark text).whole mark hmem] at hmark
    cases hmark
  rw [show m = mantissaLexeme mark (leading mark text) from
    hm.unique (longestStart_mantissa mark text), mantissaLexeme, List.mem_append]
  cases (leading mark text).fraction <;> simp [hwhole]

theorem whole_leading (hfraction : (leading mark text).fraction = none) :
    (leading mark text).whole = m := by
  rw [show m = mantissaLexeme mark (leading mark text) from
    hm.unique (longestStart_mantissa mark text), mantissaLexeme, hfraction, Option.elim_none,
    List.append_nil]

theorem value?_leading_of_no_digits (hmark : mark.isDigit = false)
    (hnone : ∀ c ∈ m, c.isDigit = false) : (leading mark text).value? = none := by
  have hempty : m.filter Char.isDigit = [] :=
    List.filter_eq_nil_iff.mpr fun c hc => Bool.eq_false_iff.mp (hnone c hc)
  rw [value?, mantissaDigits_leading hm hmark, hempty]
  rfl

theorem value?_leading_of_digit (hmark : mark.isDigit = false)
    (hdigit : ∃ c ∈ m, c.isDigit = true) : (leading mark text).value? =
      if (leading mark text).fraction.isSome || (leading mark text).exponent.isSome then
        some (.float (leading mark text).floatValue)
      else if Nat.ofDigitChars 10 (leading mark text).whole 0 < 2 ^ 63 then
        some (.integer (Int64.ofNat (Nat.ofDigitChars 10 (leading mark text).whole 0)))
      else some (.float (leading mark text).floatValue) := by
  obtain ⟨c, hc, hdigit⟩ := hdigit
  have hne : m.filter Char.isDigit ≠ [] :=
    List.ne_nil_of_mem (List.mem_filter.mpr ⟨hc, hdigit⟩)
  rw [value?, mantissaDigits_leading hm hmark, if_neg (by simpa using hne)]

variable (hx : LongestStart (fun lexeme => lexeme = [] ∨ IsExponent lexeme)
    (text.drop m.length) x)
include hx

theorem exponent_leading_eq_none_iff : (leading mark text).exponent = none ↔ x = [] := by
  rw [leading, length_mantissa_of_longest hm, hx.unique (longestStart_exponent _)]
  exact exponentPart?_eq_none_iff _

theorem length_leading_of_longest : (leading mark text).length = m.length + x.length := by
  rw [length_leading, length_mantissa_of_longest hm, hx.unique (longestStart_exponent _),
    length_exponentLexeme, leading, length_mantissa_of_longest hm]

theorem take_leading_of_longest : text.take (leading mark text).length = m ++ x := by
  rw [length_leading_of_longest hm hx, List.take_add, ← List.prefix_iff_eq_take.mp hm.starts,
    ← List.prefix_iff_eq_take.mp hx.starts]

/-- The numeral at the start of a text has the text of its lexeme. -/
theorem text_leading (hmark : mark.isDigit = false) :
    (leading mark text).text = plainText mark m x := by
  have hm' : m = mantissaLexeme mark (leading mark text) :=
    hm.unique (longestStart_mantissa mark text)
  have hexponent : (leading mark text).exponent = exponentPart? (text.drop m.length) := by
    rw [leading, length_mantissa_of_longest hm]
  rw [text_eq, plainText, hx.unique (longestStart_exponent _), map_exponentLexeme, ← hexponent, hm',
    map_mantissaLexeme (leading_proper mark text) hmark]

end Lexemes

section Scans

variable {mark : Char} {text : List Char}

theorem scan_of_mark (hnext : (text.drop (mantissa mark text).length).head? = some mark)
    (start : Nat) : scan mark start text =
      .error ⟨.unexpectedCharacter mark, Span.point (start + (mantissa mark text).length)⟩ :=
  if_pos hnext

variable (hunmarked : (text.drop (mantissa mark text).length).head? ≠ some mark)
include hunmarked

theorem scan_of_exponent (hexponent : (leading mark text).exponent ≠ none) {c : Char}
    (hnext : (text.drop (leading mark text).length).head? = some c) (start : Nat) :
    scan mark start text =
      if c = mark then
        .error ⟨.unexpectedCharacter c, Span.point (start + (leading mark text).length)⟩
      else if isExponentMark c then
        .error ⟨.secondExponent c, Span.point (start + (leading mark text).length)⟩
      else .ok (leading mark text) := by
  obtain ⟨part, hpart⟩ := Option.ne_none_iff_exists'.mp hexponent
  refine (if_neg hunmarked).trans ?_
  split
  · rename_i d hpart' hd
    obtain rfl : c = d := Option.some.inj (hnext.symm.trans hd)
    rfl
  · rename_i hnot
    exact (hnot part c hpart hnext).elim

theorem scan_of_ended (hended : (leading mark text).exponent ≠ none →
      (text.drop (leading mark text).length).head? = none) (start : Nat) :
    scan mark start text = .ok (leading mark text) := by
  refine (if_neg hunmarked).trans ?_
  split
  · rename_i hpart hd
    have hsome : (leading mark text).exponent ≠ none := fun hnone => by
      cases hnone.symm.trans hpart
    cases (hended hsome).symm.trans hd
  · rfl

end Scans

/-- A numeral is found where no character behind it makes it wrong. -/
theorem scan_eq_ok_iff {mark : Char} {start : Nat} {text : List Char} {n : Numeral} :
    scan mark start text = .ok n ↔ n = leading mark text ∧
      (text.drop (mantissa mark text).length).head? ≠ some mark ∧
      ((leading mark text).exponent ≠ none →
        ∀ c ∈ (text.drop (leading mark text).length).head?,
          c ≠ mark ∧ isExponentMark c = false) := by
  by_cases hnext : (text.drop (mantissa mark text).length).head? = some mark
  · rw [scan_of_mark hnext]
    exact ⟨nofun, fun h => (h.2.1 hnext).elim⟩
  by_cases hended : (leading mark text).exponent ≠ none →
      (text.drop (leading mark text).length).head? = none
  · rw [scan_of_ended hnext hended]
    refine ⟨fun h => ⟨(Except.ok.inj h).symm, hnext, fun hsome c hc => ?_⟩, fun h => by rw [h.1]⟩
    rw [hended hsome] at hc
    cases hc
  · obtain ⟨hexponent, hbehind⟩ := Classical.not_imp.mp hended
    obtain ⟨c, hc⟩ := Option.ne_none_iff_exists'.mp hbehind
    rw [scan_of_exponent hnext hexponent hc]
    split
    · rename_i hmark
      exact ⟨nofun, fun h => ((h.2.2 hexponent c hc).1 hmark).elim⟩
    split
    · rename_i he
      refine ⟨nofun, fun h => ?_⟩
      rw [(h.2.2 hexponent c hc).2] at he
      cases he
    · rename_i hmark he
      refine ⟨fun h => ⟨(Except.ok.inj h).symm, hnext, fun _ d hd => ?_⟩, fun h => by rw [h.1]⟩
      rw [hc] at hd
      cases hd
      exact ⟨hmark, Bool.eq_false_iff.mpr he⟩

theorem Extent.scan {mark : Char} {text m x : List Char} (h : Extent mark text m x) (start : Nat) :
    Numeral.scan mark start text = .ok (leading mark text) := by
  have hlength := length_mantissa_of_longest h.longest_mantissa
  have hnone := exponent_leading_eq_none_iff h.longest_mantissa h.longest_exponent
  have htotal := length_leading_of_longest h.longest_mantissa h.longest_exponent
  refine scan_eq_ok_iff.mpr ⟨rfl, hlength ▸ h.unmarked, fun hsome => ?_⟩
  rw [htotal]
  exact h.ended fun hx => hsome (hnone.mpr hx)

end Decimal.Numeral

open Decimal

/-- What reading a number at the start of a text comes to: an error about a character that follows
too early, an error about a number without digits, or the number and its length. -/
inductive NumberReading (mark : Char) (start : Nat) (text : List Char) :
    Except ParseError TokenKind.Lexeme → Prop
  | secondMark {mantissa : List Char}
      (hmantissa : LongestStart (Numeral.IsMantissa mark) text mantissa)
      (hnext : (text.drop mantissa.length).head? = some mark) :
      NumberReading mark start text
        (.error ⟨.unexpectedCharacter mark, Span.point (start + mantissa.length)⟩)
  | markBehindExponent {mantissa exponent : List Char}
      (hmantissa : LongestStart (Numeral.IsMantissa mark) text mantissa)
      (hunmarked : (text.drop mantissa.length).head? ≠ some mark)
      (hexponent : LongestStart Numeral.IsExponent (text.drop mantissa.length) exponent)
      (hnext : (text.drop (mantissa.length + exponent.length)).head? = some mark) :
      NumberReading mark start text
        (.error ⟨.unexpectedCharacter mark,
          Span.point (start + (mantissa.length + exponent.length))⟩)
  | secondExponent {mantissa exponent : List Char} {e : Char}
      (hmantissa : LongestStart (Numeral.IsMantissa mark) text mantissa)
      (hunmarked : (text.drop mantissa.length).head? ≠ some mark)
      (hexponent : LongestStart Numeral.IsExponent (text.drop mantissa.length) exponent)
      (hnext : (text.drop (mantissa.length + exponent.length)).head? = some e) (hmark : e ≠ mark)
      (he : Numeral.isExponentMark e = true) :
      NumberReading mark start text
        (.error ⟨.secondExponent e, Span.point (start + (mantissa.length + exponent.length))⟩)
  | noDigits {mantissa exponent : List Char} (h : Numeral.Extent mark text mantissa exponent)
      (hnone : ∀ c ∈ mantissa, c.isDigit = false) :
      NumberReading mark start text
        (.error ⟨.badNumeral (String.ofList (Numeral.plainText mark mantissa exponent)),
          ⟨start, start + (mantissa.length + exponent.length)⟩⟩)
  | integer {mantissa : List Char} (h : Numeral.Extent mark text mantissa [])
      (hdigit : ∃ c ∈ mantissa, c.isDigit = true) (hmark : mark ∉ mantissa) {value : Int64}
      (hvalue : value.toInt = Nat.ofDigitChars 10 mantissa 0) :
      NumberReading mark start text (.ok (.integer value, mantissa.length))
  | float {mantissa exponent : List Char} (h : Numeral.Extent mark text mantissa exponent)
      (hdigit : ∃ c ∈ mantissa, c.isDigit = true)
      (hfloat : mark ∈ mantissa ∨ exponent ≠ [] ∨ 2 ^ 63 ≤ Nat.ofDigitChars 10 mantissa 0)
      {n : Numeral} (hproper : n.Proper)
      (htext : n.text = Numeral.plainText mark mantissa exponent) :
      NumberReading mark start text (.ok (.float n.floatValue, mantissa.length + exponent.length))

theorem LongestStart.orNil {language : List Char → Prop} {text lexeme : List Char}
    (h : LongestStart language text lexeme) :
    LongestStart (fun lexeme => lexeme = [] ∨ language lexeme) text lexeme where
  starts := h.starts
  belongs := .inr h.belongs
  longest := by
    rintro other hother (rfl | hlanguage)
    · exact Nat.zero_le _
    · exact h.longest other hother hlanguage

namespace TokenKind

open Numeral

variable {mark : Char} {start : Nat} {text : List Char} {result : Except ParseError Lexeme}

theorem scanNumber_of_value {n : Numeral} (hscan : Numeral.scan mark start text = .ok n)
    {value : Literal} (hvalue : n.value? = some value) :
    scanNumber mark start text = .ok (ofLiteral value, n.length) := by
  simp only [scanNumber, hscan, hvalue]

theorem scanNumber_of_error {e : ParseError} (hscan : Numeral.scan mark start text = .error e) :
    scanNumber mark start text = .error e := by
  simp only [scanNumber, hscan]

theorem value?_leading_of_integer (hmark : mark.isDigit = false) {m : List Char}
    (h : Extent mark text m []) (hdigit : ∃ c ∈ m, c.isDigit = true) (hplain : mark ∉ m)
    {value : Int64} (hvalue : value.toInt = Nat.ofDigitChars 10 m 0) :
    (leading mark text).value? = some (.integer value) := by
  have hfraction := (fraction_leading_eq_none_iff h.longest_mantissa hmark).mpr hplain
  have hexponent := (exponent_leading_eq_none_iff h.longest_mantissa h.longest_exponent).mpr rfl
  have hlt : Nat.ofDigitChars 10 m 0 < 2 ^ 63 := by
    have := value.toInt_lt
    omega
  have heq : Int64.ofNat (Nat.ofDigitChars 10 m 0) = value := by
    rw [← Int64.toInt_inj, Int64.toInt_ofNat_of_lt hlt, hvalue]
  rw [value?_leading_of_digit h.longest_mantissa hmark hdigit, hfraction, hexponent,
    whole_leading h.longest_mantissa hfraction, if_neg (by decide), if_pos hlt, heq]

theorem value?_leading_of_float (hmark : mark.isDigit = false) {m x : List Char}
    (h : Extent mark text m x) (hdigit : ∃ c ∈ m, c.isDigit = true)
    (hfloat : mark ∈ m ∨ x ≠ [] ∨ 2 ^ 63 ≤ Nat.ofDigitChars 10 m 0) :
    (leading mark text).value? = some (.float (leading mark text).floatValue) := by
  have hfraction := fraction_leading_eq_none_iff h.longest_mantissa hmark
  have hexponent := exponent_leading_eq_none_iff h.longest_mantissa h.longest_exponent
  rw [value?_leading_of_digit h.longest_mantissa hmark hdigit]
  split
  · rfl
  · rename_i hinteger
    rw [Bool.or_eq_true, Option.isSome_iff_ne_none, Option.isSome_iff_ne_none, not_or, not_not,
      not_not] at hinteger
    have hbig : 2 ^ 63 ≤ Nat.ofDigitChars 10 m 0 := by
      rcases hfloat with hmem | hne | hbig
      · exact absurd hmem (hfraction.mp hinteger.1)
      · exact absurd (hexponent.mp hinteger.2) hne
      · exact hbig
    rw [whole_leading h.longest_mantissa hinteger.1, if_neg (Nat.not_lt.mpr hbig)]

/-- A number is read in this way and no other. -/
theorem scanNumber_of_reading (hmark : mark.isDigit = false)
    (h : NumberReading mark start text result) : scanNumber mark start text = result := by
  cases h with
  | secondMark hm hnext =>
    have hlength := length_mantissa_of_longest hm
    rw [← hlength] at hnext ⊢
    exact scanNumber_of_error (scan_of_mark hnext start)
  | markBehindExponent hm hunmarked hx hnext =>
    have htotal := length_leading_of_longest hm hx.orNil
    have hsome := mt (exponent_leading_eq_none_iff hm hx.orNil).mp hx.belongs.ne_nil
    rw [← length_mantissa_of_longest hm] at hunmarked
    rw [← htotal] at hnext ⊢
    refine scanNumber_of_error ((scan_of_exponent hunmarked hsome hnext start).trans ?_)
    rw [if_pos rfl]
  | secondExponent hm hunmarked hx hnext hne he =>
    have htotal := length_leading_of_longest hm hx.orNil
    have hsome := mt (exponent_leading_eq_none_iff hm hx.orNil).mp hx.belongs.ne_nil
    rw [← length_mantissa_of_longest hm] at hunmarked
    rw [← htotal] at hnext ⊢
    refine scanNumber_of_error ((scan_of_exponent hunmarked hsome hnext start).trans ?_)
    rw [if_neg hne, if_pos he]
  | @noDigits m x h hnone =>
    have hm := h.longest_mantissa
    have hvalue := value?_leading_of_no_digits hm hmark hnone
    rw [← length_leading_of_longest hm h.longest_exponent,
      ← text_leading hm h.longest_exponent hmark]
    simp only [scanNumber, h.scan, hvalue]
  | integer h hdigit hplain hvalue =>
    have hlength := length_leading_of_longest h.longest_mantissa h.longest_exponent
    rw [List.length_nil, Nat.add_zero] at hlength
    rw [← hlength]
    exact scanNumber_of_value (h.scan start)
      (value?_leading_of_integer hmark h hdigit hplain hvalue)
  | float h hdigit hfloat hproper htext =>
    have hsame := (leading_proper mark text).eq_of_text_eq hproper
      ((text_leading h.longest_mantissa h.longest_exponent hmark).trans htext.symm)
    rw [← length_leading_of_longest h.longest_mantissa h.longest_exponent, ← hsame]
    exact scanNumber_of_value (h.scan start) (value?_leading_of_float hmark h hdigit hfloat)

/-- There is always a way to read a number. -/
theorem exists_reading (hmark : mark.isDigit = false) (start : Nat) (text : List Char) :
    ∃ result, NumberReading mark start text result := by
  have hm := longestStart_mantissa mark text
  generalize mantissaLexeme mark (mantissa mark text) = m at hm
  have hx := longestStart_exponent (text.drop m.length)
  generalize exponentLexeme (text.drop m.length) = x at hx
  by_cases hunmarked : (text.drop m.length).head? = some mark
  · exact ⟨_, .secondMark hm hunmarked⟩
  by_cases hended : x ≠ [] → ∀ c ∈ (text.drop (m.length + x.length)).head?,
      c ≠ mark ∧ isExponentMark c = false
  · have h : Extent mark text m x := ⟨hm, hunmarked, hx, hended⟩
    by_cases hdigit : ∃ c ∈ m, c.isDigit = true
    · by_cases hfloat : mark ∈ m ∨ x ≠ [] ∨ 2 ^ 63 ≤ Nat.ofDigitChars 10 m 0
      · exact ⟨_, .float h hdigit hfloat (leading_proper mark text) (text_leading hm hx hmark)⟩
      · rw [not_or, not_or, not_not, Nat.not_le] at hfloat
        obtain ⟨hplain, rfl, hlt⟩ := hfloat
        exact ⟨_, .integer h hdigit hplain (Int64.toInt_ofNat_of_lt hlt)⟩
    · refine ⟨_, .noDigits h fun c hc => Bool.eq_false_iff.mpr fun hc' => hdigit ⟨c, hc, hc'⟩⟩
  · obtain ⟨hne, hbehind⟩ := Classical.not_imp.mp hended
    obtain ⟨c, hbehind⟩ := not_forall.mp hbehind
    obtain ⟨hc, hwrong⟩ := Classical.not_imp.mp hbehind
    have hx' : LongestStart IsExponent (text.drop m.length) x :=
      ⟨hx.starts, hx.belongs.resolve_left hne, fun other hother h => hx.longest other hother (.inr h)⟩
    by_cases hcm : c = mark
    · exact ⟨_, .markBehindExponent hm hunmarked hx' (hcm ▸ hc)⟩
    · have he : isExponentMark c = true := by
        rw [← Bool.not_eq_false]
        exact fun he => hwrong ⟨hcm, he⟩
      exact ⟨_, .secondExponent hm hunmarked hx' hc hcm he⟩

theorem scanNumber_eq_iff (hmark : mark.isDigit = false) :
    scanNumber mark start text = result ↔ NumberReading mark start text result := by
  refine ⟨fun h => ?_, scanNumber_of_reading hmark⟩
  obtain ⟨result', hreading⟩ := exists_reading hmark start text
  rwa [← h, scanNumber_of_reading hmark hreading]

/-- Where an exponent mark stands and no number starts, a name starts with it. -/
theorem scan_of_isExponentMark {locale : Locale}
    (hmark : locale.decimalSeparator.isAlphanum = false) {e : Char} (he : isExponentMark e = true)
    (operandExpected : Bool) (start : Nat) (rest : List Char) :
    Text.isBlank e = false ∧
      ∃ text length, scan locale operandExpected start e rest = .ok (name text, length) ∧
        text.toList.head? = some e := by
  have hcases : e = 'e' ∨ e = 'E' := by
    rcases Bool.or_eq_true_iff.mp he with he | he
    · exact .inl (beq_iff_eq.mp he)
    · exact .inr (beq_iff_eq.mp he)
  have hclass : Text.isBlank e = false ∧ e.isDigit = false ∧ Text.isNameStart e = true ∧
      Text.isNamePart e = true ∧ e.isAlphanum = true := by
    rcases hcases with rfl | rfl <;> decide
  obtain ⟨hblank, hdigit, hstart, hpart, halphanum⟩ := hclass
  have hne : (e == locale.decimalSeparator) = false := by
    refine beq_eq_false_iff_ne.mpr fun heq => ?_
    rw [← heq, halphanum] at hmark
    cases hmark
  refine ⟨hblank, String.ofList ((e :: rest).takeWhile Text.isNamePart),
    ((e :: rest).takeWhile Text.isNamePart).length, ?_, ?_⟩
  · rw [scan, hdigit, hne, hstart]
    rfl
  · rw [String.toList_ofList, List.takeWhile_cons_of_pos hpart]
    rfl

/-- Where a number starts, the scanner reads the language of numerals, and if an exponent mark comes
directly behind the number, a name starts with it. -/
theorem scan_number_iff {locale : Locale} (hmark : locale.decimalSeparator.isAlphanum = false)
    {c : Char} (hfirst : c.isDigit = true ∨ c = locale.decimalSeparator) (operandExpected : Bool)
    (start : Nat) (rest : List Char) :
    (∀ result, scan locale operandExpected start c rest = result ↔
      NumberReading locale.decimalSeparator start (c :: rest) result) ∧
    ∀ kind length, scan locale operandExpected start c rest = .ok (kind, length) →
      ∀ e behind, (c :: rest).drop length = e :: behind → isExponentMark e = true →
        Text.isBlank e = false ∧ ∃ text length',
          scan locale kind.expectsOperand (start + length) e behind = .ok (name text, length') ∧
            text.toList.head? = some e := by
  have hdigit : locale.decimalSeparator.isDigit = false := (Bool.or_eq_false_iff.mp hmark).2
  have hnumber : scan locale operandExpected start c rest =
      scanNumber locale.decimalSeparator start (c :: rest) := by
    rw [scan, if_pos (by simpa using hfirst)]
  refine ⟨fun result => ?_, fun kind length _ e behind _ he =>
    scan_of_isExponentMark hmark he kind.expectsOperand (start + length) behind⟩
  rw [hnumber]
  exact scanNumber_eq_iff hdigit

/-- In `12e+x` an exponent mark comes behind the number, but no exponent. -/
theorem scan_number_iff_name :
    Locale.deDe.decimalSeparator.isAlphanum = false ∧
      ('1'.isDigit = true ∨ '1' = Locale.deDe.decimalSeparator) ∧
      NumberReading ',' 0 "12e+x".toList (.ok (.integer 12, 2)) ∧
      ∃ text length, scan .deDe false 2 'e' "+x".toList = .ok (name text, length) ∧
        text.toList.head? = some 'e' := by
  have hmark : Locale.deDe.decimalSeparator.isAlphanum = false := by decide
  have hfirst : '1'.isDigit = true ∨ '1' = Locale.deDe.decimalSeparator := .inl rfl
  have hscan : scan .deDe true 0 '1' "2e+x".toList = .ok (.integer 12, 2) := rfl
  obtain ⟨hreading, hname⟩ := scan_number_iff hmark hfirst true 0 "2e+x".toList
  exact ⟨hmark, hfirst, (hreading _).mp hscan, (hname _ _ hscan 'e' "+x".toList rfl rfl).2⟩

end TokenKind

end FormulaEngine
