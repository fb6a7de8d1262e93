import FormulaEngine.Proofs.AssemblyImages
import FormulaEngine.Proofs.NumeralLanguage
import FormulaEngine.Proofs.Scanning
import Mathlib

/-!
Blanks between tokens. Wherever blanks are put into a text, but for the inside of tokens, the scanner
finds the same tokens, and the formula is read as before. For a token ends where it did: no stretch
without blanks is in the new text that was not in the old one, so whatever looks behind a token finds
either a blank or what was there before.
-/
namespace FormulaEngine

open Decimal

namespace Text

/-- A text with gaps put in: before the character at a position, and at the end. -/
def insertGaps (gaps : Nat → List Char) (position : Nat) : List Char → List Char
  | [] => gaps position
  | c :: rest => gaps position ++ c :: insertGaps gaps (position + 1) rest

/-- Whether no stretch without blanks starts one text that does not start the other. -/
def StartsLike (text' text : List Char) : Prop :=
  ∀ word, (∀ c ∈ word, isBlank c = false) → word <+: text' → word <+: text

theorem startsLike_insertGaps {gaps : Nat → List Char}
    (hgaps : ∀ position, isBlankText (gaps position) = true) (position : Nat) (text : List Char) :
    StartsLike (insertGaps gaps position text) text := by
  intro word hword hstart
  have hblank := List.all_eq_true.mp (hgaps position)
  induction word generalizing position text with
  | nil => exact List.nil_prefix
  | cons d word ih =>
    obtain ⟨hd, hword⟩ := List.forall_mem_cons.mp hword
    -- A gap would put a blank in the place of the first character.
    have hnone : gaps position = [] := by
      cases hgap : gaps position with
      | nil => rfl
      | cons b gap =>
        have hfirst : d = b := by
          cases text <;> simp only [insertGaps, hgap, List.cons_append,
            List.cons_prefix_cons] at hstart <;> exact hstart.1
        have hb := hblank b (by rw [hgap]; exact List.mem_cons_self)
        rw [← hfirst, hd] at hb
        cases hb
    cases text with
    | nil =>
      rw [insertGaps, hnone] at hstart
      exact hstart
    | cons c rest =>
      rw [insertGaps, hnone, List.nil_append, List.cons_prefix_cons] at hstart
      rw [List.cons_prefix_cons]
      exact ⟨hstart.1, ih (position + 1) rest hword hstart.2
        (List.all_eq_true.mp (hgaps (position + 1)))⟩

/-- A stretch without gaps is left as it is. -/
theorem insertGaps_of_free {gaps : Nat → List Char} (position : Nat) {length : Nat}
    {text : List Char} (hlength : length ≤ text.length)
    (hfree : ∀ offset, offset < length → gaps (position + offset) = []) :
    insertGaps gaps position text =
      text.take length ++ insertGaps gaps (position + length) (text.drop length) := by
  induction length generalizing position text with
  | zero => rfl
  | succ length ih =>
    obtain ⟨c, rest, rfl⟩ := List.exists_cons_of_ne_nil (l := text) (by
      rintro rfl
      exact absurd hlength (Nat.not_succ_le_zero _))
    have hrest := ih (position + 1) (Nat.le_of_succ_le_succ hlength) fun offset hlt => by
      rw [Nat.add_assoc, Nat.add_comm 1]
      exact hfree (offset + 1) (Nat.succ_lt_succ hlt)
    have hnone : gaps position = [] := hfree 0 (Nat.succ_pos _)
    rw [insertGaps, hnone, List.nil_append, hrest, List.take_succ_cons,
      List.drop_succ_cons, List.cons_append, Nat.add_assoc, Nat.add_comm 1]

variable {text text' : List Char}

theorem StartsLike.cons (h : StartsLike text' text) (c : Char) :
    StartsLike (c :: text') (c :: text) := by
  rintro word hword hstart
  cases word with
  | nil => exact List.nil_prefix
  | cons d word =>
    rw [List.cons_prefix_cons] at hstart ⊢
    exact ⟨hstart.1, h word (List.forall_mem_cons.mp hword).2 hstart.2⟩

/-- What starts like something still does without the word that both start with. -/
theorem StartsLike.cancel {word : List Char} (hword : ∀ c ∈ word, isBlank c = false)
    (h : StartsLike (word ++ text') (word ++ text)) : StartsLike text' text := by
  intro other hother hstart
  have hlonger := h (word ++ other) (List.forall_mem_append.mpr ⟨hword, hother⟩)
    ((List.prefix_append_right_inj word).mpr hstart)
  exact (List.prefix_append_right_inj word).mp hlonger

theorem StartsLike.head? (h : StartsLike text' text) {c : Char} (hblank : isBlank c = false)
    (hc : text'.head? = some c) : text.head? = some c := by
  obtain ⟨rest, rfl⟩ := List.head?_eq_some_iff.mp hc
  obtain ⟨rest', rfl⟩ := h [c] (List.forall_mem_singleton.mpr hblank) ⟨rest, rfl⟩
  rfl

theorem isBlank_of_isDigit {c : Char} (h : c.isDigit = true) : isBlank c = false := by
  have := toNat_of_isDigit h
  exact isBlank_eq_false (by omega)

theorem isBlank_of_isNamePart {c : Char} (h : isNamePart c = true) : isBlank c = false := by
  rcases Bool.or_eq_true_iff.mp h with h | h
  · rcases Bool.or_eq_true_iff.mp h with h | h
    · have := toNat_of_isAlpha h
      exact isBlank_eq_false (by omega)
    · exact isBlank_of_isDigit h
  · rw [beq_iff_eq.mp h]
    rfl

end Text

open Text

section Languages

variable {text text' lexeme : List Char}

/-- A longest start stays the longest if nothing is there now that was not there before. -/
theorem LongestStart.of_startsLike {language : List Char → Prop}
    (hlanguage : ∀ word, language word → ∀ c ∈ word, isBlank c = false)
    (h : LongestStart language text lexeme) (hlike : StartsLike text' text)
    (hstart : lexeme <+: text') : LongestStart language text' lexeme where
  starts := hstart
  belongs := h.belongs
  longest other hother hbelongs :=
    h.longest other (hlike other (hlanguage other hbelongs) hother) hbelongs

theorem longestStart_takeWhile (p : Char → Bool) (text : List Char) :
    LongestStart (fun word => ∀ c ∈ word, p c = true) text (text.takeWhile p) where
  starts := List.takeWhile_prefix p
  belongs _ hc := List.mem_takeWhile_imp hc
  longest _ hother hall := Numeral.length_le_takeWhile hother hall

theorem takeWhile_of_startsLike {p : Char → Bool} (hp : ∀ c, p c = true → isBlank c = false)
    (hlike : StartsLike text' text) (hstart : text.takeWhile p <+: text') :
    text'.takeWhile p = text.takeWhile p :=
  (longestStart_takeWhile p text').unique
    ((longestStart_takeWhile p text).of_startsLike
      (fun _ hword c hc => hp c (hword c hc)) hlike hstart)

end Languages

namespace Decimal.Numeral

theorem IsMantissa.not_isBlank {mark : Char} (hmark : isBlank mark = false) :
    ∀ word, IsMantissa mark word → ∀ c ∈ word, isBlank c = false := by
  intro word hword c hc
  rcases hword.isDigit_or_eq c hc with hdigit | rfl
  · exact isBlank_of_isDigit hdigit
  · exact hmark

theorem isExponentMark_of_isBlank {c : Char} (h : isBlank c = true) :
    isExponentMark c = false := by
  rw [isExponentMark, Bool.or_eq_false_iff, beq_eq_false_iff_ne, beq_eq_false_iff_ne]
  constructor <;> rintro rfl <;> cases h

theorem IsExponent.not_isBlank {word : List Char} (h : IsExponent word) :
    ∀ c ∈ word, isBlank c = false := by
  obtain ⟨he, hsign, -, hdigits⟩ := h
  rw [List.forall_mem_cons, List.forall_mem_append]
  refine ⟨?_, fun c hc => ?_, fun c hc => isBlank_of_isDigit (hdigits c hc)⟩
  · refine Bool.eq_false_iff.mpr fun hblank => ?_
    rw [isExponentMark_of_isBlank hblank] at he
    cases he
  · rcases hsign c (Option.mem_toList.mp hc) with rfl | rfl <;> rfl

/-- A numeral up to its exponent can be read off its lexeme. -/
theorem mantissa_lexeme (mark : Char) (text : List Char) :
    mantissa mark (mantissaLexeme mark (mantissa mark text)) = mantissa mark text := by
  have hwhole : ∀ c ∈ text.takeWhile Char.isDigit, c.isDigit = true :=
    fun c hc => List.mem_takeWhile_imp hc
  cases hfraction : fractionPart? mark (text.dropWhile Char.isDigit) with
  | none =>
    have hmantissa : mantissa mark text = ⟨text.takeWhile Char.isDigit, none, none⟩ := by
      rw [mantissa, hfraction]
    rw [hmantissa, mantissaLexeme, Option.elim_none, List.append_nil, mantissa,
      List.takeWhile_idem, List.dropWhile_eq_nil_iff.mpr hwhole]
    rfl
  | some digits =>
    have hmantissa : mantissa mark text = ⟨text.takeWhile Char.isDigit, some digits, none⟩ := by
      rw [mantissa, hfraction]
    obtain ⟨tail, hrest, rfl⟩ := fractionPart?_eq_some hfraction
    have hstop : ∀ c ∈ (mark :: tail.takeWhile Char.isDigit).head?, c.isDigit = false := by
      rintro _ ⟨⟩
      have hhead := List.head_dropWhile_not Char.isDigit (l := text) (by simp [hrest])
      simpa only [hrest, List.head_cons] using hhead
    rw [hmantissa, mantissaLexeme, Option.elim_some, mantissa, takeWhile_append hwhole hstop,
      dropWhile_append hwhole hstop, fractionPart?, if_pos rfl, List.takeWhile_idem]

theorem exponentPart?_lexeme (rest : List Char) :
    exponentPart? (exponentLexeme rest) = exponentPart? rest := by
  cases hpart : exponentPart? rest with
  | none => rw [exponentLexeme_of_none hpart]; rfl
  | some part =>
    obtain ⟨e, after, rfl, he, hsign, hne, hdigits⟩ := exponentPart?_eq_some hpart
    rw [exponentLexeme_append hpart, ← List.append_nil (e :: _),
      exponentPart?_append he hsign hne hdigits]
    simp

/-- The lexeme alone decides which numeral it spells. -/
theorem leading_eq_of_longest {mark : Char} {text text' m x : List Char}
    (hm : LongestStart (IsMantissa mark) text m) (hm' : LongestStart (IsMantissa mark) text' m)
    (hx : LongestStart (fun lexeme => lexeme = [] ∨ IsExponent lexeme) (text.drop m.length) x)
    (hx' : LongestStart (fun lexeme => lexeme = [] ∨ IsExponent lexeme) (text'.drop m.length) x) :
    leading mark text' = leading mark text := by
  have hmantissa : mantissa mark text' = mantissa mark text := by
    rw [← mantissa_lexeme, ← mantissa_lexeme mark text, ← hm.unique (longestStart_mantissa _ _),
      ← hm'.unique (longestStart_mantissa _ _)]
  have hexponent : exponentPart? (text'.drop m.length) = exponentPart? (text.drop m.length) := by
    rw [← exponentPart?_lexeme, ← exponentPart?_lexeme (text.drop m.length),
      ← hx.unique (longestStart_exponent _), ← hx'.unique (longestStart_exponent _)]
  rw [leading, leading, length_mantissa_of_longest hm', length_mantissa_of_longest hm, hmantissa,
    hexponent]

end Decimal.Numeral

namespace TokenKind

open Numeral

variable {text text' : List Char} {kind : TokenKind} {length : Nat}

theorem scanNumber_eq_ok {mark : Char} {start : Nat}
    (h : scanNumber mark start text = .ok (kind, length)) :
    ∃ value, Numeral.scan mark start text = .ok (leading mark text) ∧
      (leading mark text).value? = some value ∧ kind = ofLiteral value ∧
      length = (leading mark text).length := by
  unfold scanNumber at h
  split at h
  · cases h
  · rename_i n hscan
    obtain ⟨rfl, -⟩ := scan_eq_ok_iff.mp hscan
    split at h
    · rename_i value hvalue
      cases h
      exact ⟨value, hscan, hvalue, rfl, rfl⟩
    · cases h

theorem scanNumber_of_startsLike {mark : Char} (hmark : isBlank mark = false) {start : Nat}
    (h : scanNumber mark start text = .ok (kind, length)) (hlike : StartsLike text' text)
    (hlexeme : text.take length <+: text') (start' : Nat) :
    scanNumber mark start' text' = .ok (kind, length) := by
  obtain ⟨value, hscan, hvalue, rfl, rfl⟩ := scanNumber_eq_ok h
  obtain ⟨-, hunmarked, hended⟩ := scan_eq_ok_iff.mp hscan
  have hm := longestStart_mantissa mark text
  generalize mantissaLexeme mark (mantissa mark text) = m at hm
  have hx := longestStart_exponent (text.drop m.length)
  generalize exponentLexeme (text.drop m.length) = x at hx
  rw [length_mantissa_of_longest hm] at hunmarked
  rw [length_leading_of_longest hm hx] at hended hlexeme
  -- Both texts begin with the lexeme, and behind it nothing is there that was not there before.
  obtain ⟨rest, rfl⟩ := hm.starts
  rw [List.drop_left] at hunmarked hx
  obtain ⟨behind, rfl⟩ := hx.starts
  rw [← List.append_assoc, List.take_left' List.length_append] at hlexeme
  obtain ⟨behind', rfl⟩ := hlexeme
  rw [List.append_assoc] at hlike ⊢
  have hdrop : ∀ after, (m ++ (x ++ after)).drop (m.length + x.length) = after := by
    intro after
    rw [← List.append_assoc, List.drop_left' List.length_append]
  rw [hdrop] at hended
  have hxblank : ∀ c ∈ x, isBlank c = false := by
    rcases hx.belongs with rfl | hx
    · nofun
    · exact hx.not_isBlank
  have hafter : StartsLike (x ++ behind') (x ++ behind) :=
    hlike.cancel (IsMantissa.not_isBlank hmark m hm.belongs)
  have hbehind : StartsLike behind' behind := hafter.cancel hxblank
  have hm' : LongestStart (IsMantissa mark) (m ++ (x ++ behind')) m :=
    hm.of_startsLike (IsMantissa.not_isBlank hmark) hlike (List.prefix_append _ _)
  have hx' : LongestStart (fun lexeme => lexeme = [] ∨ IsExponent lexeme)
      ((m ++ (x ++ behind')).drop m.length) x := by
    rw [List.drop_left]
    refine hx.of_startsLike ?_ hafter (List.prefix_append _ _)
    rintro _ (rfl | hword)
    · nofun
    · exact hword.not_isBlank
  have hsame : leading mark (m ++ (x ++ behind')) = leading mark (m ++ (x ++ behind)) :=
    leading_eq_of_longest hm hm' (by rwa [List.drop_left]) hx'
  rw [← hsame] at hvalue hended ⊢
  refine scanNumber_of_value (scan_eq_ok_iff.mpr ⟨rfl, ?_, fun hsome => ?_⟩) hvalue
  · rw [length_mantissa_of_longest hm', List.drop_left]
    exact fun hnext => hunmarked (hafter.head? hmark hnext)
  · intro c hc
    rw [length_leading_of_longest hm' hx', hdrop] at hc
    by_cases hc' : isBlank c = true
    · refine ⟨fun hcm => ?_, isExponentMark_of_isBlank hc'⟩
      rw [hcm, hmark] at hc'
      cases hc'
    · exact hended hsome c (hbehind.head? (Bool.eq_false_iff.mpr hc') hc)

theorem scanName_of_startsLike (hlike : StartsLike text' text)
    (hlexeme : text.take (scanName text).2 <+: text') : scanName text' = scanName text := by
  rw [scanName, take_length_takeWhile] at hlexeme
  rw [scanName, scanName,
    takeWhile_of_startsLike (fun _ hc => isBlank_of_isNamePart hc) hlike hlexeme]

section Symbols

variable {c : Char} {rest rest' : List Char}

/-- A second character that the token has is there, and one that it does not have is not. -/
theorem head?_eq_iff_of_startsLike (hlike : StartsLike rest' rest) {second : Char}
    (hblank : isBlank second = false) (hsecond : rest.head? = some second → [c, second] <+: c :: rest') :
    rest'.head? = some second ↔ rest.head? = some second := by
  refine ⟨hlike.head? hblank, fun hrest => ?_⟩
  obtain ⟨behind, hbehind⟩ := hsecond hrest
  rw [← (List.cons.inj hbehind).2]
  rfl

theorem scanComparison_of_startsLike {plain orEqual : BinaryOperator}
    (hlike : StartsLike rest' rest)
    (hlexeme : (c :: rest).take (scanComparison plain orEqual rest).2 <+: c :: rest') :
    scanComparison plain orEqual rest' = scanComparison plain orEqual rest := by
  have hiff : rest'.head? = some '=' ↔ rest.head? = some '=' := by
    refine head?_eq_iff_of_startsLike (c := c) hlike rfl fun hrest => ?_
    obtain ⟨behind, rfl⟩ := List.head?_eq_some_iff.mp hrest
    exact hlexeme
  simp only [scanComparison, hiff]

theorem scanPair_of_startsLike {start : Nat} {second : Char} {op : BinaryOperator}
    (h : scanPair start c second op rest = .ok (kind, length))
    (hlexeme : (c :: rest).take length <+: c :: rest') (start' : Nat) :
    scanPair start' c second op rest' = .ok (kind, length) := by
  unfold scanPair at h
  split at h
  · rename_i hrest
    cases h
    obtain ⟨behind, rfl⟩ := List.head?_eq_some_iff.mp hrest
    obtain ⟨behind', hbehind⟩ := hlexeme
    refine if_pos ?_
    rw [← (List.cons.inj hbehind).2]
    rfl
  · cases h

theorem scanSymbol_of_startsLike {operandExpected : Bool} {start : Nat}
    (h : scanSymbol operandExpected start c rest = .ok (kind, length))
    (hlike : StartsLike rest' rest) (hlexeme : (c :: rest).take length <+: c :: rest')
    (start' : Nat) : scanSymbol operandExpected start' c rest' = .ok (kind, length) := by
  unfold scanSymbol at h ⊢
  split at h
  case h_12 | h_13 =>
    have hlength := (congrArg Prod.snd (Except.ok.inj h)).symm
    dsimp only at hlength
    subst hlength
    rw [scanComparison_of_startsLike hlike hlexeme]
    exact h
  case h_14 | h_15 | h_16 | h_17 => exact scanPair_of_startsLike h hlexeme start'
  case h_18 => cases h
  all_goals exact h

end Symbols

/-- A token that starts a text starts every text that begins with its lexeme and starts like it. -/
theorem scan_of_startsLike {locale : Locale} (hmark : isBlank locale.decimalSeparator = false)
    {operandExpected : Bool} {start : Nat} {c : Char} {rest rest' : List Char}
    (hblank : isBlank c = false)
    (h : scan locale operandExpected start c rest = .ok (kind, length))
    (hlike : StartsLike (c :: rest') (c :: rest)) (hlexeme : (c :: rest).take length <+: c :: rest')
    (start' : Nat) : scan locale operandExpected start' c rest' = .ok (kind, length) := by
  unfold scan at h ⊢
  split at h
  · rename_i hnumber
    rw [if_pos hnumber]
    exact scanNumber_of_startsLike hmark h hlike hlexeme start'
  rename_i hnumber
  rw [if_neg hnumber]
  split at h
  · rename_i hname
    have hlength := (congrArg Prod.snd (Except.ok.inj h)).symm
    dsimp only at hlength
    subst hlength
    rw [if_pos hname, scanName_of_startsLike hlike hlexeme]
    exact h
  rename_i hname
  rw [if_neg hname]
  split at h
  · rename_i hseparator
    rw [if_pos hseparator]
    exact h
  · rename_i hseparator
    rw [if_neg hseparator]
    exact scanSymbol_of_startsLike h
      (StartsLike.cancel (List.forall_mem_singleton.mpr hblank) hlike) hlexeme start'

end TokenKind

/-- Whether a position lies between two characters of a span. -/
def Span.Encloses (span : Span) (position : Nat) : Prop :=
  span.start < position ∧ position < span.stop

namespace Token

variable {locale : Locale}

theorem scanFrom_blanks_append {blanks : List Char} (h : isBlankText blanks = true)
    (position : Nat) (operandExpected : Bool) (done : List Token) (text : List Char) :
    scanFrom locale position operandExpected done (blanks ++ text) =
      scanFrom locale (position + blanks.length) operandExpected done text := by
  induction blanks generalizing position with
  | nil => rfl
  | cons b blanks ih =>
    obtain ⟨hb, hblanks⟩ := Bool.and_eq_true_iff.mp h
    rw [List.cons_append, scanFrom, if_pos hb, ih hblanks, List.length_cons, Nat.add_assoc,
      Nat.add_comm 1]

theorem length_of_scan {operandExpected : Bool} {start : Nat} {c : Char} {rest : List Char}
    {kind : TokenKind} {length : Nat}
    (h : TokenKind.scan locale operandExpected start c rest = .ok (kind, length)) :
    0 < length ∧ length ≤ (c :: rest).length := by
  rcases TokenKind.scan_cases locale operandExpected start c rest with
    ⟨kind', length', hscan, hpositive, hle, -⟩ | ⟨e, hscan, -⟩
  · cases h.symm.trans hscan
    exact ⟨hpositive, hle⟩
  · cases h.symm.trans hscan

/-- The tokens that are found come after those there were. -/
theorem reverse_prefix_of_scanFrom {position : Nat} {operandExpected : Bool}
    {done tokens : List Token} {text : List Char}
    (h : scanFrom locale position operandExpected done text = .ok tokens) :
    done.reverse <+: tokens := by
  fun_induction scanFrom locale position operandExpected done text with
  | case1 =>
    cases h
    exact List.prefix_refl _
  | case2 position operandExpected done c rest hblank ih => exact ih h
  | case3 => cases h
  | case4 position operandExpected done c rest hblank kind length hscan ih =>
    have hprefix := ih h
    rw [List.reverse_cons] at hprefix
    exact (List.prefix_append _ _).trans hprefix

theorem scanFrom_insertGaps (hmark : isBlank locale.decimalSeparator = false)
    {gaps : Nat → List Char} (hgaps : ∀ position, isBlankText (gaps position) = true)
    {position : Nat} {operandExpected : Bool} {done tokens : List Token} {text : List Char}
    (h : scanFrom locale position operandExpected done text = .ok tokens)
    (hfree : ∀ token ∈ tokens, ∀ position, token.span.Encloses position → gaps position = [])
    (position' : Nat) {done' : List Token} (hdone : done'.map kind = done.map kind) :
    ∃ tokens', scanFrom locale position' operandExpected done' (insertGaps gaps position text) =
        .ok tokens' ∧ tokens'.map kind = tokens.map kind := by
  fun_induction scanFrom locale position operandExpected done text
    generalizing position' done' with
  | case1 position operandExpected done =>
    cases h
    refine ⟨done'.reverse, ?_, by rw [List.map_reverse, List.map_reverse, hdone]⟩
    rw [insertGaps, scanFrom_of_isBlankText _ _ _ _ (hgaps position)]
  | case2 position operandExpected done c rest hblank ih =>
    rw [insertGaps, scanFrom_blanks_append (hgaps position), scanFrom, if_pos hblank]
    exact ih h _ hdone
  | case3 => cases h
  | case4 position operandExpected done c rest hblank kind length hscan ih =>
    have htoken := (reverse_prefix_of_scanFrom h).mem (List.mem_reverse.mpr List.mem_cons_self)
    obtain ⟨hpositive, hle⟩ := length_of_scan hscan
    obtain ⟨length, rfl⟩ : ∃ n, length = n + 1 := ⟨length - 1, by omega⟩
    -- Inside of the token there is no gap, so its lexeme is left as it is.
    have hinside := insertGaps_of_free (position + 1) (Nat.le_of_succ_le_succ hle)
      fun offset hlt => hfree _ htoken _ ⟨by dsimp only; omega, by dsimp only; omega⟩
    have hlike : StartsLike (c :: insertGaps gaps (position + 1) rest) (c :: rest) :=
      (startsLike_insertGaps hgaps (position + 1) rest).cons c
    rw [hinside] at hlike
    have hlexeme : (c :: rest).take (length + 1) <+: c :: (rest.take length ++
        insertGaps gaps (position + 1 + length) (rest.drop length)) := by
      rw [List.take_succ_cons, List.prefix_cons_inj]
      exact List.prefix_append _ _
    have hscan' := TokenKind.scan_of_startsLike hmark (Bool.eq_false_iff.mpr hblank) hscan hlike
      hlexeme (position' + (gaps position).length)
    have hbehind : (rest.take length ++ insertGaps gaps (position + 1 + length)
        (rest.drop length)).drop length = insertGaps gaps (position + (length + 1))
          (rest.drop length) := by
      rw [List.drop_left' (List.length_take_of_le (Nat.le_of_succ_le_succ hle)), Nat.add_assoc,
        Nat.add_comm 1]
    rw [insertGaps, hinside, scanFrom_blanks_append (hgaps position), scanFrom, if_neg hblank]
    simp only [hscan', Nat.add_sub_cancel, hbehind]
    refine ih h _ ?_
    rw [List.map_cons, List.map_cons, hdone]

theorem scan_insertGaps (hmark : isBlank locale.decimalSeparator = false)
    {gaps : Nat → List Char} (hgaps : ∀ position, isBlankText (gaps position) = true)
    {tokens : List Token} {text : List Char} (h : scan locale text = .ok tokens)
    (hfree : ∀ token ∈ tokens, ∀ position, token.span.Encloses position → gaps position = []) :
    ∃ tokens', scan locale (insertGaps gaps 0 text) = .ok tokens' ∧
      tokens'.map kind = tokens.map kind :=
  scanFrom_insertGaps hmark hgaps h hfree 0 rfl

end Token

namespace Tree

/-- Blanks put in before, between and behind the tokens of a text change none of the tokens but in
their places. So every vocabulary reads the text as before: as the same tree, or as none, for the
same cause. -/
theorem parse_insertGaps {locale : Locale} (hmark : isBlank locale.decimalSeparator = false)
    {text : String} {tokens : List Token} (hscan : Token.scan locale text.toList = .ok tokens)
    {gaps : Nat → List Char} (hgaps : ∀ position, isBlankText (gaps position) = true)
    (hfree : ∀ token ∈ tokens, ∀ position, token.span.Encloses position → gaps position = []) :
    (∃ tokens', Token.scan locale (insertGaps gaps 0 text.toList) = .ok tokens' ∧
      tokens'.map Token.kind = tokens.map Token.kind) ∧
    ∀ v, (parse locale v (String.ofList (insertGaps gaps 0 text.toList))).mapError
        ParseError.cause = (parse locale v text).mapError ParseError.cause := by
  obtain ⟨tokens', hscan', hkinds⟩ := Token.scan_insertGaps hmark hgaps hscan hfree
  refine ⟨⟨tokens', hscan', hkinds⟩, fun v => ?_⟩
  have hcongr := ofTokens_congr v hkinds
  unfold parse readFormula
  rw [String.toList_ofList, hscan, hscan']
  cases tokens with
  | nil =>
    rw [List.map_eq_nil_iff.mp hkinds]
    rfl
  | cons token tokens =>
    cases tokens' with
    | nil => cases hkinds
    | cons token' tokens' => exact hcongr

/-- In `2e<-3` the scanner looks behind the number for an exponent, and behind the operator for its
second character; what it finds there may be a blank. -/
theorem parse_insertGaps_lookahead :
    isBlank Locale.enUs.decimalSeparator = false ∧
      (∃ tokens', Token.scan .enUs "2 e< -3".toList = .ok tokens' ∧
        tokens'.map Token.kind = [.integer 2, .name "e", .operator (.binary .lessThan),
          .operator .unaryMinus, .integer 3]) ∧
      ∀ v, (parse .enUs v "2 e< -3").mapError ParseError.cause =
        (parse .enUs v "2e<-3").mapError ParseError.cause := by
  have hmark : isBlank Locale.enUs.decimalSeparator = false := rfl
  let tokens : List Token := [⟨.integer 2, ⟨0, 1⟩⟩, ⟨.name "e", ⟨1, 2⟩⟩,
    ⟨.operator (.binary .lessThan), ⟨2, 3⟩⟩, ⟨.operator .unaryMinus, ⟨3, 4⟩⟩,
    ⟨.integer 3, ⟨4, 5⟩⟩]
  have hscan : Token.scan .enUs "2e<-3".toList = .ok tokens := by cbv
  have hgaps : ∀ position, isBlankText (if position = 1 ∨ position = 3 then [' '] else []) =
      true := by
    intro position
    split <;> rfl
  -- Every token is one character long, so no position is inside of one.
  have hfree : ∀ token ∈ tokens, ∀ position, token.span.Encloses position →
      (if position = 1 ∨ position = 3 then [' '] else []) = [] := by
    rintro token htoken position ⟨hstart, hstop⟩
    have hshort : ∀ token ∈ tokens, token.span.stop = token.span.start + 1 := by decide
    have := hshort token htoken
    omega
  obtain ⟨htokens, hparse⟩ := parse_insertGaps hmark hscan hgaps hfree
  exact ⟨hmark, htokens, hparse⟩

end Tree

end FormulaEngine
