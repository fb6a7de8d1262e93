import FormulaEngine.Token.Scan
import Mathlib.Data.List.TakeWhile

/-!
What tokens leave of a text. Whatever characters a locale chooses for its punctuation, the spans of
the tokens follow each other without an overlap, no span is empty, and nothing but blanks is left
between them. A token is spelled by what its span cuts out, and a name is just that. A text that is
refused is refused at a stretch of it.
-/
namespace FormulaEngine

open Decimal

namespace Span

/-- Whether a span is a stretch of at least one character in a text of the given length. -/
structure Within (span : Span) (length : Nat) : Prop where
  nonempty : span.start < span.stop
  inside : span.stop ≤ length

def Holds (span : Span) (position : Nat) : Prop := span.start ≤ position ∧ position < span.stop

/-- The characters of a text that a span holds. -/
def cut (span : Span) (text : List Char) : List Char :=
  (text.drop span.start).take (span.stop - span.start)

theorem within_point {position length : Nat} (h : position < length) :
    (point position).Within length := ⟨Nat.lt_succ_self _, h⟩

theorem Within.mono {span : Span} {length length' : Nat} (h : span.Within length)
    (hle : length ≤ length') : span.Within length' :=
  ⟨h.nonempty, Nat.le_trans h.inside hle⟩

theorem Within.cut_append {span : Span} {before : List Char} (h : span.Within before.length)
    (after : List Char) : span.cut (before ++ after) = span.cut before := by
  have hstart : span.start ≤ before.length := Nat.le_trans (Nat.le_of_lt h.nonempty) h.inside
  have hlength : span.stop - span.start ≤ (before.drop span.start).length := by
    rw [List.length_drop]
    exact Nat.sub_le_sub_right h.inside _
  rw [cut, cut, List.drop_append_of_le_length hstart, List.take_append_of_le_length hlength]

theorem cut_end (before lexeme : List Char) :
    cut ⟨before.length, before.length + lexeme.length⟩ (before ++ lexeme) = lexeme := by
  simp [cut]

end Span

/-- Whether a character may be part of a numeral with the given decimal mark. -/
def Decimal.Numeral.IsCharacter (mark c : Char) : Prop :=
  c.isDigit = true ∨ c = mark ∨ isExponentMark c = true ∨ c = '+' ∨ c = '-'

/-- Whether a text may spell a token: a name is the text itself, an operator has its symbol and a
spelling for texts without it, and a number is made of the characters of numerals. -/
def TokenKind.Spelled (locale : Locale) : TokenKind → List Char → Prop
  | name text, lexeme => text = String.ofList lexeme ∧ ∀ c ∈ lexeme, Text.isNamePart c = true
  | integer _, lexeme | float _, lexeme =>
    ∀ c ∈ lexeme, Numeral.IsCharacter locale.decimalSeparator c
  | operator .unaryMinus, lexeme => lexeme = ['-']
  | operator (.binary op), lexeme => lexeme = [op.symbol] ∨ lexeme = op.spelling.toList
  | leftBracket, lexeme => lexeme = ['(']
  | rightBracket, lexeme => lexeme = [')']
  | separator, lexeme => lexeme = [locale.argumentSeparator]

/-- Whether tokens account for a text: their spans are stretches of it, one after the other, what
they leave is blank, and what they hold spells them. -/
structure Token.Cover (locale : Locale) (text : List Char) (tokens : List Token) : Prop where
  within : ∀ token ∈ tokens, token.span.Within text.length
  apart : tokens.Pairwise fun token next => token.span.stop ≤ next.span.start
  blank : ∀ position c, text[position]? = some c →
    (∀ token ∈ tokens, ¬token.span.Holds position) → Text.isBlank c = true
  spelled : ∀ token ∈ tokens, token.kind.Spelled locale (token.span.cut text)

namespace Token.Cover

variable {locale : Locale}

theorem nil : Cover locale [] [] := ⟨nofun, .nil, nofun, nofun⟩

variable {before : List Char} {tokens : List Token} (h : Cover locale before tokens)
include h

theorem cut_append (after : List Char) {token : Token} (htoken : token ∈ tokens) :
    token.span.cut (before ++ after) = token.span.cut before :=
  (h.within token htoken).cut_append after

/-- What is blank in a longer text is what was blank before, or comes after that. -/
theorem blank_append {after : List Char} {position : Nat} {c : Char}
    (hc : (before ++ after)[position]? = some c)
    (hfree : ∀ token ∈ tokens, ¬token.span.Holds position)
    (hafter : before.length ≤ position → c ∈ after → Text.isBlank c = true) :
    Text.isBlank c = true := by
  by_cases hposition : position < before.length
  · rw [List.getElem?_append_left hposition] at hc
    exact h.blank position c hc hfree
  · have hle : before.length ≤ position := Nat.le_of_not_lt hposition
    rw [List.getElem?_append_right hle] at hc
    exact hafter hle (List.mem_of_getElem? hc)

theorem snoc_blank {c : Char} (hblank : Text.isBlank c = true) :
    Cover locale (before ++ [c]) tokens where
  within token htoken := (h.within token htoken).mono (by simp)
  apart := h.apart
  blank position d hd hfree := by
    refine h.blank_append hd hfree fun _ hmem => ?_
    rw [List.mem_singleton.mp hmem]
    exact hblank
  spelled token htoken := by
    rw [h.cut_append _ htoken]
    exact h.spelled token htoken

theorem snoc_token {kind : TokenKind} {lexeme : List Char} (hne : lexeme ≠ [])
    (hspelled : kind.Spelled locale lexeme) :
    Cover locale (before ++ lexeme)
      (tokens ++ [⟨kind, ⟨before.length, before.length + lexeme.length⟩⟩]) where
  within := by
    rw [List.forall_mem_append, List.forall_mem_singleton]
    refine ⟨fun token htoken => (h.within token htoken).mono (by simp), ?_, ?_⟩
    · exact Nat.lt_add_of_pos_right (List.length_pos_iff.mpr hne)
    · exact Nat.le_of_eq List.length_append.symm
  apart := by
    rw [List.pairwise_append]
    refine ⟨h.apart, List.pairwise_singleton _ _, fun token htoken next hnext => ?_⟩
    rw [List.mem_singleton.mp hnext]
    exact (h.within token htoken).inside
  blank position c hc hfree := by
    rw [List.forall_mem_append, List.forall_mem_singleton] at hfree
    refine h.blank_append hc hfree.1 fun hle _ => ?_
    -- The new token holds every position from its start on.
    obtain ⟨hlt, -⟩ := List.getElem?_eq_some_iff.mp hc
    rw [List.length_append] at hlt
    exact absurd ⟨hle, hlt⟩ hfree.2
  spelled := by
    rw [List.forall_mem_append, List.forall_mem_singleton]
    constructor
    · intro token htoken
      rw [h.cut_append _ htoken]
      exact h.spelled token htoken
    · rw [Span.cut_end]
      exact hspelled

/-- A character that is not blank belongs to a token. -/
theorem exists_holds {position : Nat} {c : Char} (hc : before[position]? = some c)
    (hblank : Text.isBlank c = false) : ∃ token ∈ tokens, token.span.Holds position := by
  by_contra hnone
  have hfree : ∀ token ∈ tokens, ¬token.span.Holds position :=
    fun token htoken hholds => hnone ⟨token, htoken, hholds⟩
  exact absurd (h.blank position c hc hfree) (Bool.eq_false_iff.mp hblank)

/-- No position belongs to two tokens. -/
theorem eq_of_holds {token other : Token} (htoken : token ∈ tokens) (hother : other ∈ tokens)
    {position : Nat} (hholds : token.span.Holds position) (hholds' : other.span.Holds position) :
    token = other := by
  have hnot : ∀ {first next : Token}, first.span.stop ≤ next.span.start →
      first.span.Holds position → ¬next.span.Holds position :=
    fun hle hfirst hnext => absurd (Nat.lt_of_lt_of_le hfirst.2 hle) (Nat.not_lt.mpr hnext.1)
  obtain ⟨front, back, rfl⟩ := List.append_of_mem htoken
  obtain ⟨-, hback, hfront⟩ := List.pairwise_append.mp h.apart
  rcases List.mem_append.mp hother with hmem | hmem
  · exact absurd hholds (hnot (hfront other hmem token List.mem_cons_self) hholds')
  · rcases List.mem_cons.mp hmem with heq | hmem
    · exact heq.symm
    · exact absurd hholds' (hnot ((List.pairwise_cons.mp hback).1 other hmem) hholds)

/-- Without tokens the whole text is blank. -/
theorem isBlankText (hnone : tokens = []) : Text.isBlankText before = true := by
  subst hnone
  refine List.all_eq_true.mpr fun c hc => ?_
  obtain ⟨position, hposition⟩ := List.getElem?_of_mem hc
  exact h.blank position c hposition nofun

end Token.Cover

namespace Decimal.Numeral

theorem length_takeWhile_le (p : Char → Bool) (text : List Char) :
    (text.takeWhile p).length ≤ text.length :=
  (List.takeWhile_prefix p).length_le

theorem length_eq (n : Numeral) :
    n.length = n.whole.length + (n.fraction.elim 0 fun digits => digits.length + 1) +
      (n.exponent.elim 0 fun part => part.1.toList.length + part.2.length + 1) := by
  obtain ⟨whole, fraction, exponent⟩ := n
  cases fraction <;> cases exponent <;> simp +arith [length, text]

/-- Without its exponent a numeral takes the digits and the decimal mark that are there. -/
theorem length_mantissa_le (mark : Char) (text : List Char) :
    (mantissa mark text).length ≤ text.length := by
  have hsplit := congrArg List.length (List.takeWhile_append_dropWhile (p := Char.isDigit)
    (l := text))
  rw [List.length_append] at hsplit
  simp only [length_eq, mantissa, Option.elim_none]
  cases hrest : text.dropWhile Char.isDigit with
  | nil => simpa [fractionPart?] using length_takeWhile_le _ text
  | cons c rest =>
    have hdigits := length_takeWhile_le Char.isDigit rest
    rw [hrest, List.length_cons] at hsplit
    rw [fractionPart?]
    split
    · simp only [Option.elim_some]
      omega
    · simp only [Option.elim_none]
      omega

theorem length_exponentPart?_le {text : List Char} {sign : Option Char} {digits : List Char}
    (h : exponentPart? text = some (sign, digits)) :
    sign.toList.length + digits.length + 1 ≤ text.length := by
  cases text with
  | nil => cases h
  | cons c rest =>
    unfold exponentPart? at h
    dsimp only at h
    split at h
    · cases h
      have hsign : (signPart? rest).toList.length ≤ rest.length := by
        cases rest with
        | nil => exact Nat.le_refl 0
        | cons d rest =>
          cases signPart? (d :: rest) <;> simp
      have hdigits := length_takeWhile_le Char.isDigit
        (rest.drop (signPart? rest).toList.length)
      rw [List.length_drop] at hdigits
      rw [List.length_cons]
      omega
    · cases h

/-- The numeral at the start of a text, unless it is refused. -/
def leading (mark : Char) (text : List Char) : Numeral :=
  { mantissa mark text with exponent := exponentPart? (text.drop (mantissa mark text).length) }

theorem length_leading (mark : Char) (text : List Char) :
    (leading mark text).length = (mantissa mark text).length +
      (leading mark text).exponent.elim 0 fun part => part.1.toList.length + part.2.length + 1 := by
  simp [length_eq, leading, mantissa]

/-- A numeral takes no more characters than there are. -/
theorem length_leading_le (mark : Char) (text : List Char) :
    (mantissa mark text).length ≤ (leading mark text).length ∧
      (leading mark text).length ≤ text.length := by
  have hmantissa := length_mantissa_le mark text
  have hlength := length_leading mark text
  cases hexponent : (leading mark text).exponent with
  | none =>
    rw [hexponent, Option.elim_none] at hlength
    omega
  | some part =>
    have hpart := length_exponentPart?_le hexponent
    rw [List.length_drop] at hpart
    rw [hexponent, Option.elim_some] at hlength
    omega

theorem isCharacter_of_mem_takeWhile {mark c : Char} {text : List Char}
    (h : c ∈ text.takeWhile Char.isDigit) : IsCharacter mark c :=
  .inl (List.mem_takeWhile_imp h)

theorem take_length_takeWhile (p : Char → Bool) (text : List Char) :
    text.take (text.takeWhile p).length = text.takeWhile p :=
  (List.prefix_iff_eq_take.mp (List.takeWhile_prefix p)).symm

theorem isCharacter_mantissa (mark : Char) (text : List Char) :
    ∀ c ∈ text.take (mantissa mark text).length, IsCharacter mark c := by
  have hdrop : text.drop (text.takeWhile Char.isDigit).length = text.dropWhile Char.isDigit :=
    calc text.drop (text.takeWhile Char.isDigit).length
        = (text.takeWhile Char.isDigit ++ text.dropWhile Char.isDigit).drop
            (text.takeWhile Char.isDigit).length := by rw [List.takeWhile_append_dropWhile]
      _ = text.dropWhile Char.isDigit := List.drop_left
  simp only [length_eq, mantissa, Option.elim_none, Nat.add_zero]
  rw [List.take_add, take_length_takeWhile, hdrop, List.forall_mem_append]
  refine ⟨fun c hc => isCharacter_of_mem_takeWhile hc, ?_⟩
  cases text.dropWhile Char.isDigit with
  | nil => simp
  | cons c rest =>
    rw [fractionPart?]
    split
    · rename_i hmark
      rw [Option.elim_some, List.take_succ_cons, take_length_takeWhile, List.forall_mem_cons]
      exact ⟨.inr (.inl hmark), fun c hc => isCharacter_of_mem_takeWhile hc⟩
    · simp

theorem isCharacter_exponentPart? {mark : Char} {text : List Char} {sign : Option Char}
    {digits : List Char} (h : exponentPart? text = some (sign, digits)) :
    ∀ c ∈ text.take (sign.toList.length + digits.length + 1), IsCharacter mark c := by
  cases text with
  | nil => cases h
  | cons c rest =>
    unfold exponentPart? at h
    dsimp only at h
    split at h
    · rename_i hmark
      cases h
      have hsign : ∀ d ∈ rest.take (signPart? rest).toList.length, IsCharacter mark d := by
        cases rest with
        | nil => nofun
        | cons d rest =>
          unfold signPart?
          rw [List.head?_cons, Option.filter_some]
          split
          · rename_i hd
            have hd : d = '+' ∨ d = '-' := by simpa using hd
            rintro _ ⟨⟩
            · exact .inr (.inr (.inr hd))
            · contradiction
          · nofun
      rw [List.take_succ_cons, List.forall_mem_cons, List.take_add, List.forall_mem_append,
        take_length_takeWhile]
      exact ⟨.inr (.inr (.inl (Bool.and_eq_true_iff.mp hmark).1)), hsign,
        fun d hd => isCharacter_of_mem_takeWhile hd⟩
    · cases h

theorem isCharacter_leading (mark : Char) (text : List Char) :
    ∀ c ∈ text.take (leading mark text).length, IsCharacter mark c := by
  rw [length_leading, List.take_add, List.forall_mem_append]
  refine ⟨isCharacter_mantissa mark text, ?_⟩
  cases hexponent : (leading mark text).exponent with
  | none => simp
  | some part => exact isCharacter_exponentPart? hexponent

/-- A numeral takes a character where a digit or the decimal mark comes first. -/
theorem length_leading_pos {mark c : Char} (hfirst : c.isDigit = true ∨ c = mark)
    (rest : List Char) : 0 < (leading mark (c :: rest)).length := by
  refine Nat.lt_of_lt_of_le ?_ (length_leading_le mark (c :: rest)).1
  rw [length_eq]
  by_cases hdigit : c.isDigit = true
  · have hwhole : (mantissa mark (c :: rest)).whole ≠ [] := by simp [mantissa, hdigit]
    have := List.length_pos_iff.mpr hwhole
    omega
  · have hfraction : (mantissa mark (c :: rest)).fraction = some (rest.takeWhile Char.isDigit) := by
      rw [mantissa, List.dropWhile_cons_of_neg hdigit, fractionPart?,
        if_pos (hfirst.resolve_left hdigit)]
    rw [hfraction, Option.elim_some]
    omega

/-- A numeral is found, or refused at a character of the text. -/
theorem scan_cases (mark : Char) (start : Nat) (text : List Char) :
    scan mark start text = .ok (leading mark text) ∨
      ∃ cause taken, taken < text.length ∧
        scan mark start text = .error ⟨cause, Span.point (start + taken)⟩ := by
  have hthere : ∀ {taken : Nat} {c : Char}, (text.drop taken).head? = some c →
      taken < text.length := by
    intro taken c hc
    by_contra hge
    rw [List.drop_eq_nil_of_le (Nat.le_of_not_lt hge)] at hc
    cases hc
  unfold scan
  dsimp only
  split
  · rename_i hmark
    exact .inr ⟨_, _, hthere hmark, rfl⟩
  · split
    · rename_i hnext
      split
      · exact .inr ⟨_, _, hthere hnext, rfl⟩
      · split
        · exact .inr ⟨_, _, hthere hnext, rfl⟩
        · exact .inl rfl
    · exact .inl rfl

end Decimal.Numeral

namespace TokenKind

variable {locale : Locale}

/-- What a scanned token is: the characters of the text that spell it. -/
def Takes (locale : Locale) (kind : TokenKind) (length : Nat) (text : List Char) : Prop :=
  0 < length ∧ length ≤ text.length ∧ kind.Spelled locale (text.take length)

theorem scanNumber_cases (start : Nat) {c : Char}
    (hfirst : c.isDigit = true ∨ c = locale.decimalSeparator) (rest : List Char) :
    (∃ kind length, scanNumber locale.decimalSeparator start (c :: rest) = .ok (kind, length) ∧
      kind.Takes locale length (c :: rest)) ∨
    ∃ e, scanNumber locale.decimalSeparator start (c :: rest) = .error e ∧
      e.span.Within (start + (c :: rest).length) := by
  have hpositive := Numeral.length_leading_pos hfirst rest
  have hle := (Numeral.length_leading_le locale.decimalSeparator (c :: rest)).2
  unfold scanNumber
  rcases Numeral.scan_cases locale.decimalSeparator start (c :: rest) with
    hscan | ⟨cause, taken, htaken, hscan⟩
  · rw [hscan]
    dsimp only
    split
    · rename_i value _
      refine .inl ⟨_, _, rfl, hpositive, hle, ?_⟩
      cases value <;> exact Numeral.isCharacter_leading _ _
    · exact .inr ⟨_, rfl, Nat.lt_add_of_pos_right hpositive, Nat.add_le_add_left hle start⟩
  · rw [hscan]
    exact .inr ⟨_, rfl, Span.within_point (Nat.add_lt_add_left htaken start)⟩

theorem scanName_takes {c : Char} (hstart : Text.isNameStart c = true) (rest : List Char) :
    (scanName (c :: rest)).1.Takes locale (scanName (c :: rest)).2 (c :: rest) := by
  have hpart : Text.isNamePart c = true := Text.isNamePart_of_isNameStart hstart
  refine ⟨by simp [scanName, hpart], Numeral.length_takeWhile_le _ _, ?_⟩
  rw [scanName, Numeral.take_length_takeWhile]
  exact ⟨rfl, fun d hd => List.mem_takeWhile_imp hd⟩

theorem takes_one {kind : TokenKind} {c : Char} (h : kind.Spelled locale [c])
    (rest : List Char) : kind.Takes locale 1 (c :: rest) :=
  ⟨Nat.one_pos, by simp, h⟩

theorem takes_two {kind : TokenKind} {c second : Char} (h : kind.Spelled locale [c, second])
    {rest : List Char} (hrest : rest.head? = some second) : kind.Takes locale 2 (c :: rest) := by
  obtain ⟨tail, rfl⟩ := List.head?_eq_some_iff.mp hrest
  exact ⟨Nat.two_pos, by simp, h⟩

theorem scanComparison_takes {plain orEqual : BinaryOperator} {c : Char}
    (hplain : (binary plain).Spelled locale [c])
    (horEqual : (binary orEqual).Spelled locale [c, '=']) (rest : List Char) :
    (scanComparison plain orEqual rest).1.Takes locale (scanComparison plain orEqual rest).2
      (c :: rest) := by
  unfold scanComparison
  split
  · rename_i hrest
    exact takes_two horEqual hrest
  · exact takes_one hplain rest

/-- An operator or a bracket takes the characters it is spelled with; any other character is refused
where it stands. -/
theorem scanSymbol_cases (operandExpected : Bool) (start : Nat) (c : Char) (rest : List Char) :
    (∃ kind length, scanSymbol operandExpected start c rest = .ok (kind, length) ∧
      kind.Takes locale length (c :: rest)) ∨
    ∃ cause, scanSymbol operandExpected start c rest = .error ⟨cause, Span.point start⟩ := by
  have hpair : ∀ {first second : Char} {op : BinaryOperator},
      (binary op).Spelled locale [first, second] →
      (∃ kind length, scanPair start first second op rest = .ok (kind, length) ∧
        kind.Takes locale length (first :: rest)) ∨
      ∃ cause, scanPair start first second op rest = .error ⟨cause, Span.point start⟩ := by
    intro first second op hspelled
    by_cases hrest : rest.head? = some second
    · exact .inl ⟨_, _, if_pos hrest, takes_two hspelled hrest⟩
    · exact .inr ⟨_, if_neg hrest⟩
  unfold scanSymbol
  split
  case h_1 | h_2 =>
    refine .inl ⟨_, _, rfl, takes_one ?_ rest⟩
    rfl
  case h_3 =>
    refine .inl ⟨_, _, rfl, takes_one ?_ rest⟩
    split
    · rfl
    · exact .inl rfl
  case h_12 => exact .inl ⟨_, _, rfl, scanComparison_takes (.inl rfl) (.inr rfl) rest⟩
  case h_13 => exact .inl ⟨_, _, rfl, scanComparison_takes (.inl rfl) (.inr rfl) rest⟩
  case h_14 | h_15 | h_16 | h_17 => exact hpair (.inr rfl)
  case h_18 => exact .inr ⟨_, rfl⟩
  all_goals
    refine .inl ⟨_, _, rfl, takes_one ?_ rest⟩
    exact .inl rfl

/-- All that a step of the scanner can do where a token must start: take characters of the text for
a token, or refuse a stretch of it. -/
theorem scan_cases (locale : Locale) (operandExpected : Bool) (start : Nat) (c : Char)
    (rest : List Char) :
    (∃ kind length, scan locale operandExpected start c rest = .ok (kind, length) ∧
      kind.Takes locale length (c :: rest)) ∨
    ∃ e, scan locale operandExpected start c rest = .error e ∧
      e.span.Within (start + (c :: rest).length) := by
  unfold scan
  split
  · rename_i hfirst
    have hfirst : c.isDigit = true ∨ c = locale.decimalSeparator := by simpa using hfirst
    exact scanNumber_cases start hfirst rest
  · split
    · rename_i hstart
      exact .inl ⟨_, _, rfl, scanName_takes hstart rest⟩
    · split
      · rename_i hseparator
        refine .inl ⟨_, _, rfl, takes_one ?_ rest⟩
        exact congrArg (· :: []) (beq_iff_eq.mp hseparator)
      · rcases scanSymbol_cases operandExpected start c rest with htaken | ⟨cause, hrefused⟩
        · exact .inl htaken
        · exact .inr ⟨_, hrefused, Span.within_point (by simp)⟩

end TokenKind

namespace Token

/-- From tokens that cover what was read, scanning the rest gets to tokens that cover all of it, or
refuses a stretch of it. -/
theorem scanFrom_cases (locale : Locale) (before : List Char) (operandExpected : Bool)
    {done : List Token} (hdone : Cover locale before done.reverse) (text : List Char) :
    (∃ tokens, scanFrom locale before.length operandExpected done text = .ok tokens ∧
      Cover locale (before ++ text) tokens) ∨
    ∃ e, scanFrom locale before.length operandExpected done text = .error e ∧
      e.span.Within (before ++ text).length := by
  induction hlength : text.length using Nat.strongRecOn
    generalizing before operandExpected done text with
  | _ n ih =>
    cases text with
    | nil =>
      left
      rw [scanFrom, List.append_nil]
      exact ⟨_, rfl, hdone⟩
    | cons c rest =>
      rw [scanFrom]
      by_cases hblank : Text.isBlank c = true
      · have hstep := ih rest.length (by simp [← hlength]) (before ++ [c]) operandExpected
          (hdone.snoc_blank hblank) rest rfl
        rw [List.length_append, List.length_singleton, List.append_assoc,
          List.singleton_append] at hstep
        rwa [if_pos hblank]
      · rw [if_neg hblank]
        rcases TokenKind.scan_cases locale operandExpected before.length c rest with
          ⟨kind, length, hscan, hpositive, hle, hspelled⟩ | ⟨e, hscan, hwithin⟩
        · -- The token takes the first characters; the scanner goes on behind them.
          have hne : (c :: rest).take length ≠ [] := by
            rw [List.ne_nil_iff_length_pos, List.length_take]
            omega
          have hcover := hdone.snoc_token hne hspelled
          have hlexeme : ((c :: rest).take length).length = length := by
            rw [List.length_take, Nat.min_eq_left hle]
          have hdrop : (c :: rest).drop length = rest.drop (length - 1) := by
            obtain ⟨length, rfl⟩ := Nat.exists_eq_succ_of_ne_zero (Nat.ne_of_gt hpositive)
            rfl
          rw [hlexeme, ← List.reverse_cons] at hcover
          have hstep := ih (rest.drop (length - 1)).length
            (by simp only [← hlength, List.length_drop, List.length_cons]; omega)
            (before ++ (c :: rest).take length) kind.expectsOperand hcover
            (rest.drop (length - 1)) rfl
          rw [List.append_assoc, ← hdrop, List.take_append_drop, List.length_append, hlexeme,
            hdrop] at hstep
          simp only [hscan]
          exact hstep
        · right
          simp only [hscan]
          exact ⟨e, rfl, by rwa [List.length_append]⟩

theorem scanFrom_of_isBlankText (locale : Locale) (position : Nat) (operandExpected : Bool)
    (done : List Token) {text : List Char} (h : Text.isBlankText text = true) :
    scanFrom locale position operandExpected done text = .ok done.reverse := by
  induction text generalizing position with
  | nil => rw [scanFrom]
  | cons c rest ih =>
    obtain ⟨hblank, hrest⟩ := Bool.and_eq_true_iff.mp h
    rw [scanFrom, if_pos hblank, ih _ hrest]

theorem scan_cases (locale : Locale) (text : List Char) :
    (∃ tokens, scan locale text = .ok tokens ∧ Cover locale text tokens) ∨
      ∃ e, scan locale text = .error e ∧ e.span.Within text.length :=
  have hdone : Cover locale [] ([] : List Token).reverse := .nil
  scanFrom_cases locale [] true hdone text

theorem cover_of_scan {locale : Locale} {text : List Char} {tokens : List Token}
    (h : scan locale text = .ok tokens) : Cover locale text tokens := by
  rcases scan_cases locale text with ⟨tokens', hscan, hcover⟩ | ⟨e, hscan, -⟩
  · rwa [Except.ok.inj (h.symm.trans hscan)]
  · cases h.symm.trans hscan

/-- Every text has tokens that cover it, none of them only if it is blank, or it is refused at a
stretch of it that is not empty. -/
theorem scan_covers_text (locale : Locale) (text : List Char) :
    (∃ tokens, scan locale text = .ok tokens ∧ Cover locale text tokens ∧
      (tokens = [] ↔ Text.isBlankText text = true)) ∨
    ∃ e, scan locale text = .error e ∧ e.span.Within text.length ∧
      Text.isBlankText text = false := by
  have hblank : Text.isBlankText text = true → scan locale text = .ok [] :=
    fun h => scanFrom_of_isBlankText locale 0 true [] h
  rcases scan_cases locale text with ⟨tokens, hscan, hcover⟩ | ⟨e, hscan, hwithin⟩
  · refine .inl ⟨tokens, hscan, hcover, hcover.isBlankText, fun h => ?_⟩
    exact Except.ok.inj (hscan.symm.trans (hblank h))
  · refine .inr ⟨e, hscan, hwithin, Bool.eq_false_iff.mpr fun h => ?_⟩
    cases hscan.symm.trans (hblank h)

/-- A blank decimal mark may stand inside a number; any other blank is left out, even if it is the
separator. -/
example : (scan ⟨' ', '\t'⟩ " 1 5\tx".toList).toOption.map (List.map span) =
    some [⟨1, 4⟩, ⟨5, 6⟩] := by decide +kernel

end Token

end FormulaEngine
