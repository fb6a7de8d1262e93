import FormulaEngine.Proofs.AssemblyRefusals
import FormulaEngine.Proofs.CacheKeys
import FormulaEngine.Proofs.NumeralLanguage
import FormulaEngine.Proofs.Registrations

/-!
Where an error stands. A formula that is not read is refused at a stretch of its text, and the
position in the message is the start of that stretch, wherever the message names a position. For a
message names one only where its own words do: what it quotes is a single character, or has no
blank in it.
-/
namespace FormulaEngine

open Decimal

namespace ParseError

/-- The words of a message before a position. -/
def phrase : List Char := "at position ".toList

/-- Whether a text names the given position wherever it names one. -/
def Names (position : Nat) (text : List Char) : Prop :=
  ∀ before after, text = before ++ phrase ++ after →
    after.takeWhile Char.isDigit = (toString position).toList

/-- Whether a text names no position. -/
def NamesNone (text : List Char) : Prop := ¬phrase <:+: text

instance (text : List Char) : Decidable (NamesNone text) := inferInstanceAs (Decidable (¬_))

section Phrases

variable {text text' : List Char}

theorem NamesNone.names (h : NamesNone text) (position : Nat) : Names position text :=
  fun before after htext => (h ⟨before, after, htext.symm⟩).elim

theorem NamesNone.of_isInfix (h : NamesNone text) (hin : text' <:+: text) : NamesNone text' :=
  fun hphrase => h (hphrase.trans hin)

theorem namesNone_of_blank (h : ' ' ∉ text) : NamesNone text :=
  fun hphrase => h (hphrase.mem (by decide))

theorem namesNone_of_length (h : text.length < phrase.length) : NamesNone text :=
  fun hphrase => absurd hphrase.length_le (Nat.not_le_of_lt h)

/-- A character that is not in the phrase keeps what stands before it and behind it apart. -/
theorem phrase_cases {c : Char} (hc : c ∉ phrase) {before after : List Char}
    (h : text ++ c :: text' = before ++ phrase ++ after) :
    (∃ rest, text = before ++ phrase ++ rest ∧ after = rest ++ c :: text') ∨
      ∃ rest, text' = rest ++ phrase ++ after := by
  rcases List.append_eq_append_iff.mp h with ⟨behind, hbefore, htext'⟩ | ⟨behind, htext, hafter⟩
  · cases behind with
    | nil => exact .inl ⟨[], by simpa using hbefore.symm, by simpa using htext'.symm⟩
    | cons d behind =>
      obtain ⟨rfl, rfl⟩ := List.cons.inj htext'
      -- The character is not in the phrase, so the phrase starts behind it.
      rcases List.append_eq_append_iff.mp hbefore with ⟨rest, -, hphrase⟩ | ⟨rest, -, hrest⟩
      · exact (hc (by rw [hphrase]; exact List.mem_append_right _ List.mem_cons_self)).elim
      · cases rest with
        | nil =>
          rw [List.nil_append] at hrest
          exact (hc (hrest ▸ List.mem_cons_self)).elim
        | cons d rest =>
          obtain rfl := (List.cons.inj hrest).2
          exact .inr ⟨rest, rfl⟩
  · exact .inl ⟨behind, htext, hafter⟩

/-- Whether two texts meet at a character that is not in the phrase. -/
def Apart (text text' : List Char) : Prop :=
  (∃ c ∈ text.getLast?, c ∉ phrase) ∨ ∃ c ∈ text'.head?, c ∉ phrase

theorem NamesNone.append (h : NamesNone text) (h' : NamesNone text') (hapart : Apart text text') :
    NamesNone (text ++ text') := by
  rintro ⟨before, after, hphrase⟩
  rcases hapart with ⟨c, hlast, hc⟩ | ⟨c, hfirst, hc⟩
  · obtain ⟨front, rfl⟩ := List.getLast?_eq_some_iff.mp hlast
    rw [List.append_assoc front, List.singleton_append] at hphrase
    rcases phrase_cases hc hphrase.symm with ⟨rest, rfl, -⟩ | ⟨rest, rfl⟩
    · exact h ⟨before, rest ++ [c], by simp⟩
    · exact h' ⟨rest, after, rfl⟩
  · obtain ⟨rest', rfl⟩ := List.head?_eq_some_iff.mp hfirst
    rcases phrase_cases hc hphrase.symm with ⟨rest, rfl, -⟩ | ⟨rest, rfl⟩
    · exact h ⟨before, rest, rfl⟩
    · exact h' ⟨c :: rest, after, by simp⟩

theorem blank_not_mem_digits {digits : List Char} (h : ∀ c ∈ digits, c.isDigit = true) :
    ' ' ∉ digits :=
  fun hmem => absurd (h ' ' hmem) (by decide)

end Phrases

section Messages

theorem isDigit_of_mem_toString {n : Nat} :
    ∀ c ∈ (toString n).toList, c.isDigit = true := by
  rw [Nat.toString_eq_repr, Nat.toList_repr]
  exact fun c hc => Notation.isDigit_of_mem_toDigits hc

theorem not_mem_phrase {c : Char} (h : c.isDigit = true) : c ∉ phrase := by
  have hnone : ∀ c ∈ phrase, c.isDigit = false := by
    unfold phrase
    simp
  intro hmem
  rw [hnone c hmem] at h
  cases h

theorem exists_toString_eq_cons (n : Nat) : ∃ d digits, (toString n).toList = d :: digits := by
  rw [Nat.toString_eq_repr, Nat.toList_repr]
  exact List.exists_cons_of_ne_nil Nat.toDigits_ne_nil

/-- A number keeps what stands before it and behind it apart. -/
theorem NamesNone.append_number {lead tail : List Char} (h : NamesNone lead) (n : Nat)
    (htail : NamesNone tail) : NamesNone (lead ++ (toString n).toList ++ tail) := by
  have hdigits := isDigit_of_mem_toString (n := n)
  obtain ⟨d, digits, hnumber⟩ := exists_toString_eq_cons n
  rw [hnumber] at hdigits ⊢
  have hd : d ∉ phrase := not_mem_phrase (hdigits d List.mem_cons_self)
  have hlast := (d :: digits).getLast_mem (List.cons_ne_nil d digits)
  rw [List.append_assoc]
  refine h.append ((namesNone_of_blank (blank_not_mem_digits hdigits)).append htail ?_) (.inr ⟨d, rfl, hd⟩)
  exact .inl ⟨_, List.getLast?_eq_getLast_of_ne_nil _, not_mem_phrase (hdigits _ hlast)⟩

/-- A message with one position in it, before which its words name none but at their end. -/
theorem names_of_lead {lead tail : List Char} (position : Nat) (hlead : NamesNone lead.dropLast)
    (htail : NamesNone tail) (hend : ∀ c ∈ tail.head?, c.isDigit = false) :
    Names position (lead ++ (toString position).toList ++ tail) := by
  intro before after htext
  have hbehind : NamesNone ([] ++ (toString position).toList ++ tail) :=
    NamesNone.append_number (by decide +kernel) position htail
  have hdigits := isDigit_of_mem_toString (n := position)
  obtain ⟨d, digits, hposition⟩ := exists_toString_eq_cons position
  rw [hposition, List.append_assoc, List.cons_append] at htext
  rw [hposition] at hbehind hdigits ⊢
  rcases phrase_cases (not_mem_phrase (hdigits d List.mem_cons_self)) htext with
    ⟨rest, rfl, rfl⟩ | ⟨rest, hrest⟩
  · -- If anything stood between the phrase and the position, the phrase would be there before.
    have hnil : rest = [] := by
      by_contra hne
      refine hlead ⟨before, rest.dropLast, ?_⟩
      rw [List.dropLast_append_of_ne_nil hne]
    subst hnil
    rw [List.nil_append, ← List.cons_append]
    exact takeWhile_append hdigits hend
  · refine (hbehind ⟨d :: rest, after, ?_⟩).elim
    rw [List.nil_append, List.cons_append, List.cons_append, List.cons_append, hrest]

/-- Whether what is quoted is too short to name a position, or has no blank in it. -/
def Quotable (text : List Char) : Prop := text.length ≤ 2 ∨ ' ' ∉ text

theorem Quotable.namesNone {text : List Char} (h : Quotable text) : NamesNone text := by
  rcases h with hshort | hblank
  · refine namesNone_of_length (Nat.lt_of_le_of_lt hshort ?_)
    decide +kernel
  · exact namesNone_of_blank hblank

/-- Quotation marks keep what is quoted apart from the words of a message. -/
theorem namesNone_quoting {lead quoted tail : List Char} (hlead : NamesNone lead)
    (hopen : lead.getLast? = some '"') (hquoted : Quotable quoted) (htail : NamesNone tail)
    (hclose : tail.head? = some '"') : NamesNone (lead ++ quoted ++ tail) := by
  have hmark : '"' ∉ phrase := by decide +kernel
  refine (hlead.append hquoted.namesNone (.inl ⟨'"', hopen, hmark⟩)).append htail ?_
  exact .inr ⟨'"', hclose, hmark⟩

/-- What a message is made of: words that end with a position if there is one, the position, and
words that name none, also if a blank follows. -/
inductive Worded (position : Nat) : List Char → Prop
  | none {text : List Char} (h : NamesNone (text ++ [' '])) : Worded position text
  | once {lead tail : List Char} (hlead : NamesNone lead.dropLast)
      (htail : NamesNone (tail ++ [' '])) (hend : tail.head?.all fun c => !c.isDigit) :
      Worded position (lead ++ (toString position).toList ++ tail)

variable {position : Nat} {lead quoted words tail : List Char}

theorem Worded.last (hlead : NamesNone lead.dropLast) :
    Worded position (lead ++ (toString position).toList) := by
  have htail : NamesNone ([] ++ [' ']) := by decide +kernel
  have honce : Worded position _ := .once hlead htail rfl
  rwa [List.append_nil] at honce

theorem namesNone_lead (hlead : NamesNone lead) (hopen : lead.getLast? = some '"')
    (hquoted : Quotable quoted) (hwords : NamesNone words.dropLast)
    (hclose : words.dropLast.head? = some '"') : NamesNone (lead ++ quoted ++ words).dropLast := by
  have hne : words ≠ [] := by
    rintro rfl
    cases hclose
  rw [List.dropLast_append_of_ne_nil hne]
  exact namesNone_quoting hlead hopen hquoted hwords hclose

theorem toString_text (text : String) : toString text = text := rfl

theorem toString_char (c : Char) : (toString c).toList = [c] := String.toList_singleton c

theorem blank_not_mem_toString (n : Int) : ' ' ∉ (toString n).toList := by
  rw [Int.toString_eq_repr]
  cases n with
  | ofNat n => exact blank_not_mem_digits (isDigit_of_mem_toString (n := n))
  | negSucc n =>
    have hdigits := blank_not_mem_digits (isDigit_of_mem_toString (n := n.succ))
    change ' ' ∉ ("-" ++ toString n.succ).toList
    rw [String.toList_append, List.mem_append, not_or]
    exact ⟨by decide +kernel, hdigits⟩

theorem blank_not_mem_plain (x : Float) :
    ' ' ∉ (String.ofList (Notation.plain.text x)).toList := by
  rw [String.toList_ofList]
  intro hmem
  rcases Notation.isPlain_text x ' ' hmem with hdigit | hother
  · cases hdigit
  · revert hother
    decide

theorem worded_message {cause : Cause} (h : cause.Possible) (position : Nat) :
    Worded position (cause.message position).toList := by
  have hone : ∀ c : Char, Quotable [c] := fun c => .inl (Nat.le_succ 1)
  unfold Cause.message
  cases cause <;> simp only [String.toList_append, toString_text, toString_char]
  case noOperands | noArgumentList => exact h.elim
  case emptyFormula =>
    refine .none ?_
    decide +kernel
  case unexpectedCharacter c =>
    refine .last (namesNone_lead ?_ ?_ (hone c) ?_ ?_) <;> decide +kernel
  case incompleteOperator c expected =>
    have htail : NamesNone ("; expected \"".toList ++ [c, expected] ++ ("\"".toList ++ [' '])) := by
      refine namesNone_quoting ?_ ?_ (.inl (Nat.le_refl 2)) ?_ ?_ <;> decide +kernel
    have hlead : NamesNone ("Invalid token \"".toList ++ [c] ++
        "\" detected at position ".toList).dropLast := by
      refine namesNone_lead ?_ ?_ (hone c) ?_ ?_ <;> decide +kernel
    rw [← List.append_assoc] at htail
    have honce : Worded position _ := .once hlead htail (by simp)
    simpa only [List.append_assoc, List.cons_append, List.nil_append] using honce
  case secondExponent c =>
    rw [List.append_assoc (_ ++ _)]
    refine .once (namesNone_lead ?_ ?_ (hone c) ?_ ?_) ?_ ?_ <;> decide +kernel
  case badNumeral text =>
    refine .last (namesNone_lead ?_ ?_ (.inr h) ?_ ?_) <;> decide +kernel
  case functionWithoutArguments name | missingArgument name | breakdown name =>
    refine .once (namesNone_lead ?_ ?_ (.inr h) ?_ ?_) ?_ ?_ <;> decide +kernel
  case emptyBrackets | missingLeftBracket | missingRightBracket | leftoverOperand =>
    refine .last ?_
    decide +kernel
  case unexpectedSeparator =>
    rw [List.append_assoc (_ ++ _)]
    refine .once ?_ ?_ ?_ <;> decide +kernel
  case missingOperand symbol =>
    refine .once (namesNone_lead ?_ ?_ (hone symbol) ?_ ?_) ?_ ?_ <;> decide +kernel
  case argumentCount name arity supplied =>
    have hcounts : NamesNone (" expects ".toList ++ (toString arity).toList ++
        (" argument(s) ".toList ++ "but ".toList ++ (toString supplied).toList ++
          (" were supplied".toList ++ [' ']))) := by
      refine .append_number ?_ arity (.append_number ?_ supplied ?_) <;> decide +kernel
    have hlead : NamesNone ("The function \"".toList ++ name.toList ++
        "\" at position ".toList).dropLast := by
      refine namesNone_lead ?_ ?_ (.inr h) ?_ ?_ <;> decide +kernel
    simp only [← List.append_assoc] at hcounts
    have honce : Worded position _ := .once hlead hcounts (by simp)
    simpa only [List.append_assoc] using honce
  case leftoverInteger value =>
    refine .last (namesNone_lead ?_ ?_ (.inr (blank_not_mem_toString _)) ?_ ?_) <;> decide +kernel
  case leftoverFloat value =>
    refine .last (namesNone_lead ?_ ?_ (.inr (blank_not_mem_plain value)) ?_ ?_) <;> decide +kernel

theorem Worded.names {text : List Char} (h : Worded position text) : Names position text := by
  cases h with
  | none h => exact (h.of_isInfix (List.prefix_append _ _).isInfix).names position
  | once hlead htail hend =>
    refine names_of_lead position hlead (htail.of_isInfix (List.prefix_append _ _).isInfix) ?_
    intro c hc
    rw [Option.mem_def.mp hc] at hend
    simpa using hend

/-- A remark in brackets may follow a message. -/
theorem Worded.append {text remark : List Char} (h : Worded position text)
    (hremark : NamesNone (remark ++ [' '])) (hopen : remark.head? = some '(') :
    Worded position (text ++ ' ' :: remark) := by
  have hopen' : (remark ++ [' ']).head? = some '(' := by
    rw [List.head?_append, hopen]
    rfl
  have hafter : ∀ {text : List Char}, NamesNone (text ++ [' ']) →
      NamesNone (text ++ ' ' :: remark ++ [' ']) := by
    intro text htext
    have hboth := htext.append hremark (.inr ⟨'(', hopen', by decide +kernel⟩)
    rwa [List.append_assoc, List.singleton_append, ← List.cons_append, ← List.append_assoc] at hboth
  cases h with
  | none h => exact .none (hafter h)
  | @once lead tail hlead htail hend =>
    rw [List.append_assoc]
    refine .once hlead (hafter htail) ?_
    cases tail with
    | nil => rfl
    | cons c tail => exact hend

/-- A message names no position but the start of the stretch that it is about. -/
theorem names_message {e : ParseError} (h : e.cause.Possible) :
    Names e.span.start (e.cause.message e.span.start).toList ∧
      Names e.span.start e.message.toList := by
  have hworded := worded_message h e.span.start
  refine ⟨hworded.names, ?_⟩
  have hremark : NamesNone ("(at ".toList ++ (toString e.span.start).toList ++
      ("..".toList ++ (toString e.span.stop).toList ++ (")".toList ++ [' ']))) := by
    refine .append_number ?_ _ (.append_number ?_ _ ?_) <;> decide +kernel
  simp only [← List.append_assoc] at hremark
  have hmessage := (hworded.append hremark (by simp)).names
  unfold message
  simp only [String.toList_append, toString_text]
  simpa using hmessage

end Messages

end ParseError

open ParseError

namespace TokenKind

theorem blank_not_mem_numeral {n : Numeral} (h : n.Proper) : ' ' ∉ n.text := by
  obtain ⟨whole, fraction, exponent⟩ := n
  obtain ⟨hwhole, hfraction, hexponent⟩ := h
  rw [Numeral.text_eq, List.mem_append, List.mem_append, not_or, not_or]
  refine ⟨⟨blank_not_mem_digits hwhole, ?_⟩, ?_⟩
  · cases fraction with
    | none => exact List.not_mem_nil
    | some digits =>
      rw [Numeral.fractionText, List.mem_cons, not_or]
      exact ⟨by decide, blank_not_mem_digits (hfraction digits rfl)⟩
  · rcases exponent with _ | ⟨sign, digits⟩
    · exact List.not_mem_nil
    · obtain ⟨-, hdigits, hsign⟩ := hexponent sign digits rfl
      rw [Numeral.exponentText, List.mem_cons, List.mem_append, not_or, not_or]
      refine ⟨by decide, fun hmem => ?_, blank_not_mem_digits hdigits⟩
      rcases hsign ' ' (Option.mem_toList.mp hmem) with heq | heq <;> cases heq

/-- The scanner complains of characters and of numerals only. -/
theorem possible_of_scan {locale : Locale} {operandExpected : Bool} {start : Nat} {c : Char}
    {rest : List Char} {e : ParseError}
    (h : scan locale operandExpected start c rest = .error e) :
    e.cause.Possible ∧ e.cause ≠ .missingLeftBracket := by
  have hnumeral : ∀ {mark text}, Numeral.scan mark start text = .error e →
      e.cause.Possible ∧ e.cause ≠ .missingLeftBracket := by
    intro mark text h
    unfold Numeral.scan at h
    dsimp only at h
    split at h
    · cases h
      exact ⟨trivial, nofun⟩
    split at h
    · split at h
      · cases h
        exact ⟨trivial, nofun⟩
      · split at h
        · cases h
          exact ⟨trivial, nofun⟩
        · cases h
    · cases h
  have hnumber : ∀ {mark text}, scanNumber mark start text = .error e →
      e.cause.Possible ∧ e.cause ≠ .missingLeftBracket := by
    intro mark text h
    unfold scanNumber at h
    split at h
    · rename_i e' hscan
      cases h
      exact hnumeral hscan
    · rename_i n hscan
      obtain ⟨rfl, -⟩ := Numeral.scan_eq_ok_iff.mp hscan
      split at h
      · cases h
      · cases h
        refine ⟨?_, nofun⟩
        change ' ' ∉ (String.ofList _).toList
        rw [String.toList_ofList]
        exact blank_not_mem_numeral (Numeral.leading_proper mark text)
  have hsymbol : scanSymbol operandExpected start c rest = .error e →
      e.cause.Possible ∧ e.cause ≠ .missingLeftBracket := by
    intro h
    unfold scanSymbol at h
    split at h
    case h_14 | h_15 | h_16 | h_17 =>
      unfold scanPair at h
      split at h
      · cases h
      · cases h
        exact ⟨trivial, nofun⟩
    case h_18 =>
      cases h
      exact ⟨trivial, nofun⟩
    all_goals cases h
  unfold scan at h
  split at h
  · exact hnumber h
  split at h
  · cases h
  split at h
  · cases h
  · exact hsymbol h

end TokenKind

theorem Token.possible_of_scanFrom {locale : Locale} {position : Nat} {operandExpected : Bool}
    {done : List Token} {text : List Char} {e : ParseError}
    (h : scanFrom locale position operandExpected done text = .error e) :
    e.cause.Possible ∧ e.cause ≠ .missingLeftBracket := by
  fun_induction scanFrom locale position operandExpected done text with
  | case1 => cases h
  | case2 position operandExpected done c rest hblank ih => exact ih h
  | case3 position operandExpected done c rest hblank e' hscan =>
    cases h
    exact TokenKind.possible_of_scan hscan
  | case4 position operandExpected done c rest hblank kind length hscan ih => exact ih h

namespace Tree

/-- A text that is not read is refused for a reason that is in it. -/
theorem parse_blames {locale : Locale} {v : Vocabulary}
    (hnamed : ∀ name callee, v.function? name = some callee → Text.isName callee.name = true)
    {text : String} (hne : text ≠ "") {e : ParseError} (h : parse locale v text = .error e) :
    ∃ tokens, (∀ token ∈ tokens, token.kind.Spelled locale (token.span.cut text.toList)) ∧
      Assembly.Blames text.toList.length tokens e := by
  unfold parse readFormula at h
  split at h
  · rename_i e' hscan
    cases h
    obtain ⟨hpossible, hbracket⟩ := Token.possible_of_scanFrom hscan
    rcases Token.scan_cases locale text.toList with ⟨tokens, hscan', -⟩ | ⟨e', hscan', hwithin⟩
    · cases hscan.symm.trans hscan'
    · cases hscan.symm.trans hscan'
      exact ⟨[], nofun, hpossible, hwithin, fun heq => absurd heq hbracket⟩
  · cases h
    have hlength : 0 < text.toList.length :=
      List.length_pos_iff.mpr fun hnil => hne (String.toList_eq_nil_iff.mp hnil)
    exact ⟨[], nofun, trivial, ⟨hlength, Nat.le_refl _⟩, nofun⟩
  · rename_i tokens htokens hscan
    have hcover := Token.cover_of_scan hscan
    exact ⟨tokens, hcover.spelled, ofTokens_blames hnamed hcover htokens h⟩

/-- Whatever has been registered, a text that is not read is refused at a stretch of it, which is
empty only if the text is; the message names the start of that stretch where it names a position;
and two complaints are never made, a third only of a right bracket that is there. -/
theorem parse_error_placed {σ : Type} (locale : Locale)
    (functionCase constantCase caseSensitive : Bool) (functions : List (Function σ))
    (constants : List Constant) (text : String) {e : ParseError}
    (h : parse locale (.ofTables ((Table.empty functionCase).attemptAll functions)
      ((Table.empty constantCase).attemptAll constants) caseSensitive) text = .error e) :
    (e.span.start ≤ e.span.stop ∧ e.span.stop ≤ text.toList.length) ∧
      (text ≠ "" → e.span.start < e.span.stop) ∧
      (Names e.span.start (e.cause.message e.span.start).toList ∧
        Names e.span.start e.message.toList) ∧
      e.cause ≠ .noOperands ∧ (∀ name, e.cause ≠ .noArgumentList name) ∧
      (e.cause = .missingLeftBracket → e.span.cut text.toList = [')']) := by
  have hnamed : ∀ name callee,
      (Vocabulary.ofTables ((Table.empty functionCase).attemptAll functions)
        ((Table.empty constantCase).attemptAll constants) caseSensitive).function? name =
          some callee → Text.isName callee.name = true := by
    intro name callee hcallee
    obtain ⟨f, hget, rfl⟩ := Option.map_eq_some_iff.mp hcallee
    exact (Table.named_empty functionCase).attemptAll functions name f hget
  by_cases hempty : text = ""
  · subst hempty
    have hscan : Token.scan locale "".toList = .ok [] :=
      Token.scanFrom_of_isBlankText locale 0 true [] rfl
    unfold parse readFormula at h
    rw [hscan] at h
    cases h
    exact ⟨⟨Nat.zero_le _, Nat.le_refl _⟩, fun hne => absurd rfl hne, names_message trivial,
      nofun, nofun, nofun⟩
  · obtain ⟨tokens, hspelled, hpossible, hwithin, hbracket⟩ := parse_blames hnamed hempty h
    refine ⟨⟨Nat.le_of_lt hwithin.nonempty, hwithin.inside⟩, fun _ => hwithin.nonempty,
      names_message hpossible, fun heq => ?_, fun name heq => ?_,
      fun heq => hspelled _ (hbracket heq)⟩
    · rw [heq] at hpossible
      exact hpossible
    · rw [heq] at hpossible
      exact hpossible

/-- The message quotes a function by the name of `position`, and names the position of that. -/
theorem parse_error_placed_count :
    let position : Function Unit := ⟨⟨"position", some 1, true, true⟩, .random⟩
    let v := Vocabulary.ofTables ((Table.empty true).attemptAll [position])
      ((Table.empty true).attemptAll []) true
    let e : ParseError := ⟨.argumentCount "position" 1 2, ⟨1, 9⟩⟩
    parse .enUs v " position(1, 2)" = .error e ∧ e.span.stop ≤ " position(1, 2)".toList.length ∧
      Names 1 e.message.toList := by
  intro position v e
  have hparse : parse .enUs v " position(1, 2)" = .error e := by
    cbv
  obtain ⟨⟨-, hinside⟩, -, ⟨-, hnames⟩, -⟩ :=
    parse_error_placed .enUs true true true [position] [] " position(1, 2)" hparse
  exact ⟨hparse, hinside, hnames⟩

end Tree

end FormulaEngine
