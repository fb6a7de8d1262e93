import FormulaEngine.Proofs.Scanning
import FormulaEngine.Tree.Assembly

/-!
Texts that are spelled another way. A respelling takes each character to another one, and each name
to the name that it becomes. If it leaves digits, operators and brackets alone, and takes the
punctuation of one locale to that of another, then scanning and parsing commute with it: the tokens
of the new text are those of the old one with their names respelled, at the same places, and a text
that is refused is refused for the same reason at the same place.
-/
namespace FormulaEngine

open Decimal

/-- The characters of brackets and operators. -/
def TokenKind.symbols : List Char :=
  '(' :: ')' :: BinaryOperator.all.flatMap fun op => op.symbol :: op.spelling.toList

def TokenKind.isSymbol (c : Char) : Bool := symbols.contains c

theorem TokenKind.scanSymbol_of_not_isSymbol {c : Char} (h : isSymbol c = false)
    (operandExpected : Bool) (start : Nat) (rest : List Char) :
    scanSymbol operandExpected start c rest = .error ⟨.unexpectedCharacter c, Span.point start⟩ := by
  unfold scanSymbol
  split
  case h_18 => rfl
  all_goals exact absurd h (by decide)

/-- A way to spell texts: what each character becomes, and each name. -/
structure Respelling where
  char : Char → Char
  name : String → String

namespace Respelling

variable (r : Respelling)

def kind : TokenKind → TokenKind
  | .name text => .name (r.name text)
  | kind => kind

def token (t : Token) : Token := { t with kind := r.kind t.kind }

/-- A complaint about a character or a function name becomes one about what that is respelled to.
Numerals are quoted in one spelling whatever the text has. -/
def cause : ParseError.Cause → ParseError.Cause
  | .unexpectedCharacter c => .unexpectedCharacter (r.char c)
  | .secondExponent c => .secondExponent (r.char c)
  | .functionWithoutArguments name => .functionWithoutArguments (r.name name)
  | cause => cause

def error (e : ParseError) : ParseError := { e with cause := r.cause e.cause }

theorem mapError_ok {α : Type} (x : α) : (Except.ok x).mapError r.error = .ok x := rfl

theorem mapError_error {α : Type} (e : ParseError) :
    (Except.error e : Except ParseError α).mapError r.error = .error (r.error e) := rfl

theorem mapError_span {α : Type} (result : Except ParseError α) :
    (result.mapError r.error).mapError ParseError.span = result.mapError ParseError.span := by
  cases result <;> rfl

/-- Whether a respelling takes texts in the punctuation of one locale to texts in that of another,
and changes nothing else in them that the scanner looks at. -/
structure Fits (L L' : Locale) : Prop where
  isBlank : ∀ c, Text.isBlank (r.char c) = Text.isBlank c
  decimal : ∀ c, r.char c = L'.decimalSeparator ↔ c = L.decimalSeparator
  argument : ∀ c, r.char c = L'.argumentSeparator ↔ c = L.argumentSeparator
  isNameStart : ∀ c, Text.isNameStart (r.char c) = Text.isNameStart c
  isNamePart : ∀ c, Text.isNamePart (r.char c) = Text.isNamePart c
  isExponentMark : ∀ c, Numeral.isExponentMark (r.char c) = Numeral.isExponentMark c
  fixed : ∀ c, c.isDigit = true ∨ TokenKind.isSymbol c = true → r.char c = c
  isDigit : ∀ c, (r.char c).isDigit = c.isDigit
  isSymbol : ∀ c, TokenKind.isSymbol (r.char c) = TokenKind.isSymbol c
  name : ∀ text, (∀ c ∈ text, Text.isNamePart c = true) →
    String.ofList (text.map r.char) = r.name (String.ofList text)

theorem expectsOperand_kind (kind : TokenKind) :
    (r.kind kind).expectsOperand = kind.expectsOperand := by
  cases kind <;> rfl

theorem isLeftBracket_kind (kind : TokenKind) :
    (r.kind kind).isLeftBracket = kind.isLeftBracket := by
  cases kind <;> rfl

theorem startsWithLeftBracket_map (tokens : List Token) :
    Assembly.startsWithLeftBracket (tokens.map r.token) =
      Assembly.startsWithLeftBracket tokens := by
  cases tokens with
  | nil => rfl
  | cons token rest => exact r.isLeftBracket_kind token.kind

section Assemblies

/-- Whether a respelling changes no complaint that a result may be. -/
def Keeps {α : Type} (result : Except ParseError α) : Prop := result.mapError r.error = result

variable {r} in
/-- A complaint that is passed on is kept as it was. -/
theorem Keeps.next {α β : Type} {result : Except ParseError α} (h : r.Keeps result)
    {outcome : Except ParseError β} (herror : ∀ e, result = .error e → outcome = .error e)
    (hok : ∀ x, result = .ok x → r.Keeps outcome) : r.Keeps outcome := by
  cases result with
  | error e =>
    rw [herror e rfl]
    exact congrArg Except.error (Except.error.inj h)
  | ok x => exact hok x rfl

theorem keeps_applyOperator (op : Operator) (span : Span) (a : Assembly) :
    r.Keeps (a.applyOperator op span) := by
  unfold Assembly.applyOperator
  split <;> rfl

theorem keeps_applyCall (callee : Signature) (span : Span) (a : Assembly) :
    r.Keeps (a.applyCall callee span) := by
  unfold Assembly.applyCall
  split
  · rfl
  split
  · rfl
  split
  · rfl
  split <;> rfl

theorem keeps_apply (item : Waiting) (a : Assembly) : r.Keeps (a.apply item) := by
  cases item with
  | operator op span => exact r.keeps_applyOperator op span a
  | function callee span => exact r.keeps_applyCall callee span a
  | leftBracket span => rfl

theorem keeps_applyWhile (ready : Waiting → Bool) (items : List Waiting) (a : Assembly) :
    r.Keeps (Assembly.applyWhile ready items a) := by
  induction items generalizing a with
  | nil => rfl
  | cons item items ih =>
    rw [Assembly.applyWhile]
    split
    · refine (r.keeps_apply item a).next (fun e he => by rw [he]) fun b hb => ?_
      rw [hb]
      exact ih b
    · rfl

theorem keeps_closeGroup (a : Assembly) : r.Keeps a.closeGroup := r.keeps_applyWhile _ _ a

theorem keeps_addOperator (op : Operator) (span : Span) (a : Assembly) :
    r.Keeps (a.addOperator op span) := by
  unfold Assembly.addOperator
  refine (r.keeps_applyWhile _ _ a).next (fun e he => by rw [he]) fun b hb => ?_
  rw [hb]
  rfl

theorem keeps_addSeparator (span : Span) (a : Assembly) : r.Keeps (a.addSeparator span) := by
  unfold Assembly.addSeparator
  refine (r.keeps_closeGroup a).next (fun e he => by rw [he]) fun b hb => ?_
  rw [hb]
  dsimp only
  split <;> rfl

theorem keeps_addRightBracket (afterLeftBracket : Bool) (span : Span) (a : Assembly) :
    r.Keeps (a.addRightBracket afterLeftBracket span) := by
  unfold Assembly.addRightBracket
  split
  · rfl
  · refine (r.keeps_closeGroup _).next (fun e he => by rw [he]) fun b hb => ?_
    rw [hb]
    dsimp only
    split <;> rfl

theorem keeps_finish (a : Assembly) : r.Keeps a.finish := by
  unfold Assembly.finish
  refine (r.keeps_closeGroup a).next (fun e he => by rw [he]) fun b hb => ?_
  rw [hb]
  dsimp only
  split
  · rfl
  split
  · rfl
  · rfl
  · unfold Assembly.leftover
    split <;> rfl

/-- Whether a vocabulary makes no difference between a name and the name that it becomes. -/
structure Respects (v : Vocabulary) : Prop where
  function? : ∀ name, v.function? (r.name name) = v.function? name
  constant? : ∀ name, v.constant? (r.name name) = v.constant? name
  variableName : ∀ name, v.variableName (r.name name) = v.variableName name

variable {r} {v : Vocabulary} (hv : r.Respects v)
include hv

theorem Respects.addName (a : Assembly) (name : String) (beforeLeftBracket : Bool) (span : Span) :
    a.addName v (r.name name) beforeLeftBracket span =
      (a.addName v name beforeLeftBracket span).mapError r.error := by
  unfold Assembly.addName
  rw [hv.function?, hv.constant?, hv.variableName]
  split
  · split <;> rfl
  · split <;> rfl

theorem Respects.add (afterLeftBracket beforeLeftBracket : Bool) (token : Token) (a : Assembly) :
    a.add v afterLeftBracket beforeLeftBracket (r.token token) =
      (a.add v afterLeftBracket beforeLeftBracket token).mapError r.error := by
  obtain ⟨kind, span⟩ := token
  cases kind with
  | integer | float | leftBracket => rfl
  | name name => exact hv.addName a name beforeLeftBracket span
  | operator op => exact (r.keeps_addOperator op span a).symm
  | rightBracket => exact (r.keeps_addRightBracket afterLeftBracket span a).symm
  | separator => exact (r.keeps_addSeparator span a).symm

theorem Respects.addAll (afterLeftBracket : Bool) (tokens : List Token) (a : Assembly) :
    Assembly.addAll v afterLeftBracket (tokens.map r.token) a =
      (Assembly.addAll v afterLeftBracket tokens a).mapError r.error := by
  induction tokens generalizing afterLeftBracket a with
  | nil => rfl
  | cons token rest ih =>
    rw [List.map_cons, Assembly.addAll, Assembly.addAll, startsWithLeftBracket_map, hv.add]
    cases a.add v afterLeftBracket (Assembly.startsWithLeftBracket rest) token with
    | error e => rfl
    | ok b =>
      have hbracket : (r.token token).kind.isLeftBracket = token.kind.isLeftBracket :=
        r.isLeftBracket_kind token.kind
      rw [hbracket]
      exact ih _ b

/-- Respelled tokens make the same tree. -/
theorem Respects.ofTokens (tokens : List Token) :
    Tree.ofTokens v (tokens.map r.token) = (Tree.ofTokens v tokens).mapError r.error := by
  unfold Tree.ofTokens readTokens
  rw [hv.addAll]
  cases Assembly.addAll v false tokens (.empty : Assembly) with
  | error e => rfl
  | ok a => exact (r.keeps_finish a).symm

end Assemblies

variable {r} {L L' : Locale}

theorem takeWhile_map {p : Char → Bool} (h : ∀ c, p (r.char c) = p c) (text : List Char) :
    (text.map r.char).takeWhile p = (text.takeWhile p).map r.char := by
  have hcomp : p ∘ r.char = p := funext h
  rw [List.takeWhile_map, hcomp]

theorem dropWhile_map {p : Char → Bool} (h : ∀ c, p (r.char c) = p c) (text : List Char) :
    (text.map r.char).dropWhile p = (text.dropWhile p).map r.char := by
  have hcomp : p ∘ r.char = p := funext h
  rw [List.dropWhile_map, hcomp]

namespace Fits

variable (h : r.Fits L L')
include h

theorem takeWhile_isDigit (text : List Char) :
    (text.map r.char).takeWhile Char.isDigit = text.takeWhile Char.isDigit := by
  rw [takeWhile_map h.isDigit]
  refine (List.map_congr_left fun c hc => ?_).trans (List.map_id _)
  exact h.fixed c (.inl (List.all_eq_true.mp List.all_takeWhile c hc))

/-- A symbol comes from itself only. -/
theorem char_eq_iff {x : Char} (hx : TokenKind.isSymbol x = true) (c : Char) :
    r.char c = x ↔ c = x := by
  constructor
  · intro hc
    have hsymbol : TokenKind.isSymbol c = true := by rw [← h.isSymbol, hc, hx]
    exact (h.fixed c (.inr hsymbol)).symm.trans hc
  · intro hc
    rw [hc]
    exact h.fixed x (.inr hx)

theorem fractionPart?_map (text : List Char) :
    Numeral.fractionPart? L'.decimalSeparator (text.map r.char) =
      Numeral.fractionPart? L.decimalSeparator text := by
  cases text with
  | nil => rfl
  | cons c rest =>
    rw [List.map_cons, Numeral.fractionPart?, Numeral.fractionPart?, h.takeWhile_isDigit]
    by_cases hc : c = L.decimalSeparator
    · rw [if_pos hc, if_pos ((h.decimal c).mpr hc)]
    · rw [if_neg hc, if_neg (mt (h.decimal c).mp hc)]

theorem mantissa_map (text : List Char) :
    Numeral.mantissa L'.decimalSeparator (text.map r.char) =
      Numeral.mantissa L.decimalSeparator text := by
  rw [Numeral.mantissa, Numeral.mantissa, h.takeWhile_isDigit, dropWhile_map h.isDigit,
    h.fractionPart?_map]

theorem signPart?_map (text : List Char) :
    Numeral.signPart? (text.map r.char) = Numeral.signPart? text := by
  cases text with
  | nil => rfl
  | cons c rest =>
    rw [Numeral.signPart?, Numeral.signPart?, List.map_cons, List.head?_cons, List.head?_cons]
    by_cases hsign : c = '+' ∨ c = '-'
    · have hc : r.char c = c := by
        apply h.fixed c
        right
        rcases hsign with rfl | rfl <;> decide
      rw [hc]
    · have hplus := h.char_eq_iff (x := '+') (by decide) c
      have hminus := h.char_eq_iff (x := '-') (by decide) c
      simp [Option.filter, hplus, hminus, hsign]

theorem exponentPart?_map (text : List Char) :
    Numeral.exponentPart? (text.map r.char) = Numeral.exponentPart? text := by
  cases text with
  | nil => rfl
  | cons c rest =>
    rw [List.map_cons, Numeral.exponentPart?, Numeral.exponentPart?, h.signPart?_map,
      h.isExponentMark, ← List.map_drop, h.takeWhile_isDigit]

theorem head?_map_eq_decimal (text : List Char) :
    (text.map r.char).head? = some L'.decimalSeparator ↔
      text.head? = some L.decimalSeparator := by
  rw [List.head?_map]
  cases text.head? with
  | none => simp
  | some c => simpa using h.decimal c

theorem numeral_scan (start : Nat) (text : List Char) :
    Numeral.scan L'.decimalSeparator start (text.map r.char) =
      (Numeral.scan L.decimalSeparator start text).mapError r.error := by
  have hmark : r.char L.decimalSeparator = L'.decimalSeparator := (h.decimal _).mpr rfl
  unfold Numeral.scan
  simp only [h.mantissa_map, ← List.map_drop, h.exponentPart?_map, h.head?_map_eq_decimal]
  split
  · rw [mapError_error, error, cause, hmark]
  · rw [List.head?_map]
    cases Numeral.exponentPart? (text.drop (Numeral.mantissa L.decimalSeparator text).length) with
    | none => rfl
    | some exponent =>
      cases (text.drop _).head? with
      | none => rfl
      | some c =>
        dsimp only [Option.map_some]
        rw [h.isExponentMark]
        by_cases hc : c = L.decimalSeparator
        · rw [if_pos hc, if_pos ((h.decimal c).mpr hc)]
          rfl
        · rw [if_neg hc, if_neg (mt (h.decimal c).mp hc)]
          split <;> rfl

theorem scanNumber (start : Nat) (text : List Char) :
    TokenKind.scanNumber L'.decimalSeparator start (text.map r.char) =
      ((TokenKind.scanNumber L.decimalSeparator start text).map fun lexeme =>
        (r.kind lexeme.1, lexeme.2)).mapError r.error := by
  unfold TokenKind.scanNumber
  rw [h.numeral_scan]
  cases Numeral.scan L.decimalSeparator start text with
  | error e => rfl
  | ok numeral =>
    rw [mapError_ok]
    dsimp only
    cases numeral.value? with
    | none => rfl
    | some value => cases value <;> rfl

theorem scanName (text : List Char) :
    TokenKind.scanName (text.map r.char) =
      (r.kind (TokenKind.scanName text).1, (TokenKind.scanName text).2) := by
  have hparts : ∀ c ∈ text.takeWhile Text.isNamePart, Text.isNamePart c = true :=
    List.all_eq_true.mp List.all_takeWhile
  rw [TokenKind.scanName, takeWhile_map h.isNamePart, h.name _ hparts, List.length_map]
  rfl

/-- Whether a symbol comes next is the same in both texts. -/
theorem head?_map_eq_symbol {x : Char} (hx : TokenKind.isSymbol x = true) (rest : List Char) :
    (rest.map r.char).head? = some x ↔ rest.head? = some x := by
  rw [List.head?_map]
  cases rest.head? with
  | none => simp
  | some c => simpa using h.char_eq_iff hx c

theorem scanSymbol (operandExpected : Bool) (start : Nat) (c : Char) (rest : List Char) :
    TokenKind.scanSymbol operandExpected start (r.char c) (rest.map r.char) =
      ((TokenKind.scanSymbol operandExpected start c rest).map fun lexeme =>
        (r.kind lexeme.1, lexeme.2)).mapError r.error := by
  by_cases hc : TokenKind.isSymbol c = true
  · have hequal := h.head?_map_eq_symbol (x := '=') (by decide) rest
    have hand := h.head?_map_eq_symbol (x := '&') (by decide) rest
    have hor := h.head?_map_eq_symbol (x := '|') (by decide) rest
    have hfixed := h.fixed c (.inr hc)
    rw [hfixed]
    unfold TokenKind.scanSymbol TokenKind.scanPair TokenKind.scanComparison
    simp only [hequal, hand, hor]
    split
    case h_18 => rw [Except.map, mapError_error, error, cause, hfixed]
    -- What remains depends at most on whether an operand is expected or on what comes next.
    all_goals first | rfl | (split <;> rfl)
  · have hc' : TokenKind.isSymbol (r.char c) = false := by simpa [h.isSymbol] using hc
    rw [TokenKind.scanSymbol_of_not_isSymbol hc',
      TokenKind.scanSymbol_of_not_isSymbol (Bool.eq_false_iff.mpr hc)]
    rfl

theorem scan (operandExpected : Bool) (start : Nat) (c : Char) (rest : List Char) :
    TokenKind.scan L' operandExpected start (r.char c) (rest.map r.char) =
      ((TokenKind.scan L operandExpected start c rest).map fun lexeme =>
        (r.kind lexeme.1, lexeme.2)).mapError r.error := by
  have hdecimal : (r.char c == L'.decimalSeparator) = (c == L.decimalSeparator) :=
    Bool.eq_iff_iff.mpr (by simpa using h.decimal c)
  have hargument : (r.char c == L'.argumentSeparator) = (c == L.argumentSeparator) :=
    Bool.eq_iff_iff.mpr (by simpa using h.argument c)
  unfold TokenKind.scan
  rw [h.isDigit, hdecimal, h.isNameStart, hargument]
  split
  · exact h.scanNumber start (c :: rest)
  split
  · exact congrArg Except.ok (h.scanName (c :: rest))
  split
  · rfl
  · exact h.scanSymbol operandExpected start c rest

theorem scanFrom (position : Nat) (operandExpected : Bool) (done : List Token)
    (text : List Char) :
    Token.scanFrom L' position operandExpected (done.map r.token) (text.map r.char) =
      ((Token.scanFrom L position operandExpected done text).map
        (List.map r.token)).mapError r.error := by
  fun_induction Token.scanFrom L position operandExpected done text with
  | case1 position operandExpected done =>
    rw [List.map_nil, Token.scanFrom, ← List.map_reverse]
    rfl
  | case2 position operandExpected done c rest hblank ih =>
    rw [List.map_cons, Token.scanFrom, h.isBlank, if_pos hblank, ih]
  | case3 position operandExpected done c rest hblank e hscan =>
    rw [List.map_cons, Token.scanFrom, h.isBlank, if_neg hblank, h.scan, hscan]
    rfl
  | case4 position operandExpected done c rest hblank kind length hscan ih =>
    rw [List.map_cons, Token.scanFrom, h.isBlank, if_neg hblank, h.scan, hscan]
    rw [← ih, List.map_cons, List.map_drop, ← r.expectsOperand_kind kind]
    rfl

/-- The tokens of a respelled text are the respelled tokens of the text. -/
theorem tokens (text : List Char) :
    Token.scan L' (text.map r.char) =
      ((Token.scan L text).map (List.map r.token)).mapError r.error :=
  h.scanFrom 0 true [] text

/-- The tree of a respelled text is the tree of the text. -/
theorem parse {v : Vocabulary} (hv : r.Respects v) (text : String) :
    Tree.parse L' v (text.map r.char) = (Tree.parse L v text).mapError r.error := by
  unfold Tree.parse readFormula
  rw [String.toList_map, h.tokens]
  cases Token.scan L text.toList with
  | error e => rfl
  | ok tokens =>
    cases tokens with
    | nil =>
      rw [Except.map, mapError_ok]
      dsimp only [List.map_nil]
      rw [List.length_map]
      rfl
    | cons token rest => exact hv.ofTokens (token :: rest)

end Fits

end Respelling

end FormulaEngine
