import FormulaEngine.Proofs.InsertedBlanks

/-!
Minus signs. Every token is what the scanner finds where the token stands, and whether an operand is
expected there is told by the token before alone. So a minus sign that is a token of its own is unary
at the start of a formula and behind an operator, a left bracket or a separator, and it subtracts
behind an operand or a right bracket. Any other minus sign of a text is in the exponent of a number.
-/
namespace FormulaEngine

open Decimal

namespace Decimal.Numeral

/-- A minus sign in an exponent is its sign, and there is no other. -/
theorem IsExponent.eq_of_minus {word : List Char} (h : IsExponent word) {offset : Nat}
    (hminus : word[offset]? = some '-') :
    offset = 1 ∧ ∃ e digits, word = e :: '-' :: digits := by
  cases h with
  | @intro e sign digits he _ _ hdigits =>
    have hnodigit : ∀ {position : Nat}, digits[position]? ≠ some '-' := by
      intro position hposition
      cases hdigits '-' (List.mem_of_getElem? hposition)
    cases offset with
    | zero =>
      obtain rfl : e = '-' := Option.some.inj hminus
      cases he
    | succ offset =>
      cases sign with
      | none => exact (hnodigit hminus).elim
      | some s =>
        cases offset with
        | zero =>
          obtain rfl : s = '-' := Option.some.inj hminus
          exact ⟨rfl, e, digits, rfl⟩
        | succ offset => exact (hnodigit hminus).elim

/-- A numeral with an exponent is no integer. -/
theorem exists_float_of_value? {n : Numeral} {literal : Literal} (h : n.value? = some literal)
    (hexponent : n.exponent ≠ none) : ∃ value, literal = .float value := by
  unfold value? at h
  split at h
  · cases h
  · rw [Option.isSome_iff_ne_none.mpr hexponent, Bool.or_true, if_pos rfl] at h
    cases h
    exact ⟨_, rfl⟩

end Decimal.Numeral

namespace TokenKind

open Numeral

/-- Whether an operand must come behind such a token. -/
inductive Awaits : TokenKind → Prop
  | operator (op : Operator) : Awaits (.operator op)
  | leftBracket : Awaits .leftBracket
  | separator : Awaits .separator

/-- Whether such a token is an operand or closes one. -/
inductive Completes : TokenKind → Prop
  | integer (value : Int64) : Completes (.integer value)
  | float (value : Float) : Completes (.float value)
  | name (text : String) : Completes (.name text)
  | rightBracket : Completes .rightBracket

theorem expectsOperand_iff (kind : TokenKind) : kind.expectsOperand = true ↔ kind.Awaits := by
  refine ⟨fun h => ?_, fun h => by cases h <;> rfl⟩
  cases kind with
  | operator op => exact .operator op
  | leftBracket => exact .leftBracket
  | separator => exact .separator
  | _ => cases h

theorem completes_iff (kind : TokenKind) : kind.Completes ↔ ¬kind.Awaits := by
  rw [← expectsOperand_iff, Bool.not_eq_true]
  refine ⟨fun h => by cases h <;> rfl, fun h => ?_⟩
  cases kind with
  | integer value => exact .integer value
  | float value => exact .float value
  | name text => exact .name text
  | rightBracket => exact .rightBracket
  | _ => cases h

/-- What a minus sign means as a token of its own. -/
def minus (operandExpected : Bool) : TokenKind :=
  if operandExpected then operator .unaryMinus else binary .subtract

def IsMinus (kind : TokenKind) : Prop :=
  kind = .operator .unaryMinus ∨ kind = .operator (.binary .subtract)

theorem isMinus_minus (operandExpected : Bool) : (minus operandExpected).IsMinus := by
  cases operandExpected
  · exact .inr rfl
  · exact .inl rfl

theorem minus_eq_unaryMinus_iff (operandExpected : Bool) :
    minus operandExpected = .operator .unaryMinus ↔ operandExpected = true := by
  cases operandExpected <;> simp [minus, binary]

theorem minus_eq_subtract_iff (operandExpected : Bool) :
    minus operandExpected = .operator (.binary .subtract) ↔ operandExpected = false := by
  cases operandExpected <;> simp [minus, binary]

variable {locale : Locale}

theorem Spelled.eq_of_isMinus {kind : TokenKind} {lexeme : List Char}
    (h : kind.Spelled locale lexeme) (hminus : kind.IsMinus) : lexeme = ['-'] := by
  rcases hminus with rfl | rfl
  · exact h
  · exact Or.elim h id id

theorem scan_minus (hmark : locale.decimalSeparator ≠ '-')
    (hseparator : locale.argumentSeparator ≠ '-') (operandExpected : Bool) (start : Nat)
    (rest : List Char) :
    scan locale operandExpected start '-' rest = .ok (minus operandExpected, 1) := by
  have hnumber : ¬('-'.isDigit || '-' == locale.decimalSeparator) = true := by
    rw [show '-'.isDigit = false from rfl, Bool.false_or, beq_iff_eq]
    exact hmark.symm
  have hname : ¬Text.isNameStart '-' = true := by decide
  have hother : ¬('-' == locale.argumentSeparator) = true := by
    rw [beq_iff_eq]
    exact hseparator.symm
  rw [scan, if_neg hnumber, if_neg hname, if_neg hother]
  rfl

section Inside

variable {operandExpected : Bool} {start : Nat} {c : Char} {rest : List Char} {kind : TokenKind}
  {length : Nat}

/-- The second character of an operator, if there is one, is no minus sign. -/
theorem minus_not_mem_of_scanSymbol
    (h : scanSymbol operandExpected start c rest = .ok (kind, length)) :
    '-' ∉ rest.take (length - 1) := by
  have htwo : ∀ {second : Char}, rest.head? = some second → second ≠ '-' →
      '-' ∉ rest.take (2 - 1) := by
    intro second hrest hsecond hmem
    obtain ⟨tail, rfl⟩ := List.head?_eq_some_iff.mp hrest
    exact hsecond (List.mem_singleton.mp hmem).symm
  unfold scanSymbol at h
  split at h
  case h_12 | h_13 =>
    unfold scanComparison at h
    split at h
    · rename_i hrest
      cases h
      exact htwo hrest (by decide)
    · cases h
      exact List.not_mem_nil
  case h_14 | h_15 | h_16 | h_17 =>
    unfold scanPair at h
    split at h
    · rename_i hrest
      cases h
      exact htwo hrest (by decide)
    · cases h
  case h_18 => cases h
  all_goals
    cases h
    exact List.not_mem_nil

/-- Only a number has a minus sign behind its first character. -/
theorem scanNumber_of_scan (h : scan locale operandExpected start c rest = .ok (kind, length))
    (hmem : '-' ∈ rest.take (length - 1)) :
    scanNumber locale.decimalSeparator start (c :: rest) = .ok (kind, length) := by
  unfold scan at h
  split at h
  · exact h
  split at h
  · have hlength : ((c :: rest).takeWhile Text.isNamePart).length = length :=
      congrArg Prod.snd (Except.ok.inj h)
    have hpart : '-' ∈ ((c :: rest).take length).drop 1 := by
      rw [List.drop_take]
      exact hmem
    rw [← hlength, take_length_takeWhile] at hpart
    cases List.mem_takeWhile_imp (List.mem_of_mem_drop hpart)
  split at h
  · cases h
    cases hmem
  · exact (minus_not_mem_of_scanSymbol h hmem).elim

/-- A number with a minus sign has it behind its exponent mark. -/
theorem exists_exponent_of_minus {mark : Char} (hmark : mark ≠ '-') {text : List Char}
    (h : scanNumber mark start text = .ok (kind, length)) {offset : Nat}
    (hminus : text[offset]? = some '-') (hlt : offset < length) :
    ∃ value mantissa e digits, kind = .float value ∧ IsMantissa mark mantissa ∧
      IsExponent (e :: '-' :: digits) ∧ text.take length = mantissa ++ e :: '-' :: digits ∧
      offset = mantissa.length + 1 := by
  obtain ⟨literal, -, hvalue, rfl, rfl⟩ := scanNumber_eq_ok h
  have hm := longestStart_mantissa mark text
  generalize mantissaLexeme mark (mantissa mark text) = m at hm
  have hx := longestStart_exponent (text.drop m.length)
  generalize exponentLexeme (text.drop m.length) = x at hx
  have hlexeme := take_leading_of_longest hm hx
  have hoffset : (m ++ x)[offset]? = some '-' := by
    rw [← hlexeme, List.getElem?_take_of_lt hlt]
    exact hminus
  have hnot : '-' ∉ m := by
    intro hmem
    rcases hm.belongs.isDigit_or_eq '-' hmem with hdigit | heq
    · cases hdigit
    · exact hmark heq.symm
  have hle : m.length ≤ offset := by
    by_contra hlt
    rw [List.getElem?_append_left (Nat.lt_of_not_le hlt)] at hoffset
    exact hnot (List.mem_of_getElem? hoffset)
  rw [List.getElem?_append_right hle] at hoffset
  have hexponent : IsExponent x := hx.belongs.resolve_left fun hnil => by
    rw [hnil] at hoffset
    cases hoffset
  obtain ⟨hone, e, digits, rfl⟩ := hexponent.eq_of_minus hoffset
  have hsome := mt (exponent_leading_eq_none_iff hm hx).mp hexponent.ne_nil
  obtain ⟨value, rfl⟩ := exists_float_of_value? hvalue hsome
  exact ⟨value, m, e, digits, rfl, hm.belongs, hexponent, hlexeme, by omega⟩

end Inside

end TokenKind

namespace Token

variable {locale : Locale} {text : List Char}

/-! ### The tokens in turn -/

/-- Whether a token is what the scanner finds where the token stands, if it expects an operand there
or if it does not. -/
def Found (locale : Locale) (text : List Char) (operandExpected : Bool) (token : Token) : Prop :=
  ∃ c rest, text.drop token.span.start = c :: rest ∧
    TokenKind.scan locale operandExpected token.span.start c rest =
      .ok (token.kind, token.span.stop - token.span.start)

/-- Whether every token is found by what the one before it makes the scanner expect. -/
inductive FoundInTurn (locale : Locale) (text : List Char) : Bool → List Token → Prop
  | nil (operandExpected : Bool) : FoundInTurn locale text operandExpected []
  | cons {operandExpected : Bool} {token : Token} {rest : List Token}
      (htoken : Found locale text operandExpected token)
      (hrest : FoundInTurn locale text token.kind.expectsOperand rest) :
      FoundInTurn locale text operandExpected (token :: rest)

theorem foundInTurn_of_scanFrom {position : Nat} {operandExpected : Bool}
    {done tokens : List Token} {after : List Char}
    (h : scanFrom locale position operandExpected done after = .ok tokens)
    (hafter : text.drop position = after) :
    ∃ found, tokens = done.reverse ++ found ∧ FoundInTurn locale text operandExpected found := by
  fun_induction scanFrom locale position operandExpected done after with
  | case1 position operandExpected done =>
    cases h
    exact ⟨[], (List.append_nil _).symm, .nil _⟩
  | case2 position operandExpected done c rest hblank ih =>
    refine ih h ?_
    rw [← List.drop_drop, hafter]
    rfl
  | case3 => cases h
  | case4 position operandExpected done c rest hblank kind length hscan ih =>
    obtain ⟨hpositive, -⟩ := length_of_scan hscan
    obtain ⟨length, rfl⟩ := Nat.exists_eq_succ_of_ne_zero (Nat.ne_of_gt hpositive)
    obtain ⟨found, rfl, hfound⟩ := ih h (by rw [← List.drop_drop, hafter]; rfl)
    let token : Token := ⟨kind, ⟨position, position + (length + 1)⟩⟩
    refine ⟨token :: found, ?_, .cons ⟨c, rest, hafter, ?_⟩ hfound⟩
    · rw [List.reverse_cons, List.append_assoc, List.singleton_append]
    · dsimp only [token]
      rw [Nat.add_sub_cancel_left]
      exact hscan

theorem foundInTurn_of_scan {tokens : List Token} (h : scan locale text = .ok tokens) :
    FoundInTurn locale text true tokens := by
  obtain ⟨found, rfl, hfound⟩ := foundInTurn_of_scanFrom h rfl
  exact hfound

theorem FoundInTurn.found {operandExpected : Bool} {before after : List Token} {token : Token}
    (h : FoundInTurn locale text operandExpected (before ++ token :: after)) :
    Found locale text
      (before.getLast?.elim operandExpected fun previous => previous.kind.expectsOperand) token := by
  induction before generalizing operandExpected with
  | nil =>
    cases h with
    | cons htoken _ => exact htoken
  | cons first before ih =>
    cases h with
    | cons _ hrest =>
      have hfound := ih hrest
      rw [List.getLast?_cons]
      cases hlast : before.getLast? <;> rwa [hlast] at hfound

/-- Whether an operand must come behind tokens that are found at the start of a text. -/
def expectsOperandAfter (before : List Token) : Bool :=
  before.getLast?.elim true fun previous => previous.kind.expectsOperand

theorem expectsOperandAfter_eq_true_iff (before : List Token) :
    expectsOperandAfter before = true ↔
      before = [] ∨ ∃ previous ∈ before.getLast?, previous.kind.Awaits := by
  rw [expectsOperandAfter, ← List.getLast?_eq_none_iff]
  cases before.getLast? with
  | none => simp
  | some previous => simp [TokenKind.expectsOperand_iff]

theorem expectsOperandAfter_eq_false_iff (before : List Token) :
    expectsOperandAfter before = false ↔
      ∃ previous ∈ before.getLast?, previous.kind.Completes := by
  rw [expectsOperandAfter]
  cases before.getLast? with
  | none => simp
  | some previous => simp [TokenKind.completes_iff, ← TokenKind.expectsOperand_iff]

theorem found_of_scan {before after : List Token} {token : Token}
    (h : scan locale text = .ok (before ++ token :: after)) :
    Found locale text (expectsOperandAfter before) token :=
  (foundInTurn_of_scan h).found

/-! ### The minus signs of a text -/

/-- Whether a token is a number that has a minus sign at a position, as the sign of its exponent. -/
def HasExponentSign (mark : Char) (text : List Char) (position : Nat) (token : Token) : Prop :=
  ∃ value mantissa e digits, token.kind = .float value ∧ Numeral.IsMantissa mark mantissa ∧
    Numeral.IsExponent (e :: '-' :: digits) ∧
    token.span.cut text = mantissa ++ e :: '-' :: digits ∧
    position = token.span.start + (mantissa.length + 1)

section Signs

variable (hmark : locale.decimalSeparator ≠ '-') (hseparator : locale.argumentSeparator ≠ '-')
include hmark hseparator

section Found

variable {operandExpected : Bool} {token : Token} (h : Found locale text operandExpected token)
include h

theorem Found.kind_of_cut (hcut : token.span.cut text = ['-']) :
    token.kind = .minus operandExpected := by
  obtain ⟨c, rest, hdrop, hscan⟩ := h
  rw [Span.cut, hdrop] at hcut
  cases hlength : token.span.stop - token.span.start with
  | zero =>
    rw [hlength] at hcut
    cases hcut
  | succ length =>
    rw [hlength, List.take_succ_cons] at hcut
    rw [(List.cons.inj hcut).1, TokenKind.scan_minus hmark hseparator] at hscan
    exact (congrArg Prod.fst (Except.ok.inj hscan)).symm

/-- A token with a minus sign is that sign, or a number with it in the exponent. -/
theorem Found.minus_cases {position : Nat} (hminus : text[position]? = some '-')
    (hholds : token.span.Holds position) :
    token.span = Span.point position ∧ token.kind = .minus operandExpected ∨
      token.HasExponentSign locale.decimalSeparator text position := by
  obtain ⟨c, rest, hdrop, hscan⟩ := h
  obtain ⟨kind, start, stop⟩ := token
  obtain ⟨hstart, hstop⟩ := hholds
  dsimp only at hdrop hscan hstart hstop
  have hat : (c :: rest)[position - start]? = some '-' := by
    rw [← hdrop, List.getElem?_drop, Nat.add_sub_cancel' hstart]
    exact hminus
  cases hoffset : position - start with
  | zero =>
    rw [hoffset] at hat
    obtain rfl : c = '-' := Option.some.inj hat
    rw [TokenKind.scan_minus hmark hseparator] at hscan
    obtain ⟨hkind, hlength⟩ := Prod.mk.inj (Except.ok.inj hscan)
    have hsame : start = position ∧ stop = position + 1 := by omega
    exact .inl ⟨by rw [hsame.1, hsame.2, Span.point], hkind.symm⟩
  | succ offset =>
    have hmem : '-' ∈ rest.take (stop - start - 1) := by
      rw [hoffset, List.getElem?_cons_succ] at hat
      have hlt : offset < stop - start - 1 := by omega
      rw [← List.getElem?_take_of_lt hlt] at hat
      exact List.mem_of_getElem? hat
    have hnumber := TokenKind.scanNumber_of_scan hscan hmem
    obtain ⟨value, m, e, digits, hkind, hm, hx, hlexeme, hplace⟩ :=
      TokenKind.exists_exponent_of_minus hmark hnumber hat (by omega)
    refine .inr ⟨value, m, e, digits, hkind, hm, hx, ?_, by dsimp only; omega⟩
    rw [Span.cut, hdrop]
    exact hlexeme

end Found

theorem cut_eq_minus_iff {tokens : List Token} (h : scan locale text = .ok tokens) {token : Token}
    (htoken : token ∈ tokens) : token.span.cut text = ['-'] ↔ token.kind.IsMinus := by
  constructor
  · intro hcut
    obtain ⟨before, after, rfl⟩ := List.append_of_mem htoken
    rw [(found_of_scan h).kind_of_cut hmark hseparator hcut]
    exact TokenKind.isMinus_minus _
  · exact ((cover_of_scan h).spelled token htoken).eq_of_isMinus

theorem kind_eq_iff_of_cut {before after : List Token} {token : Token}
    (h : scan locale text = .ok (before ++ token :: after)) (hcut : token.span.cut text = ['-']) :
    (token.kind = .operator .unaryMinus ↔
      before = [] ∨ ∃ previous ∈ before.getLast?, previous.kind.Awaits) ∧
    (token.kind = .operator (.binary .subtract) ↔
      ∃ previous ∈ before.getLast?, previous.kind.Completes) := by
  rw [(found_of_scan h).kind_of_cut hmark hseparator hcut, TokenKind.minus_eq_unaryMinus_iff,
    TokenKind.minus_eq_subtract_iff]
  exact ⟨expectsOperandAfter_eq_true_iff before, expectsOperandAfter_eq_false_iff before⟩

theorem kind_eq_iff_behind {before after : List Token} {previous token : Token}
    (h : scan locale text = .ok (before ++ previous :: token :: after))
    (hminus : token.kind.IsMinus) :
    (token.kind = .operator .unaryMinus ↔ previous.kind.Awaits) ∧
    (token.kind = .operator (.binary .subtract) ↔ previous.kind.Completes) := by
  have hcut := (cut_eq_minus_iff hmark hseparator h (by simp)).mpr hminus
  rw [List.append_cons] at h
  have hiff := kind_eq_iff_of_cut hmark hseparator h hcut
  rw [List.getLast?_concat] at hiff
  simpa using hiff

/-- Every minus sign belongs to one token. -/
theorem exists_token_of_minus {tokens : List Token} (h : scan locale text = .ok tokens)
    {position : Nat} (hminus : text[position]? = some '-') :
    ∃ token ∈ tokens,
      (token.span = Span.point position ∧ token.kind.IsMinus ∨
        token.HasExponentSign locale.decimalSeparator text position) ∧
      ∀ other ∈ tokens, other.span.Holds position → other = token := by
  have hcover := cover_of_scan h
  obtain ⟨token, htoken, hholds⟩ := hcover.exists_holds hminus rfl
  refine ⟨token, htoken, ?_, fun other hother hother' =>
    hcover.eq_of_holds hother htoken hother' hholds⟩
  obtain ⟨before, after, rfl⟩ := List.append_of_mem htoken
  rcases (found_of_scan h).minus_cases hmark hseparator hminus hholds with
    ⟨hspan, hkind⟩ | hexponent
  · refine .inl ⟨hspan, ?_⟩
    rw [hkind]
    exact TokenKind.isMinus_minus _
  · exact .inr hexponent

/-- A minus sign that is a token of its own is unary exactly at the start and behind an operator, a
left bracket or a separator, and it subtracts exactly behind an operand or a right bracket. Every
other minus sign belongs to the exponent of a number and to no other token. -/
theorem minus_follows_previous {tokens : List Token} (h : scan locale text = .ok tokens) :
    (∀ token ∈ tokens, token.span.cut text = ['-'] ↔ token.kind.IsMinus) ∧
    (∀ (before : List Token) (token : Token) (after : List Token),
      tokens = before ++ token :: after → token.span.cut text = ['-'] →
      (token.kind = .operator .unaryMinus ↔
        before = [] ∨ ∃ previous ∈ before.getLast?, previous.kind.Awaits) ∧
      (token.kind = .operator (.binary .subtract) ↔
        ∃ previous ∈ before.getLast?, previous.kind.Completes)) ∧
    (∀ position, text[position]? = some '-' → ∃ token ∈ tokens,
      (token.span = Span.point position ∧ token.kind.IsMinus ∨
        token.HasExponentSign locale.decimalSeparator text position) ∧
      ∀ other ∈ tokens, other.span.Holds position → other = token) ∧
    ∀ (before : List Token) (previous token : Token) (after : List Token),
      tokens = before ++ previous :: token :: after →
      (token.kind = .operator (.binary .subtract) → ¬previous.kind.Awaits) ∧
      (token.kind = .operator .unaryMinus → ¬previous.kind.Completes) := by
  refine ⟨fun token htoken => cut_eq_minus_iff hmark hseparator h htoken, ?_,
    fun position hminus => exists_token_of_minus hmark hseparator h hminus, ?_⟩
  · rintro before token after rfl hcut
    exact kind_eq_iff_of_cut hmark hseparator h hcut
  · rintro before previous token after rfl
    constructor
    · intro hkind
      have hcompletes := (kind_eq_iff_behind hmark hseparator h (.inr hkind)).2.mp hkind
      exact (TokenKind.completes_iff _).mp hcompletes
    · intro hkind hcompletes
      have hawaits := (kind_eq_iff_behind hmark hseparator h (.inl hkind)).1.mp hkind
      exact (TokenKind.completes_iff _).mp hcompletes hawaits

end Signs

/-- In `2e-3--x` the first minus sign gives no token, the second subtracts and the third is unary. -/
theorem minus_follows_previous_exponent :
    Locale.enUs.decimalSeparator ≠ '-' ∧ Locale.enUs.argumentSeparator ≠ '-' ∧
      ∃ number sign sign' operand,
        scan .enUs "2e-3--x".toList = .ok [number, sign, sign', operand] ∧
        number.HasExponentSign '.' "2e-3--x".toList 2 ∧
        sign.span = Span.point 4 ∧ sign.kind = .operator (.binary .subtract) ∧
        sign'.span = Span.point 5 ∧ sign'.kind = .operator .unaryMinus := by
  have hmark : Locale.enUs.decimalSeparator ≠ '-' := by decide
  have hseparator : Locale.enUs.argumentSeparator ≠ '-' := by decide
  -- What the number comes to does not matter.
  obtain ⟨value, hnumber⟩ : ∃ value,
      TokenKind.scan .enUs true 0 '2' "e-3--x".toList = .ok (.float value, 4) := ⟨_, rfl⟩
  let number : Token := ⟨.float value, ⟨0, 4⟩⟩
  let sign : Token := ⟨.operator (.binary .subtract), ⟨4, 5⟩⟩
  let sign' : Token := ⟨.operator .unaryMinus, ⟨5, 6⟩⟩
  let operand : Token := ⟨.name "x", ⟨6, 7⟩⟩
  have hrest : scanFrom .enUs 4 false [number] "--x".toList =
      .ok [number, sign, sign', operand] := by cbv
  have hscan : scan .enUs "2e-3--x".toList = .ok [number, sign, sign', operand] := by
    have htext : "2e-3--x".toList = '2' :: "e-3--x".toList := rfl
    rw [scan, htext, scanFrom, if_neg (by decide), hnumber]
    exact hrest
  obtain ⟨-, hdecided, hsigns, -⟩ := minus_follows_previous hmark hseparator hscan
  refine ⟨hmark, hseparator, number, sign, sign', operand, hscan, ?_, rfl, ?_, rfl, ?_⟩
  · obtain ⟨token, -, hsign, hunique⟩ := hsigns 2 rfl
    have hholds : (⟨0, 4⟩ : Span).Holds 2 := ⟨by decide, by decide⟩
    have hlong : (⟨0, 4⟩ : Span) ≠ Span.point 2 := by decide
    obtain rfl := hunique number List.mem_cons_self hholds
    exact hsign.resolve_left fun halone => hlong halone.1
  · exact (hdecided [number] sign [sign', operand] rfl rfl).2.mpr ⟨number, rfl, .float _⟩
  · exact (hdecided [number, sign] sign' [operand] rfl rfl).1.mpr (.inr ⟨sign, rfl, .operator _⟩)

end Token

end FormulaEngine
