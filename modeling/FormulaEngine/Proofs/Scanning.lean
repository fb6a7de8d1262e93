import FormulaEngine.Proofs.NumeralText
import FormulaEngine.Token.Scan

/-!
Scanning of texts that are put together from tokens. A step of the scanner takes one
token or one blank off the text; the steps for two texts that follow each other are
those for the first and then those for the second.
-/
namespace FormulaEngine

open Decimal

namespace Text

/-- No printable character of ASCII but the blank itself is blank. -/
theorem isBlank_eq_false {c : Char} (h : 33 ≤ c.toNat ∧ c.toNat ≤ 126) : isBlank c = false := by
  simp only [isBlank, blankRanges, List.any_cons, List.any_nil, Bool.or_false, Bool.or_eq_false_iff,
    Bool.and_eq_false_iff, decide_eq_false_iff_not]
  omega

theorem toNat_of_isDigit {c : Char} (h : c.isDigit = true) : 48 ≤ c.toNat ∧ c.toNat ≤ 57 :=
  Char.isDigit_iff_toNat.mp h

theorem toNat_of_isAlpha {c : Char} (h : c.isAlpha = true) : 65 ≤ c.toNat ∧ c.toNat ≤ 122 := by
  have hcases : 'A'.val ≤ c.val ∧ c.val ≤ 'Z'.val ∨ 'a'.val ≤ c.val ∧ c.val ≤ 'z'.val := by
    have hsplit : (c.isUpper || c.isLower) = true := h
    rcases Bool.or_eq_true_iff.mp hsplit with hupper | hlower
    · exact Or.inl (of_decide_eq_true hupper)
    · obtain ⟨hlow, hhigh⟩ := Bool.and_eq_true_iff.mp hlower
      exact Or.inr ⟨of_decide_eq_true hlow, of_decide_eq_true hhigh⟩
  have hA : 'A'.val.toNat = 65 := rfl
  have hZ : 'Z'.val.toNat = 90 := rfl
  have ha : 'a'.val.toNat = 97 := rfl
  have hz : 'z'.val.toNat = 122 := rfl
  simp only [UInt32.le_iff_toNat_le] at hcases
  simp only [Char.toNat]
  omega

end Text

/-- Whether what follows ends a name and a numeral, as brackets, blanks and separators do. -/
def Ends (rest : List Char) : Prop :=
  ∀ c ∈ rest.head?, c = '(' ∨ c = ')' ∨ c = ' ' ∨ c = ','

theorem Ends.not_isNamePart {rest : List Char} (h : Ends rest) :
    ∀ c ∈ rest.head?, Text.isNamePart c = false := by
  intro c hc
  rcases h c hc with rfl | rfl | rfl | rfl <;> rfl

theorem Ends.stops {rest : List Char} (h : Ends rest) : Numeral.Stops rest := by
  intro c hc
  rcases h c hc with rfl | rfl | rfl | rfl <;> decide

/-- Whether the scanner, expecting an operand or not, gets from one text to another by tokens of the
given kinds. -/
def Scans (s : Bool × List Char) (kinds : List TokenKind) (s' : Bool × List Char) : Prop :=
  ∀ position done, ∃ (tokens : List Token) (position' : Nat), tokens.map Token.kind = kinds ∧
    Token.scanFrom .enUs position s.1 done s.2 =
      Token.scanFrom .enUs position' s'.1 (tokens.reverse ++ done) s'.2

namespace Scans

theorem refl (s : Bool × List Char) : Scans s [] s :=
  fun position _ => ⟨[], position, rfl, rfl⟩

theorem trans {s s' s'' : Bool × List Char} {kinds kinds' : List TokenKind}
    (h : Scans s kinds s') (h' : Scans s' kinds' s'') : Scans s (kinds ++ kinds') s'' := by
  intro position done
  obtain ⟨tokens, position', hkinds, hscan⟩ := h position done
  obtain ⟨tokens', position'', hkinds', hscan'⟩ := h' position' (tokens.reverse ++ done)
  refine ⟨tokens ++ tokens', position'', ?_, ?_⟩
  · rw [List.map_append, hkinds, hkinds']
  · rw [hscan, hscan', List.reverse_append, List.append_assoc]

theorem blank (operandExpected : Bool) (rest : List Char) :
    Scans (operandExpected, ' ' :: rest) [] (operandExpected, rest) := by
  intro position done
  refine ⟨[], position + 1, rfl, ?_⟩
  rw [Token.scanFrom, if_pos (by decide)]
  rfl

theorem token {operandExpected : Bool} {c : Char} {tail rest : List Char} {kind : TokenKind}
    {length : Nat} (hblank : Text.isBlank c = false)
    (hscan : ∀ start, TokenKind.scan .enUs operandExpected start c tail = .ok (kind, length))
    (hlength : 0 < length) (hrest : (c :: tail).drop length = rest) :
    Scans (operandExpected, c :: tail) [kind] (kind.expectsOperand, rest) := by
  intro position done
  refine ⟨[⟨kind, ⟨position, position + length⟩⟩], position + length, rfl, ?_⟩
  obtain ⟨length, rfl⟩ := Nat.exists_eq_succ_of_ne_zero (Nat.ne_of_gt hlength)
  rw [Token.scanFrom, if_neg (by simp [hblank]), hscan position, ← hrest]
  rfl

theorem leftBracket (rest : List Char) :
    Scans (true, '(' :: rest) [.leftBracket] (true, rest) :=
  token (by decide) (fun _ => rfl) (by decide) rfl

theorem callBracket (rest : List Char) :
    Scans (false, '(' :: rest) [.leftBracket] (true, rest) :=
  token (by decide) (fun _ => rfl) (by decide) rfl

theorem rightBracket (operandExpected : Bool) (rest : List Char) :
    Scans (operandExpected, ')' :: rest) [.rightBracket] (false, rest) :=
  token (by decide) (fun _ => rfl) (by decide) rfl

theorem unaryMinus (rest : List Char) :
    Scans (true, '-' :: rest) [.operator .unaryMinus] (true, rest) :=
  token (by decide) (fun _ => rfl) (by decide) rfl

theorem separator (rest : List Char) :
    Scans (false, ',' :: rest) [.separator] (true, rest) :=
  token (by decide) (fun _ => rfl) (by decide) rfl

/-- Before a blank every operator is scanned as it is spelled. -/
theorem operator (op : BinaryOperator) (rest : List Char) :
    Scans (false, op.spelling.toList ++ ' ' :: rest) [.operator (.binary op)]
      (true, ' ' :: rest) := by
  have hspelling : ∃ c tail, op.spelling.toList = c :: tail ∧ Text.isBlank c = false ∧
      ∀ start, TokenKind.scan .enUs false start c (tail ++ ' ' :: rest) =
        .ok (.operator (.binary op), (c :: tail).length) := by
    cases op <;> exact ⟨_, _, rfl, by decide, fun _ => rfl⟩
  obtain ⟨c, tail, hspelling, hblank, hscan⟩ := hspelling
  rw [hspelling]
  exact token hblank hscan (Nat.succ_pos _) (List.drop_left' rfl)

theorem numeral {n : Numeral} (h : n.Proper) (hne : n.whole ≠ []) {value : Literal}
    (hvalue : n.value? = some value) (operandExpected : Bool) {rest : List Char}
    (hrest : Ends rest) :
    Scans (operandExpected, n.text ++ rest) [.ofLiteral value] (false, rest) := by
  obtain ⟨c, more, hwhole⟩ := List.exists_cons_of_ne_nil hne
  obtain ⟨tail, htext⟩ : ∃ tail, n.text = c :: tail := ⟨_, by rw [Numeral.text_eq, hwhole]; rfl⟩
  have hdigit : c.isDigit = true := h.whole c (hwhole ▸ List.mem_cons_self)
  have hblank : Text.isBlank c = false := by
    have := Text.toNat_of_isDigit hdigit
    exact Text.isBlank_eq_false (by omega)
  have hscan : ∀ start, TokenKind.scan .enUs operandExpected start c (tail ++ rest) =
      .ok (.ofLiteral value, n.length) := by
    intro start
    have hnumber : TokenKind.scanNumber '.' start (n.text ++ rest) =
        .ok (.ofLiteral value, n.length) := by
      simp only [TokenKind.scanNumber, Numeral.scan_text h hrest.stops, hvalue]
    rw [htext] at hnumber
    rw [TokenKind.scan, hdigit, Bool.true_or, if_pos rfl]
    exact hnumber
  have hkind : (TokenKind.ofLiteral value).expectsOperand = false := by cases value <;> rfl
  have hlength : n.length = (c :: tail).length := congrArg List.length htext
  rw [htext, ← hkind]
  exact token hblank hscan (hlength ▸ Nat.succ_pos _) (List.drop_left' hlength.symm)

theorem name {name : String} (h : Text.isName name = true) (operandExpected : Bool)
    {rest : List Char} (hrest : Ends rest) :
    Scans (operandExpected, name.toList ++ rest) [.name name] (false, rest) := by
  unfold Text.isName at h
  cases hname : name.toList with
  | nil => simp [hname] at h
  | cons c tail =>
    simp only [hname, Bool.and_eq_true, List.all_eq_true] at h
    obtain ⟨hstart, hparts⟩ := h
    have hcode := Text.toNat_of_isAlpha hstart
    have hdigit : c.isDigit = false := by
      rw [← Bool.not_eq_true]
      intro hdigit
      have := Text.toNat_of_isDigit hdigit
      omega
    have hmark : c ≠ '.' := by
      rintro rfl
      revert hcode
      decide
    have hall : ∀ d ∈ c :: tail, Text.isNamePart d = true := by
      rw [List.forall_mem_cons]
      exact ⟨Text.isNamePart_of_isNameStart hstart, hparts⟩
    have hscan : ∀ start, TokenKind.scan .enUs operandExpected start c (tail ++ rest) =
        .ok (.name name, (c :: tail).length) := by
      intro start
      have hspelling := takeWhile_append hall hrest.not_isNamePart
      rw [List.cons_append] at hspelling
      simp [TokenKind.scan, hdigit, hmark, hstart, TokenKind.scanName, Locale.enUs, hspelling,
        ← hname]
    exact token (Text.isBlank_eq_false (by omega)) hscan (Nat.succ_pos _) (List.drop_left' rfl)

end Scans

end FormulaEngine
