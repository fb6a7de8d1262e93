import FormulaEngine.Proofs.Scanning
import FormulaEngine.Proofs.WritingAssembly

/-!
Texts that spell trees. Such a text is scanned as a writing of its tree wherever an
operand may stand, so that longer ones are put together from shorter ones; a whole one
is read as its tree. A number is spelled by a numeral with its value.
-/
namespace FormulaEngine

open Decimal

/-- Whether a text is scanned as a writing of the tree, when an operand must come next and the text
behind it ends it. The writing may stand beside any operator. -/
def Spells (v : Vocabulary) (text : List Char) (t : Tree) : Prop :=
  ∃ form kinds, (∀ op, form ≠ .binary op) ∧ Writing v form t kinds ∧
    ∀ rest, Ends rest → Scans (true, text ++ rest) kinds (false, rest)

theorem Ends.nil : Ends [] := nofun

theorem Ends.cons {c : Char} (h : c = '(' ∨ c = ')' ∨ c = ' ' ∨ c = ',') (rest : List Char) :
    Ends (c :: rest) := by
  rintro _ ⟨⟩
  exact h

theorem Writing.kinds_ne_nil {v : Vocabulary} {form : Form} {t : Tree} {kinds : List TokenKind}
    (h : Writing v form t kinds) : kinds ≠ [] := by
  cases h <;> simp

namespace Spells

variable {v : Vocabulary}

theorem minus {text : List Char} {t : Tree} (h : Spells v text t) :
    Spells v ('-' :: text) (.negate t) := by
  obtain ⟨form, kinds, hform, hwriting, hscans⟩ := h
  refine ⟨.unary, _, nofun, hwriting.negate hform, fun rest hrest => ?_⟩
  exact (Scans.unaryMinus (text ++ rest)).trans (hscans rest hrest)

theorem bracketed {text : List Char} {t : Tree} (h : Spells v text t) :
    Spells v ('(' :: text ++ [')']) t := by
  obtain ⟨form, kinds, -, hwriting, hscans⟩ := h
  refine ⟨.closed, _, nofun, hwriting.bracketed, fun rest hrest => ?_⟩
  have hinner := hscans (')' :: rest) (.cons (by simp) rest)
  have hscan := ((Scans.leftBracket _).trans hinner).trans (Scans.rightBracket false rest)
  simpa using hscan

theorem binary (op : BinaryOperator) {text text' : List Char} {left right : Tree}
    (hleft : Spells v text left) (hright : Spells v text' right) :
    Spells v ('(' :: text ++ ' ' :: op.spelling.toList ++ ' ' :: text' ++ [')'])
      (.binary op left right) := by
  obtain ⟨form, kinds, hform, hwriting, hscans⟩ := hleft
  obtain ⟨form', kinds', hform', hwriting', hscans'⟩ := hright
  have hbinary : Writing v (.binary op) (.binary op left right)
      (kinds ++ .operator (.binary op) :: kinds') :=
    hwriting.binary hwriting' (fun t ht => (hform t ht).elim) fun p hp => (hform' p hp).elim
  refine ⟨.closed, _, nofun, hbinary.bracketed, fun rest hrest => ?_⟩
  have hfirst := hscans (' ' :: (op.spelling.toList ++ ' ' :: (text' ++ ')' :: rest)))
    (.cons (by simp) _)
  have hlast := hscans' (')' :: rest) (.cons (by simp) rest)
  have hscan := (((((Scans.leftBracket _).trans hfirst).trans (Scans.blank false _)).trans
    (Scans.operator op _)).trans (Scans.blank true _)).trans
      (hlast.trans (Scans.rightBracket false rest))
  simpa using hscan

theorem integer {n : Numeral} (h : n.Proper) (hne : n.whole ≠ []) {value : Int64}
    (hvalue : n.value? = some (.integer value)) : Spells v n.text (.integer value) :=
  ⟨.closed, _, nofun, .integer value, fun _ hrest => Scans.numeral h hne hvalue true hrest⟩

theorem float {n : Numeral} (h : n.Proper) (hne : n.whole ≠ []) {value : Float}
    (hvalue : n.value? = some (.float value)) : Spells v n.text (.float value) :=
  ⟨.closed, _, nofun, .float value, fun _ hrest => Scans.numeral h hne hvalue true hrest⟩

theorem var {name : String} (hname : Text.isName name = true)
    (hfunction : v.function? name = none) (hconstant : v.constant? name = none) :
    Spells v name.toList (.var (v.variableName name)) :=
  ⟨.closed, _, nofun, .variable hfunction hconstant, fun _ hrest => Scans.name hname true hrest⟩

end Spells

/-- Whether a text is scanned as a list of arguments between the brackets of a call. -/
def SpellsArguments (v : Vocabulary) (text : List Char) (ts : List Tree) : Prop :=
  ∃ kinds, ArgumentList v ts kinds ∧
    ∀ rest, Ends rest → ∃ operandExpected, Scans (true, text ++ rest) kinds (operandExpected, rest)

namespace SpellsArguments

variable {v : Vocabulary}

theorem none : SpellsArguments v [] [] :=
  ⟨[], .none, fun rest _ => ⟨true, .refl (true, rest)⟩⟩

theorem last {text : List Char} {t : Tree} (h : Spells v text t) :
    SpellsArguments v text [t] := by
  obtain ⟨form, kinds, -, hwriting, hscans⟩ := h
  exact ⟨kinds, .last hwriting, fun rest hrest => ⟨false, hscans rest hrest⟩⟩

theorem next {text text' : List Char} {t u : Tree} {ts : List Tree} (h : Spells v text t)
    (hrest : SpellsArguments v text' (u :: ts)) :
    SpellsArguments v (text ++ ',' :: ' ' :: text') (t :: u :: ts) := by
  obtain ⟨form, kinds, -, hwriting, hscans⟩ := h
  obtain ⟨kinds', hlist, hscans'⟩ := hrest
  refine ⟨_, .next hwriting hlist, fun rest hends => ?_⟩
  obtain ⟨operandExpected, hlast⟩ := hscans' rest hends
  have hfirst := hscans (',' :: ' ' :: (text' ++ rest)) (.cons (by simp) _)
  have hscan := ((hfirst.trans (Scans.separator _)).trans (Scans.blank true _)).trans hlast
  exact ⟨operandExpected, by simpa using hscan⟩

end SpellsArguments

theorem Spells.call {v : Vocabulary} {name : String} {callee : Signature} {text : List Char}
    {arguments : List Tree} (hname : Text.isName name = true)
    (hfunction : v.function? name = some callee) (haccepts : callee.accepts arguments.length = true)
    (h : SpellsArguments v text arguments) :
    Spells v (name.toList ++ '(' :: text ++ [')'])
      (.call callee.name arguments callee.idempotent) := by
  obtain ⟨kinds, hlist, hscans⟩ := h
  refine ⟨.closed, _, nofun, .call hfunction haccepts hlist, fun rest hrest => ?_⟩
  obtain ⟨operandExpected, hinner⟩ := hscans (')' :: rest) (.cons (by simp) rest)
  have hends : Ends ('(' :: (text ++ ')' :: rest)) := .cons (by simp) _
  have hscan := (((Scans.name hname true hends).trans (Scans.callBracket _)).trans hinner).trans
    (Scans.rightBracket operandExpected rest)
  simpa using hscan

/-- A text that spells a tree is read as this tree. -/
theorem Spells.parse {v : Vocabulary} {text : List Char} {t : Tree} (h : Spells v text t) :
    Tree.parse .enUs v (String.ofList text) = .ok t := by
  obtain ⟨form, kinds, -, hwriting, hscans⟩ := h
  obtain ⟨tokens, position, rfl, hscan⟩ := hscans [] .nil 0 []
  have htokens : Token.scan .enUs text = .ok tokens := by
    rw [List.append_nil, List.append_nil] at hscan
    rw [Token.scan, hscan, Token.scanFrom, List.reverse_reverse]
  have hne : tokens ≠ [] := fun hnil => hwriting.kinds_ne_nil (by rw [hnil]; rfl)
  rw [Tree.parse, readFormula, String.toList_ofList, htokens]
  cases tokens with
  | nil => exact (hne rfl).elim
  | cons token tokens => exact (Assembly.reads_of_writing hwriting).ofTokens

namespace Decimal

namespace Numeral

/-- The numeral of a natural number. -/
def ofNat (k : Nat) : Numeral := ⟨Nat.toDigits 10 k, none, none⟩

theorem proper_ofNat (k : Nat) : (ofNat k).Proper :=
  ⟨fun _ hc => Notation.isDigit_of_mem_toDigits hc, nofun, nofun⟩

theorem text_ofNat (k : Nat) : (ofNat k).text = Nat.toDigits 10 k := by
  simp [text_eq, ofNat, fractionText, exponentText]

theorem value?_ofNat (k : Nat) :
    (ofNat k).value? =
      some (if k < 2 ^ 63 then .integer (Int64.ofNat k) else .float (ofNat k).floatValue) := by
  have hdigits : (ofNat k).mantissaDigits.isEmpty = false := by
    simp [mantissaDigits, ofNat]
  have hvalue : Nat.ofDigitChars 10 (ofNat k).whole 0 = k := Nat.ofDigitChars_ten_toDigits
  have hplain : ((ofNat k).fraction.isSome || (ofNat k).exponent.isSome) = false := rfl
  simp only [value?, hdigits, hplain, hvalue, Bool.false_eq_true, if_false]
  by_cases hsmall : k < 2 ^ 63
  · rw [if_pos hsmall, if_pos hsmall]
  · rw [if_neg hsmall, if_neg hsmall]

end Numeral

namespace Notation

/-- Whether the text of a double is that of a numeral with the double as its value. -/
def ReadsBack (x : Float) : Prop :=
  (Numeral.scan '.' 0 (literal.text x)).toOption.map Numeral.floatValue = some x

instance (x : Float) : Decidable (ReadsBack x) := inferInstanceAs (Decidable (_ = _))

theorem exists_numeral {x : Float} (hnan : x.isNaN = false) (hinf : x.isInf = false)
    (hsign : Binary64.isNegative x = false) (h : ReadsBack x) :
    ∃ n : Numeral, n.Proper ∧ n.text = literal.text x ∧ n.whole ≠ [] ∧
      n.value? = some (.float x) := by
  have hunsigned : literal.text x = literal.unsignedText x := by
    simp only [text, hnan, hinf, hsign, Bool.false_eq_true, if_false]
  obtain ⟨n, hproper, htext, hne, hmarked⟩ := isFloatText_unsigned x
  have hscan := Numeral.scan_text hproper Numeral.stops_nil 0
  rw [List.append_nil, htext, ← hunsigned] at hscan
  have hvalue : n.floatValue = x := by
    rw [ReadsBack, hscan] at h
    exact Option.some.inj h
  refine ⟨n, hproper, htext.trans hunsigned.symm, hne, ?_⟩
  have hdigits : n.mantissaDigits.isEmpty = false := by
    simp [Numeral.mantissaDigits, hne]
  rw [Numeral.value?, hdigits, hvalue]
  simp [hmarked]

end Notation

end Decimal

namespace Spells

variable {v : Vocabulary}

theorem natural (k : Nat) : Spells v (Nat.toDigits 10 k)
    (if k < 2 ^ 63 then .integer (Int64.ofNat k) else .float (Numeral.ofNat k).floatValue) := by
  have hproper := Numeral.proper_ofNat k
  have hne : (Numeral.ofNat k).whole ≠ [] := Nat.toDigits_ne_nil
  have hvalue := Numeral.value?_ofNat k
  rw [← Numeral.text_ofNat]
  split
  case isTrue hsmall =>
    rw [if_pos hsmall] at hvalue
    exact integer hproper hne hvalue
  case isFalse hlarge =>
    rw [if_neg hlarge] at hvalue
    exact float hproper hne hvalue

theorem unsigned {x : Float} (hnan : x.isNaN = false) (hinf : x.isInf = false)
    (hsign : Binary64.isNegative x = false) (h : Notation.ReadsBack x) :
    Spells v (Notation.literal.text x) (.float x) := by
  obtain ⟨n, hproper, htext, hne, hvalue⟩ := Notation.exists_numeral hnan hinf hsign h
  rw [← htext]
  exact float hproper hne hvalue

end Spells

end FormulaEngine
