import FormulaEngine.Proofs.InfixWriting
import Mathlib.Data.List.Chain

/-!
The infix grammar of formulas, without precedence of operators and without regard to how
many arguments a function takes. In a sentence of it no operand stands directly after
another; a writing of a tree is a sentence.
-/
namespace FormulaEngine

namespace TokenKind

/-- Whether an operand may begin with such a token. -/
def startsOperand : TokenKind → Bool
  | integer _ | float _ | name _ | leftBracket | operator .unaryMinus => true
  | operator (.binary _) | rightBracket | separator => false

/-- Whether such a token, by the meaning of its name, is the last of an operand. -/
def endsOperand (v : Vocabulary) : TokenKind → Bool
  | integer _ | float _ | rightBracket => true
  | name text => (v.function? text).isNone
  | operator _ | leftBracket | separator => false

/-- Whether no operand stands directly after another. -/
def Apart (v : Vocabulary) (kinds : List TokenKind) : Prop :=
  kinds.IsChain fun kind next => kind.endsOperand v = true → next.startsOperand = false

end TokenKind

mutual

/-- `Expression v kinds`: tokens of these kinds are an operand expression. -/
inductive Expression (v : Vocabulary) : List TokenKind → Prop
  | integer (value : Int64) : Expression v [.integer value]
  | float (value : Float) : Expression v [.float value]
  | name {name : String} (hfunction : v.function? name = none) : Expression v [.name name]
  | bracketed {kinds : List TokenKind} (h : Expression v kinds) :
      Expression v (.leftBracket :: kinds ++ [.rightBracket])
  | negate {kinds : List TokenKind} (h : Expression v kinds) :
      Expression v (.operator .unaryMinus :: kinds)
  | call {name : String} {callee : Signature} {count : Nat} {kinds : List TokenKind}
      (hfunction : v.function? name = some callee) (h : Arguments v count kinds) :
      Expression v (.name name :: .leftBracket :: kinds ++ [.rightBracket])
  | binary (op : BinaryOperator) {kinds kinds' : List TokenKind} (hleft : Expression v kinds)
      (hright : Expression v kinds') : Expression v (kinds ++ .operator (.binary op) :: kinds')

/-- Operand expressions, as many as the number says, with single separators between them. -/
inductive Arguments (v : Vocabulary) : Nat → List TokenKind → Prop
  | none : Arguments v 0 []
  | last {kinds : List TokenKind} (h : Expression v kinds) : Arguments v 1 kinds
  | next {count : Nat} {kinds kinds' : List TokenKind} (h : Expression v kinds)
      (hrest : Arguments v (count + 1) kinds') :
      Arguments v (count + 2) (kinds ++ .separator :: kinds')

end

variable {v : Vocabulary}

mutual

theorem Writing.expression : ∀ {form : Form} {t : Tree} {kinds : List TokenKind},
    Writing v form t kinds → Expression v kinds
  | _, _, _, .integer value => .integer value
  | _, _, _, .float value => .float value
  | _, _, _, .constant hfunction _ => .name hfunction
  | _, _, _, .variable hfunction _ => .name hfunction
  | _, _, _, .bracketed h => .bracketed h.expression
  | _, _, _, .negate h _ => .negate h.expression
  | _, _, _, .call hfunction _ h => .call hfunction h.arguments
  | _, _, _, .binary hleft hright _ _ => .binary _ hleft.expression hright.expression

theorem ArgumentList.arguments : ∀ {ts : List Tree} {kinds : List TokenKind},
    ArgumentList v ts kinds → Arguments v ts.length kinds
  | _, _, .none => .none
  | _, _, .last h => .last h.expression
  | _, _, .next h hrest => .next h.expression hrest.arguments

end

theorem Expression.endsOperand : ∀ {kinds : List TokenKind}, Expression v kinds →
    kinds.getLast?.any (TokenKind.endsOperand v) = true
  | _, .integer _ | _, .float _ => rfl
  | _, .name hfunction => by simp [TokenKind.endsOperand, hfunction]
  | _, .bracketed _ | _, .call _ _ => by rw [List.getLast?_concat]; rfl
  | _, .negate h => by
    have hlast := h.endsOperand
    rw [List.getLast?_cons]
    revert hlast
    cases List.getLast? _ <;> simp
  | _, .binary _ _ hright => by
    have hlast := hright.endsOperand
    rw [List.getLast?_append, List.getLast?_cons]
    revert hlast
    cases List.getLast? _ <;> simp

namespace TokenKind

theorem Apart.cons {kind : TokenKind} (hend : kind.endsOperand v = false) {kinds : List TokenKind}
    (h : Apart v kinds) : Apart v (kind :: kinds) := by
  refine List.isChain_cons.mpr ⟨fun next _ hkind => ?_, h⟩
  rw [hend] at hkind
  cases hkind

theorem Apart.append {kinds kinds' : List TokenKind} (h : Apart v kinds) (h' : Apart v kinds')
    (hstart : ∀ kind ∈ kinds'.head?, kind.startsOperand = false) : Apart v (kinds ++ kinds') :=
  List.IsChain.append h h' fun _ _ kind hkind _ => hstart kind hkind

/-- What encloses an operand or stands between two keeps them apart. -/
theorem Apart.append_cons {kinds kinds' : List TokenKind} {kind : TokenKind} (h : Apart v kinds)
    (hstart : kind.startsOperand = false) (hend : kind.endsOperand v = false)
    (h' : Apart v kinds') : Apart v (kinds ++ kind :: kinds') := by
  refine h.append (h'.cons hend) fun other hother => ?_
  cases hother
  exact hstart

theorem Apart.bracketed {kinds : List TokenKind} (h : Apart v kinds) :
    Apart v (.leftBracket :: kinds ++ [.rightBracket]) := by
  refine (h.cons rfl).append (List.isChain_singleton _) fun other hother => ?_
  cases hother
  rfl

end TokenKind

mutual

/-- By induction on the expression: operands stand beside brackets, operators and separators
only. -/
theorem Expression.apart : ∀ {kinds : List TokenKind}, Expression v kinds → TokenKind.Apart v kinds
  | _, .integer _ | _, .float _ | _, .name _ => List.isChain_singleton _
  | _, .bracketed h => h.apart.bracketed
  | _, .negate h => h.apart.cons rfl
  | _, .call hfunction h => h.apart.bracketed.cons (by simp [TokenKind.endsOperand, hfunction])
  | _, .binary _ hleft hright => hleft.apart.append_cons rfl rfl hright.apart

theorem Arguments.apart : ∀ {count : Nat} {kinds : List TokenKind}, Arguments v count kinds →
    TokenKind.Apart v kinds
  | _, _, .none => .nil
  | _, _, .last h => h.apart
  | _, _, .next h hrest => h.apart.append_cons rfl rfl hrest.apart

end

end FormulaEngine
