import FormulaEngine.Token
import FormulaEngine.Tree
import FormulaEngine.Vocabulary

/-!
The infix writings of a tree. An operand may stand without brackets where the operators
on both sides of it leave it whole; brackets may be put around any writing as often as
one likes. How a writing ends and begins decides where it may stand.
-/
namespace FormulaEngine

namespace Operator

theorem pops_iff (next stacked : Operator) :
    next.pops stacked = true ↔ next.precedence < stacked.precedence ∨
      next.groupsLeft = true ∧ next.precedence = stacked.precedence := by
  simp [pops]

/-- What is left alone by an operator is left alone by those that it takes. -/
theorem pops_eq_false_of_pops {next taken stacked : Operator} (htaken : next.pops taken = true)
    (hstacked : next.pops stacked = false) : taken.pops stacked = false := by
  rw [pops_iff] at htaken
  rw [← Bool.not_eq_true, pops_iff, not_or, not_and] at hstacked ⊢
  obtain ⟨hlower, hgroups⟩ := hstacked
  rcases htaken with htaken | ⟨hleft, htaken⟩
  · exact ⟨by omega, fun _ => by omega⟩
  · have := hgroups hleft
    exact ⟨by omega, fun _ => by omega⟩

/-- What takes an operator takes those that leave it alone. -/
theorem pops_of_pops {next stacked right : Operator} (hstacked : next.pops stacked = true)
    (hright : right.pops stacked = false) : next.pops right = true := by
  rw [pops_iff] at hstacked ⊢
  rw [← Bool.not_eq_true, pops_iff, not_or, not_and] at hright
  obtain ⟨hlower, -⟩ := hright
  rcases hstacked with hstacked | ⟨hleft, hstacked⟩
  · exact Or.inl (by omega)
  · rcases Nat.lt_or_eq_of_le (Nat.le_of_not_lt hlower) with hlt | heq
    · exact Or.inl (by omega)
    · exact Or.inr ⟨hleft, by omega⟩

theorem unaryMinus_pops (stacked : Operator) : unaryMinus.pops stacked = false := by
  cases stacked with
  | unaryMinus => rfl
  | binary op => cases op <;> rfl

theorem binary_pops_unaryMinus (op : BinaryOperator) :
    (binary op).pops unaryMinus = true := by
  cases op <;> rfl

end Operator

/-- How a writing is put together at its outermost level. -/
inductive Form
  | closed
  | unary
  | binary (op : BinaryOperator)

mutual

/-- `Writing v form t kinds`: tokens of these kinds are an infix writing of the tree. -/
inductive Writing (v : Vocabulary) : Form → Tree → List TokenKind → Prop
  | integer (value : Int64) : Writing v .closed (.integer value) [.integer value]
  | float (value : Float) : Writing v .closed (.float value) [.float value]
  | constant {name : String} {value : Float} (hfunction : v.function? name = none)
      (hconstant : v.constant? name = some value) :
      Writing v .closed (.float value) [.name name]
  | variable {name : String} (hfunction : v.function? name = none)
      (hconstant : v.constant? name = none) :
      Writing v .closed (.var (v.variableName name)) [.name name]
  | bracketed {form : Form} {t : Tree} {kinds : List TokenKind} (h : Writing v form t kinds) :
      Writing v .closed t (.leftBracket :: kinds ++ [.rightBracket])
  | negate {form : Form} {t : Tree} {kinds : List TokenKind} (h : Writing v form t kinds)
      (hform : ∀ op, form ≠ .binary op) :
      Writing v .unary (.negate t) (.operator .unaryMinus :: kinds)
  | call {name : String} {callee : Signature} {arguments : List Tree} {kinds : List TokenKind}
      (hfunction : v.function? name = some callee)
      (haccepts : callee.accepts arguments.length = true) (h : ArgumentList v arguments kinds) :
      Writing v .closed (.call callee.name arguments callee.idempotent)
        (.name name :: .leftBracket :: kinds ++ [.rightBracket])
  | binary {form form' : Form} {op : BinaryOperator} {left right : Tree}
      {kinds kinds' : List TokenKind} (hleft : Writing v form left kinds)
      (hright : Writing v form' right kinds')
      (hpops : ∀ t, form = .binary t → (Operator.binary op).pops (.binary t) = true)
      (hkeeps : ∀ p, form' = .binary p → (Operator.binary p).pops (.binary op) = false) :
      Writing v (.binary op) (.binary op left right)
        (kinds ++ .operator (.binary op) :: kinds')

/-- Writings of the arguments of a call, with separators between them. -/
inductive ArgumentList (v : Vocabulary) : List Tree → List TokenKind → Prop
  | none : ArgumentList v [] []
  | last {form : Form} {t : Tree} {kinds : List TokenKind} (h : Writing v form t kinds) :
      ArgumentList v [t] kinds
  | next {form : Form} {t u : Tree} {ts : List Tree} {kinds kinds' : List TokenKind}
      (h : Writing v form t kinds) (hrest : ArgumentList v (u :: ts) kinds') :
      ArgumentList v (t :: u :: ts) (kinds ++ .separator :: kinds')

end

end FormulaEngine
