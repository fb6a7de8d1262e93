import FormulaEngine.Proofs.WritingAssembly

/-!
Images of assemblies. Assembly puts trees together and joins their spans, but it looks at neither.
So a change of trees that keeps operators and calls, and a change of spans that keeps joins, can be
made before a token is taken in as well as after it. If it keeps names and literals too, it can be
made before anything is read: a formula is read alike in all forms of trees.
-/
namespace FormulaEngine

/-- A change of the trees and of the spans in an assembly, to another form of trees perhaps. -/
structure Image (τ τ' : Type) [TreeForm τ] [TreeForm τ'] where
  tree : τ → τ'
  span : Span → Span
  negate : ∀ t, tree (TreeForm.negate t) = TreeForm.negate (tree t)
  binary : ∀ op left right,
    tree (TreeForm.binary op left right) = TreeForm.binary op (tree left) (tree right)
  call : ∀ name arguments idempotent,
    tree (TreeForm.call name arguments idempotent) =
      TreeForm.call name (arguments.map tree) idempotent
  cover : ∀ a b, span (a.cover b) = (span a).cover (span b)

namespace Image

/-- What leaves spans alone keeps the span of two parts. -/
theorem id_cover (a b : Span) : id (a.cover b) = (id a).cover (id b) := rfl

variable {τ τ' : Type} [TreeForm τ] [TreeForm τ'] (f : Image τ τ')

def operand (operand : Operand τ) : Operand τ' := ⟨f.tree operand.tree, f.span operand.span⟩

def operands (s : Operands τ) : Operands τ' :=
  ⟨s.items.map f.operand, s.count, by simp [s.count_eq]⟩

def waiting : Waiting → Waiting
  | .operator op span => .operator op (f.span span)
  | .function callee span => .function callee (f.span span)
  | .leftBracket span => .leftBracket (f.span span)

def assembly (a : Assembly τ) : Assembly τ' :=
  ⟨a.waiting.map f.waiting, f.operands a.operands, a.calls⟩

def error (e : ParseError) : ParseError := { e with span := f.span e.span }

/-- What becomes of a result that is an assembly or a complaint. -/
def result : Except ParseError (Assembly τ) → Except ParseError (Assembly τ')
  | .error e => .error (f.error e)
  | .ok a => .ok (f.assembly a)

theorem drop_operands (s : Operands τ) (n : Nat) : (f.operands s).drop n = f.operands (s.drop n) :=
  Operands.ext (List.map_drop ..).symm

theorem pushOperand (a : Assembly τ) (t : τ) (span : Span) :
    (f.assembly a).pushOperand (f.tree t) (f.span span) = f.assembly (a.pushOperand t span) := rfl

theorem applyOperator (op : Operator) (span : Span) (a : Assembly τ) :
    (f.assembly a).applyOperator op (f.span span) = f.result (a.applyOperator op span) := by
  obtain ⟨waiting, ⟨items, count, hcount⟩, calls⟩ := a
  cases op with
  | unaryMinus =>
    cases items with
    | nil => rfl
    | cons argument items =>
      have hoperand : f.operand ⟨TreeForm.negate argument.tree, span.cover argument.span⟩ =
          ⟨TreeForm.negate (f.tree argument.tree), (f.span span).cover (f.span argument.span)⟩ := by
        rw [operand, f.negate, f.cover]
      refine congrArg Except.ok (congrArg (Assembly.mk _ · calls) (Operands.ext ?_))
      exact congrArg (· :: _) hoperand.symm
  | binary op =>
    rcases items with _ | ⟨right, _ | ⟨left, items⟩⟩
    · rfl
    · rfl
    · have hoperand :
          f.operand ⟨TreeForm.binary op left.tree right.tree, left.span.cover right.span⟩ =
          ⟨TreeForm.binary op (f.tree left.tree) (f.tree right.tree),
            (f.span left.span).cover (f.span right.span)⟩ := by
        rw [operand, f.binary, f.cover]
      refine congrArg Except.ok (congrArg (Assembly.mk _ · calls) (Operands.ext ?_))
      exact congrArg (· :: _) hoperand.symm

theorem foldl_cover (span : Span) (arguments : List (Operand τ)) :
    (arguments.map f.operand).foldl (fun span argument => span.cover argument.span)
        (f.span span) =
      f.span (arguments.foldl (fun span argument => span.cover argument.span) span) := by
  induction arguments generalizing span with
  | nil => rfl
  | cons argument arguments ih =>
    rw [List.map_cons, List.foldl_cons, List.foldl_cons, operand, ← f.cover, ih]

theorem applyCall (callee : Signature) (span : Span) (a : Assembly τ) :
    (f.assembly a).applyCall callee (f.span span) = f.result (a.applyCall callee span) := by
  obtain ⟨waiting, operands, calls⟩ := a
  cases calls with
  | nil => rfl
  | cons call calls =>
    have harguments : ((f.operands operands).items.take call.arguments).reverse =
        ((operands.items.take call.arguments).reverse).map f.operand := by
      rw [List.map_reverse, List.map_take]
      rfl
    rw [show f.assembly ⟨waiting, operands, call :: calls⟩ =
      ⟨waiting.map f.waiting, f.operands operands, call :: calls⟩ from rfl]
    unfold Assembly.applyCall
    dsimp only
    by_cases hrefused : (!callee.accepts call.arguments) = true
    · rw [if_pos hrefused, if_pos hrefused]
      rfl
    rw [if_neg hrefused, if_neg hrefused]
    rw [show (f.operands operands).count = operands.count from rfl]
    by_cases hcount : operands.count - call.base ≠ call.arguments
    · rw [if_pos hcount, if_pos hcount]
      rfl
    rw [if_neg hcount, if_neg hcount]
    by_cases hbelow : operands.count < call.base
    · rw [if_pos hbelow, if_pos hbelow]
      rfl
    · rw [if_neg hbelow, if_neg hbelow, harguments, f.drop_operands, f.foldl_cover, List.map_map]
      refine congrArg (fun operands => Except.ok (Assembly.mk _ operands calls)) ?_
      refine congrArg (Operands.push _) (congrArg (Operand.mk · _) ?_)
      rw [f.call, List.map_map]
      rfl

theorem apply (item : Waiting) (a : Assembly τ) :
    (f.assembly a).apply (f.waiting item) = f.result (a.apply item) := by
  cases item with
  | operator op span => exact f.applyOperator op span a
  | function callee span => exact f.applyCall callee span a
  | leftBracket span => rfl

/-- Which elements are ready must not depend on where they stand. -/
theorem applyWhile {ready : Waiting → Bool} (hready : ∀ item, ready (f.waiting item) = ready item)
    (items : List Waiting) (a : Assembly τ) :
    Assembly.applyWhile ready (items.map f.waiting) (f.assembly a) =
      f.result (Assembly.applyWhile ready items a) := by
  induction items generalizing a with
  | nil => rfl
  | cons item items ih =>
    rw [List.map_cons]
    unfold Assembly.applyWhile
    rw [hready, f.apply]
    split
    · cases a.apply item with
      | error e => rfl
      | ok b => exact ih b
    · rfl

theorem closeGroup (a : Assembly τ) : (f.assembly a).closeGroup = f.result a.closeGroup :=
  f.applyWhile (fun item => by cases item <;> rfl) a.waiting a

theorem addOperator (op : Operator) (span : Span) (a : Assembly τ) :
    (f.assembly a).addOperator op (f.span span) = f.result (a.addOperator op span) := by
  have happly : Assembly.applyWhile (Waiting.yieldsTo op) (a.waiting.map f.waiting) (f.assembly a) =
      f.result (Assembly.applyWhile (Waiting.yieldsTo op) a.waiting a) :=
    f.applyWhile (fun item => by cases item <;> rfl) a.waiting a
  unfold Assembly.addOperator
  rw [show (f.assembly a).waiting = a.waiting.map f.waiting from rfl, happly]
  cases Assembly.applyWhile (Waiting.yieldsTo op) a.waiting a <;> rfl

theorem updateCall? (update : Nat → Nat) (a : Assembly τ) :
    (f.assembly a).updateCall? update = (a.updateCall? update).map f.assembly := by
  obtain ⟨waiting, operands, calls⟩ := a
  rcases waiting with _ | ⟨_ | _ | _, _ | ⟨_ | _ | _, waiting⟩⟩ <;> cases calls <;> rfl

theorem addSeparator (span : Span) (a : Assembly τ) :
    (f.assembly a).addSeparator (f.span span) = f.result (a.addSeparator span) := by
  unfold Assembly.addSeparator
  rw [f.closeGroup]
  cases a.closeGroup with
  | error e => rfl
  | ok b =>
    dsimp only [result]
    rw [f.updateCall?]
    cases b.updateCall? (· + 1) <;> rfl

theorem addRightBracket (afterLeftBracket : Bool) (span : Span) (a : Assembly τ) :
    (f.assembly a).addRightBracket afterLeftBracket (f.span span) =
      f.result (a.addRightBracket afterLeftBracket span) := by
  have hclose : ∀ b : Assembly τ, (f.assembly b).addRightBracket false (f.span span) =
      f.result (b.addRightBracket false span) := by
    intro b
    simp only [Assembly.addRightBracket, Bool.false_eq_true, if_false, f.closeGroup]
    cases b.closeGroup with
    | error e => rfl
    | ok c =>
      obtain ⟨waiting, operands, calls⟩ := c
      rcases waiting with _ | ⟨_ | _ | _, waiting⟩ <;> rfl
  cases afterLeftBracket with
  | false => exact hclose a
  | true =>
    unfold Assembly.addRightBracket
    simp only [if_true, f.updateCall?]
    cases a.updateCall? fun _ => 0 with
    | none => rfl
    | some b => exact hclose b

def token (t : Token) : Token := { t with span := f.span t.span }

theorem startsWithLeftBracket (tokens : List Token) :
    Assembly.startsWithLeftBracket (tokens.map f.token) =
      Assembly.startsWithLeftBracket tokens := by
  cases tokens <;> rfl

/-- Whether a change keeps all that is read from a single token, and the place of what is not
there. -/
structure KeepsLeaves : Prop where
  nowhere : f.span ⟨0, 0⟩ = ⟨0, 0⟩
  integer : ∀ value, f.tree (TreeForm.integer value) = TreeForm.integer value
  float : ∀ value, f.tree (TreeForm.float value) = TreeForm.float value
  var : ∀ name, f.tree (TreeForm.var name) = TreeForm.var name
  bare : ∀ t, TreeForm.bare (f.tree t) = TreeForm.bare t

variable {f} (hf : f.KeepsLeaves)
include hf

namespace KeepsLeaves

theorem addName (v : Vocabulary) (name : String) (beforeLeftBracket : Bool) (span : Span)
    (a : Assembly τ) :
    (f.assembly a).addName v name beforeLeftBracket (f.span span) =
      f.result (a.addName v name beforeLeftBracket span) := by
  unfold Assembly.addName
  split
  · split <;> rfl
  · split
    · rw [← hf.float]
      rfl
    · rw [← hf.var]
      rfl

theorem add (v : Vocabulary) (afterLeftBracket beforeLeftBracket : Bool) (token : Token)
    (a : Assembly τ) :
    (f.assembly a).add v afterLeftBracket beforeLeftBracket (f.token token) =
      f.result (a.add v afterLeftBracket beforeLeftBracket token) := by
  obtain ⟨kind, span⟩ := token
  cases kind with
  | integer value =>
    unfold Assembly.add
    dsimp only [Image.token]
    rw [← hf.integer]
    rfl
  | float value =>
    unfold Assembly.add
    dsimp only [Image.token]
    rw [← hf.float]
    rfl
  | leftBracket => rfl
  | name name => exact hf.addName v name beforeLeftBracket span a
  | operator op => exact f.addOperator op span a
  | rightBracket => exact f.addRightBracket afterLeftBracket span a
  | separator => exact f.addSeparator span a

theorem addAll (v : Vocabulary) (afterLeftBracket : Bool) (tokens : List Token)
    (a : Assembly τ) :
    Assembly.addAll v afterLeftBracket (tokens.map f.token) (f.assembly a) =
      f.result (Assembly.addAll v afterLeftBracket tokens a) := by
  induction tokens generalizing afterLeftBracket a with
  | nil => rfl
  | cons token tokens ih =>
    rw [List.map_cons]
    unfold Assembly.addAll
    rw [f.startsWithLeftBracket, hf.add]
    cases a.add v afterLeftBracket (Assembly.startsWithLeftBracket tokens) token with
    | error e => rfl
    | ok b => exact ih _ b

theorem leftover (operand : Operand τ) :
    Assembly.leftover (f.operand operand) = f.error (Assembly.leftover operand) := by
  unfold Assembly.leftover
  rw [show (f.operand operand).tree = f.tree operand.tree from rfl, hf.bare]
  split <;> rfl

theorem finish (a : Assembly τ) :
    (f.assembly a).finish = (a.finish.map f.tree).mapError f.error := by
  have hnone : ParseError.mk .noOperands ⟨0, 0⟩ = f.error ⟨.noOperands, ⟨0, 0⟩⟩ := by
    rw [error, hf.nowhere]
  unfold Assembly.finish
  rw [f.closeGroup]
  cases a.closeGroup with
  | error e => rfl
  | ok b =>
    obtain ⟨waiting, operands, calls⟩ := b
    have hitems : (f.operands operands).items.reverse =
        operands.items.reverse.map f.operand := List.map_reverse.symm
    rcases waiting with _ | ⟨_ | _ | _, waiting⟩
    case cons.leftBracket => rfl
    all_goals
      dsimp only [result, assembly, Image.waiting, List.map_nil, List.map_cons]
      rw [hitems]
      rcases operands.items.reverse with _ | ⟨first, _ | ⟨second, items⟩⟩
      · exact congrArg Except.error hnone
      · rfl
      · exact congrArg Except.error (hf.leftover second)

/-- What is read from changed tokens is what becomes of what is read from the tokens. -/
theorem readTokens (v : Vocabulary) (tokens : List Token) :
    FormulaEngine.readTokens τ' v (tokens.map f.token) =
      ((FormulaEngine.readTokens τ v tokens).map f.tree).mapError f.error := by
  have hadded := hf.addAll v false tokens .empty
  rw [show f.assembly .empty = .empty from rfl] at hadded
  unfold FormulaEngine.readTokens
  rw [hadded]
  cases Assembly.addAll v false tokens (.empty : Assembly τ) with
  | error e => rfl
  | ok a => exact hf.finish a

end KeepsLeaves

end Image

section Places

open Image

/-- What is left of an assembly without the places of its parts. -/
def Image.placeless : Image Tree Tree where
  tree := id
  span _ := ⟨0, 0⟩
  negate _ := rfl
  binary _ _ _ := rfl
  call _ _ _ := by rw [List.map_id]; rfl
  cover _ _ := rfl

theorem Image.keepsLeaves_placeless : placeless.KeepsLeaves :=
  ⟨rfl, fun _ => rfl, fun _ => rfl, fun _ => rfl, fun _ => rfl⟩

/-- Tokens of the same kinds have the same tree, or are refused for the same cause. -/
theorem Tree.ofTokens_congr (v : Vocabulary) {tokens tokens' : List Token}
    (hkinds : tokens'.map Token.kind = tokens.map Token.kind) :
    (ofTokens v tokens').mapError ParseError.cause =
      (ofTokens v tokens).mapError ParseError.cause := by
  have hplaceless : ∀ tokens, (ofTokens v tokens).mapError ParseError.cause =
      (ofTokens v (tokens.map placeless.token)).mapError ParseError.cause := by
    intro tokens
    unfold ofTokens
    rw [keepsLeaves_placeless.readTokens]
    cases readTokens Tree v tokens <;> rfl
  have htokens : ∀ tokens : List Token, tokens.map placeless.token =
      (tokens.map Token.kind).map fun kind => ⟨kind, ⟨0, 0⟩⟩ := by
    intro tokens
    rw [List.map_map]
    rfl
  rw [hplaceless, hplaceless tokens, htokens, htokens, hkinds]

end Places

end FormulaEngine
