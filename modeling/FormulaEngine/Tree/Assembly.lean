import FormulaEngine.ParseError
import FormulaEngine.Token.Scan
import FormulaEngine.Tree
import FormulaEngine.Vocabulary

/-!
From tokens to a tree. Operands wait on one stack, and on another the operators,
functions and left brackets that wait for operands; an operator takes its operands
when a token arrives that cannot belong to them. A third stack counts the arguments
of the calls that are still waiting, one record for each waiting function. What is put
together can be any form of trees.
-/
namespace FormulaEngine

variable {τ : Type}

structure Operand (τ : Type := Tree) where
  tree : τ
  span : Span

/-- Operands, the latest first, with their number kept at hand. -/
structure Operands (τ : Type := Tree) where
  items : List (Operand τ)
  count : Nat
  count_eq : count = items.length

namespace Operands

def empty : Operands τ := ⟨[], 0, rfl⟩

def push (s : Operands τ) (operand : Operand τ) : Operands τ :=
  ⟨operand :: s.items, s.count + 1, by simp [s.count_eq]⟩

/-- The operands without the latest `n`. -/
def drop (s : Operands τ) (n : Nat) : Operands τ :=
  ⟨s.items.drop n, s.count - n, by simp [s.count_eq]⟩

end Operands

/-- What waits for operands. -/
inductive Waiting
  | operator (op : Operator) (span : Span)
  | function (callee : Signature) (span : Span)
  | leftBracket (span : Span)

/-- A call that waits for its arguments. -/
structure OpenCall where
  /-- The number of arguments begun so far. -/
  arguments : Nat
  /-- The number of operands that were there before the first argument. -/
  base : Nat

/-- The part of a formula read so far; the latest element of each stack comes first. -/
structure Assembly (τ : Type := Tree) where
  waiting : List Waiting
  operands : Operands τ
  calls : List OpenCall

namespace Assembly

def empty : Assembly τ := ⟨[], .empty, []⟩

def pushOperand (a : Assembly τ) (tree : τ) (span : Span) : Assembly τ :=
  { a with operands := a.operands.push ⟨tree, span⟩ }

section Application

variable [TreeForm τ]

def applyOperator (op : Operator) (span : Span) (a : Assembly τ) :
    Except ParseError (Assembly τ) :=
  match op, a.operands.items with
  | .unaryMinus, argument :: _ =>
    .ok ({ a with operands := a.operands.drop 1 }.pushOperand
      (TreeForm.negate argument.tree) (span.cover argument.span))
  | .binary op, right :: left :: _ =>
    .ok ({ a with operands := a.operands.drop 2 }.pushOperand
      (TreeForm.binary op left.tree right.tree) (left.span.cover right.span))
  | op, _ => .error ⟨.missingOperand op.symbol, span⟩

/-- The call of a function with the operands above the base of its record. If operators took away
operands from below the base, there is no call to be made of what is left, and if no argument is
missing either, reading breaks down. -/
def applyCall (callee : Signature) (span : Span) (a : Assembly τ) :
    Except ParseError (Assembly τ) :=
  match a.calls with
  | [] => .error ⟨.noArgumentList callee.name, span⟩
  | call :: calls =>
    if !callee.accepts call.arguments then
      .error ⟨.argumentCount callee.name (callee.arity.getD 0) call.arguments, span⟩
    else if a.operands.count - call.base ≠ call.arguments then
      .error ⟨.missingArgument callee.name, span⟩
    else if a.operands.count < call.base then
      .error ⟨.breakdown callee.name, span⟩
    else
      let arguments := (a.operands.items.take call.arguments).reverse
      let tree := TreeForm.call callee.name (arguments.map Operand.tree) callee.idempotent
      let span := arguments.foldl (fun span argument => span.cover argument.span) span
      .ok ({ a with operands := a.operands.drop call.arguments, calls }.pushOperand tree span)

/-- Gives a waiting element, already off its stack, the operands it waits for. -/
def apply (item : Waiting) (a : Assembly τ) : Except ParseError (Assembly τ) :=
  match item with
  | .operator op span => a.applyOperator op span
  | .function callee span => a.applyCall callee span
  | .leftBracket _ => .ok a

/-- Applies the waiting elements from the latest on while `ready` holds of them. -/
def applyWhile (ready : Waiting → Bool) :
    List Waiting → Assembly τ → Except ParseError (Assembly τ)
  | [], a => .ok { a with waiting := [] }
  | item :: rest, a =>
    if ready item then
      match a.apply item with
      | .error e => .error e
      | .ok a => applyWhile ready rest a
    else .ok { a with waiting := item :: rest }

end Application

end Assembly

namespace Waiting

/-- Whether the element has all its operands when the operator `next` arrives. -/
def yieldsTo (next : Operator) : Waiting → Bool
  | operator op _ => next.pops op
  | function _ _ => true
  | leftBracket _ => false

def isLeftBracket : Waiting → Bool
  | leftBracket _ => true
  | _ => false

end Waiting

namespace Assembly

variable [TreeForm τ]

def addOperator (a : Assembly τ) (op : Operator) (span : Span) : Except ParseError (Assembly τ) :=
  match applyWhile (Waiting.yieldsTo op) a.waiting a with
  | .error e => .error e
  | .ok a => .ok { a with waiting := .operator op span :: a.waiting }

/-- Applies everything that waits above the latest left bracket. -/
def closeGroup (a : Assembly τ) : Except ParseError (Assembly τ) :=
  applyWhile (fun item => !item.isLeftBracket) a.waiting a

/-- Changes the argument count of the call whose list was opened by the latest left bracket. -/
def updateCall? (a : Assembly τ) (update : Nat → Nat) : Option (Assembly τ) :=
  match a.waiting, a.calls with
  | .leftBracket _ :: .function _ _ :: _, call :: calls =>
    some { a with calls := { call with arguments := update call.arguments } :: calls }
  | _, _ => none

def addSeparator (a : Assembly τ) (span : Span) : Except ParseError (Assembly τ) :=
  match a.closeGroup with
  | .error e => .error e
  | .ok a =>
    match a.updateCall? (· + 1) with
    | some a => .ok a
    | none => .error ⟨.unexpectedSeparator, span⟩

def addRightBracket (a : Assembly τ) (afterLeftBracket : Bool) (span : Span) :
    Except ParseError (Assembly τ) :=
  match if afterLeftBracket then a.updateCall? (fun _ => 0) else some a with
  | none => .error ⟨.emptyBrackets, span⟩
  | some a =>
    match a.closeGroup with
    | .error e => .error e
    | .ok a =>
      match a.waiting with
      | .leftBracket _ :: waiting => .ok { a with waiting }
      | _ => .error ⟨.missingLeftBracket, span⟩

def addName (a : Assembly τ) (vocabulary : Vocabulary) (name : String) (beforeLeftBracket : Bool)
    (span : Span) : Except ParseError (Assembly τ) :=
  match vocabulary.function? name with
  | some callee =>
    if beforeLeftBracket then
      .ok { a with
        waiting := .function callee span :: a.waiting
        calls := ⟨1, a.operands.count⟩ :: a.calls }
    else .error ⟨.functionWithoutArguments name, span⟩
  | none =>
    match vocabulary.constant? name with
    | some value => .ok (a.pushOperand (TreeForm.float value) span)
    | none => .ok (a.pushOperand (TreeForm.var (vocabulary.variableName name)) span)

def add (vocabulary : Vocabulary) (afterLeftBracket beforeLeftBracket : Bool) (token : Token)
    (a : Assembly τ) : Except ParseError (Assembly τ) :=
  match token.kind with
  | .integer value => .ok (a.pushOperand (TreeForm.integer value) token.span)
  | .float value => .ok (a.pushOperand (TreeForm.float value) token.span)
  | .name text => a.addName vocabulary text beforeLeftBracket token.span
  | .operator op => a.addOperator op token.span
  | .leftBracket => .ok { a with waiting := .leftBracket token.span :: a.waiting }
  | .rightBracket => a.addRightBracket afterLeftBracket token.span
  | .separator => a.addSeparator token.span

end Assembly

def TokenKind.isLeftBracket : TokenKind → Bool
  | leftBracket => true
  | _ => false

namespace Assembly

def startsWithLeftBracket (tokens : List Token) : Bool :=
  tokens.head?.any fun token => token.kind.isLeftBracket

def addAll [TreeForm τ] (vocabulary : Vocabulary) :
    Bool → List Token → Assembly τ → Except ParseError (Assembly τ)
  | _, [], a => .ok a
  | afterLeftBracket, token :: rest, a =>
    match a.add vocabulary afterLeftBracket (startsWithLeftBracket rest) token with
    | .error e => .error e
    | .ok a => addAll vocabulary token.kind.isLeftBracket rest a

/-- The complaint about an operand that no operator took. -/
def leftover [TreeForm τ] (operand : Operand τ) : ParseError :=
  match TreeForm.bare operand.tree with
  | .integer value => ⟨.leftoverInteger value, operand.span⟩
  | .float value => ⟨.leftoverFloat value, operand.span⟩
  | _ => ⟨.leftoverOperand, operand.span⟩

/-- The tree of a formula whose last token was read. -/
def finish [TreeForm τ] (a : Assembly τ) : Except ParseError τ :=
  match a.closeGroup with
  | .error e => .error e
  | .ok a =>
    match a.waiting with
    | .leftBracket span :: _ => .error ⟨.missingRightBracket, span⟩
    | _ =>
      match a.operands.items.reverse with
      | [] => .error ⟨.noOperands, ⟨0, 0⟩⟩
      | [operand] => .ok operand.tree
      | _ :: operand :: _ => .error (leftover operand)

end Assembly

/-- What tokens are put together as, in any form of trees. -/
def readTokens (τ : Type) [TreeForm τ] (vocabulary : Vocabulary) (tokens : List Token) :
    Except ParseError τ :=
  match Assembly.addAll vocabulary false tokens .empty with
  | .error e => .error e
  | .ok a => a.finish

/-- What a formula text is read as, in any form of trees. -/
def readFormula (τ : Type) [TreeForm τ] (locale : Locale) (vocabulary : Vocabulary)
    (text : String) : Except ParseError τ :=
  match Token.scan locale text.toList with
  | .error e => .error e
  | .ok [] => .error ⟨.emptyFormula, ⟨0, text.toList.length⟩⟩
  | .ok tokens => readTokens τ vocabulary tokens

namespace Tree

def ofTokens (vocabulary : Vocabulary) (tokens : List Token) : Except ParseError Tree :=
  readTokens Tree vocabulary tokens

/-- The tree of a formula text. -/
def parse (locale : Locale) (vocabulary : Vocabulary) (text : String) : Except ParseError Tree :=
  readFormula Tree locale vocabulary text

end Tree

end FormulaEngine
