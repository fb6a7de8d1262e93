import FormulaEngine.Proofs.AssemblySteps
import FormulaEngine.Proofs.TreePasses
import Mathlib.Data.List.Basic

/-!
Conservation of tokens. Whatever row of tokens a tree is assembled from, no token is lost,
used twice or moved past another: the leaves of the tree are the operands of the row in
their order, each operator and each function name becomes one inner node, and the brackets
are balanced. This also holds where an operator takes operands that do not stand beside it.
-/
namespace FormulaEngine

/-- What an inner node is apart from its operands. -/
inductive Inner
  | operator (op : Operator)
  | call (name : String) (idempotent : Bool)
  deriving DecidableEq

namespace Node

def isLeaf : Node → Bool
  | integer _ | float _ | var _ => true
  | negate | binary _ | call _ _ _ => false

def inner? : Node → Option Inner
  | integer _ | float _ | var _ => none
  | negate => some (.operator .unaryMinus)
  | binary op => some (.operator (.binary op))
  | call name _ idempotent => some (.call name idempotent)

end Node

namespace Tree

/-- The literals and variables of a tree, from left to right. -/
def leaves (t : Tree) : List Node := t.postorder.filter Node.isLeaf

/-- The operators and calls of a tree. -/
def inners (t : Tree) : List Inner := t.postorder.filterMap Node.inner?

theorem leaves_eq (t : Tree) :
    t.leaves = t.children.flatMap leaves ++ [t.root].filter Node.isLeaf := by
  rw [leaves, postorder_eq, List.filter_append, List.filter_flatMap]
  rfl

theorem inners_eq (t : Tree) :
    t.inners = t.children.flatMap inners ++ t.root.inner?.toList := by
  rw [inners, postorder_eq, List.filterMap_append, List.filterMap_flatMap]
  cases h : t.root.inner? with
  | none => simp only [List.filterMap_cons_none h]; rfl
  | some inner => simp only [List.filterMap_cons_some h]; rfl

end Tree

namespace TokenKind

/-- The leaf that a token stands for: its number, the value of the constant that it names, or a
variable. -/
def leaf? (v : Vocabulary) : TokenKind → Option Node
  | integer value => some (.integer value)
  | float value => some (.float value)
  | name text =>
    match v.function? text, v.constant? text with
    | some _, _ => none
    | none, some value => some (.float value)
    | none, none => some (.var (v.variableName text))
  | operator _ | leftBracket | rightBracket | separator => none

/-- The inner node that a token stands for: its operator, or a call of the function that it
names. -/
def inner? (v : Vocabulary) : TokenKind → Option Inner
  | operator op => some (.operator op)
  | name text => (v.function? text).map fun callee => .call callee.name callee.idempotent
  | integer _ | float _ | leftBracket | rightBracket | separator => none

def isRightBracket : TokenKind → Bool
  | rightBracket => true
  | _ => false

/-- Whether every right bracket has a left bracket before it and every left bracket a right one
after it. -/
structure Balanced (kinds : List TokenKind) : Prop where
  opened : ∀ read, read <+: kinds → read.countP isRightBracket ≤ read.countP isLeftBracket
  closed : kinds.countP isRightBracket = kinds.countP isLeftBracket

end TokenKind

def Waiting.inner? : Waiting → Option Inner
  | operator op _ => some (.operator op)
  | function callee _ => some (.call callee.name callee.idempotent)
  | leftBracket _ => none

namespace Operands

variable {α : Type}

/-- What is found in the operands, the earliest first. -/
def collect (find : Tree → List α) (s : Operands) : List α :=
  s.items.reverse.flatMap fun operand => find operand.tree

theorem collect_push (find : Tree → List α) (s : Operands) (operand : Operand) :
    (s.push operand).collect find = s.collect find ++ find operand.tree := by
  simp [collect, push]

theorem collect_pushAll (find : Tree → List α) (s : Operands) (operands : List Operand) :
    (s.pushAll operands).collect find =
      s.collect find ++ (operands.map Operand.tree).flatMap find := by
  simp [collect, items_pushAll, List.flatMap_map]

end Operands

namespace Assembly

/-- The inner nodes of the operands, and those still to be made. -/
def inners (a : Assembly) : List Inner :=
  a.waiting.filterMap Waiting.inner? ++ a.operands.collect Tree.inners

/-- Whether an assembly holds what the tokens read so far stand for, and nothing else. -/
structure Accounts (v : Vocabulary) (read : List TokenKind) (a : Assembly) : Prop where
  leaves : a.operands.collect Tree.leaves = read.filterMap (TokenKind.leaf? v)
  inners : a.inners.Perm (read.filterMap (TokenKind.inner? v))
  opened : ∀ before, before <+: read →
    before.countP TokenKind.isRightBracket ≤ before.countP TokenKind.isLeftBracket
  open_brackets : read.countP TokenKind.isLeftBracket =
    read.countP TokenKind.isRightBracket + a.waiting.countP Waiting.isLeftBracket

theorem Reduction.collect_leaves {a b : Assembly} (h : Reduction a b) :
    b.operands.collect Tree.leaves = a.operands.collect Tree.leaves := by
  cases h with
  | negate argument =>
    simp [Operands.collect_push, Tree.leaves_eq (.negate _), Tree.children, Tree.root, Node.isLeaf]
  | binary op left right =>
    simp [Operands.collect_push, Tree.leaves_eq (.binary _ _ _), Tree.children, Tree.root,
      Node.isLeaf]
  | call haccepts =>
    simp [Operands.collect_push, Operands.collect_pushAll, Tree.leaves_eq (.call _ _ _),
      Tree.children, Tree.root, Node.isLeaf]

theorem Reduction.inners_perm {a b : Assembly} (h : Reduction a b) : b.inners.Perm a.inners := by
  rw [List.perm_iff_count]
  intro x
  cases h with
  | negate argument =>
    simp [inners, Operands.collect_push, Tree.inners_eq (.negate _), Tree.children, Tree.root,
      Node.inner?, Waiting.inner?, List.count_cons]
    omega
  | binary op left right =>
    simp [inners, Operands.collect_push, Tree.inners_eq (.binary _ _ _), Tree.children, Tree.root,
      Node.inner?, Waiting.inner?, List.count_cons]
    omega
  | call haccepts =>
    simp [inners, Operands.collect_push, Operands.collect_pushAll, Tree.inners_eq (.call _ _ _),
      Tree.children, Tree.root, Node.inner?, Waiting.inner?, List.count_cons]
    omega

theorem Reduction.countP_brackets {a b : Assembly} (h : Reduction a b) :
    b.waiting.countP Waiting.isLeftBracket = a.waiting.countP Waiting.isLeftBracket := by
  cases h <;> simp [Waiting.isLeftBracket]

theorem Reduction.accounts {v : Vocabulary} {read : List TokenKind} {a b : Assembly}
    (h : Reduction a b) (ha : a.Accounts v read) : b.Accounts v read where
  leaves := h.collect_leaves.trans ha.leaves
  inners := h.inners_perm.trans ha.inners
  opened := ha.opened
  open_brackets := by rw [h.countP_brackets, ha.open_brackets]

theorem accounts_empty (v : Vocabulary) : empty.Accounts v [] where
  leaves := rfl
  inners := .nil
  opened before hbefore := by rw [List.prefix_nil.mp hbefore]; exact Nat.le_refl _
  open_brackets := rfl

/-- One more token is accounted for if its leaf, its inner node and its bracket are added. -/
theorem Accounts.snoc {v : Vocabulary} {read : List TokenKind} {a b : Assembly} {kind : TokenKind}
    (ha : a.Accounts v read)
    (hleaves : b.operands.collect Tree.leaves =
      a.operands.collect Tree.leaves ++ (kind.leaf? v).toList)
    (hinners : b.inners.Perm (a.inners ++ (kind.inner? v).toList))
    (hbrackets : b.waiting.countP Waiting.isLeftBracket + [kind].countP TokenKind.isRightBracket =
      a.waiting.countP Waiting.isLeftBracket + [kind].countP TokenKind.isLeftBracket) :
    b.Accounts v (read ++ [kind]) := by
  have htotal : (read ++ [kind]).countP TokenKind.isLeftBracket =
      (read ++ [kind]).countP TokenKind.isRightBracket +
        b.waiting.countP Waiting.isLeftBracket := by
    have hread := ha.open_brackets
    rw [List.countP_append, List.countP_append]
    omega
  refine ⟨?_, ?_, fun before hbefore => ?_, htotal⟩
  · rw [hleaves, ha.leaves, List.filterMap_append]
    cases h : kind.leaf? v <;> simp [h]
  · refine hinners.trans ?_
    rw [List.filterMap_append]
    refine ha.inners.append ?_
    cases h : kind.inner? v <;> simp [h]
  · rcases List.prefix_concat_iff.mp hbefore with rfl | hbefore
    · omega
    · exact ha.opened before hbefore

theorem Accounts.pushOperand {v : Vocabulary} {read : List TokenKind} {a : Assembly}
    (ha : a.Accounts v read) {kind : TokenKind} {t : Tree}
    (hleaf : (kind.leaf? v).toList = t.leaves)
    (hinner : (kind.inner? v).toList = t.inners)
    (hbrackets : [kind].countP TokenKind.isRightBracket = [kind].countP TokenKind.isLeftBracket)
    (span : Span) : (a.pushOperand t span).Accounts v (read ++ [kind]) := by
  refine ha.snoc ?_ ?_ ?_
  · rw [hleaf]
    exact Operands.collect_push Tree.leaves a.operands ⟨t, span⟩
  · rw [hinner, Assembly.inners, Assembly.inners, List.append_assoc]
    exact List.Perm.of_eq (congrArg _ (Operands.collect_push Tree.inners a.operands ⟨t, span⟩))
  · rw [hbrackets]
    rfl

/-- An element that begins to wait stands for its inner node from then on. -/
theorem Accounts.wait {v : Vocabulary} {read : List TokenKind} {a : Assembly}
    (ha : a.Accounts v read) {kind : TokenKind} {item : Waiting} (hleaf : kind.leaf? v = none)
    (hinner : kind.inner? v = item.inner?)
    (hbrackets : [item].countP Waiting.isLeftBracket + [kind].countP TokenKind.isRightBracket =
      [kind].countP TokenKind.isLeftBracket) (calls : List OpenCall) :
    Accounts v (read ++ [kind]) ⟨item :: a.waiting, a.operands, calls⟩ := by
  refine ha.snoc ?_ ?_ ?_
  · rw [hleaf]
    exact (List.append_nil _).symm
  · rw [hinner]
    cases h : item.inner? with
    | none => simp [Assembly.inners, h]
    | some inner =>
      have hcomm : ([inner] ++ a.inners).Perm (a.inners ++ [inner]) := List.perm_append_comm
      simp only [Assembly.inners, List.filterMap_cons_some h, Option.toList_some]
      exact hcomm
  · rw [List.countP_cons]
    rw [List.countP_singleton] at hbrackets
    omega

/-- Punctuation stands for nothing but the bracket that it closes. -/
theorem Accounts.punctuate {v : Vocabulary} {read : List TokenKind} {a b : Assembly}
    (ha : a.Accounts v read) {kind : TokenKind} (hleaf : kind.leaf? v = none)
    (hinner : kind.inner? v = none) (hoperands : b.operands = a.operands)
    (hwaiting : b.waiting.filterMap Waiting.inner? = a.waiting.filterMap Waiting.inner?)
    (hbrackets : b.waiting.countP Waiting.isLeftBracket + [kind].countP TokenKind.isRightBracket =
      a.waiting.countP Waiting.isLeftBracket + [kind].countP TokenKind.isLeftBracket) :
    b.Accounts v (read ++ [kind]) := by
  refine ha.snoc ?_ ?_ hbrackets
  · rw [hleaf, hoperands]
    exact (List.append_nil _).symm
  · rw [hinner, Assembly.inners, Assembly.inners, hoperands, hwaiting]
    exact List.Perm.of_eq (List.append_nil _).symm

theorem Intake.accounts {v : Vocabulary} {read : List TokenKind}
    {afterLeftBracket beforeLeftBracket : Bool} {span : Span} {kind : TokenKind} {a b : Assembly}
    (h : Intake v afterLeftBracket beforeLeftBracket span kind a b) (ha : a.Accounts v read) :
    b.Accounts v (read ++ [kind]) := by
  cases h with
  | integer value => exact ha.pushOperand rfl rfl rfl span
  | float value => exact ha.pushOperand rfl rfl rfl span
  | constant hfunction hconstant =>
    refine ha.pushOperand ?_ ?_ rfl span
    · simp only [TokenKind.leaf?, hfunction, hconstant]
      rfl
    · simp only [TokenKind.inner?, hfunction]
      rfl
  | var hfunction hconstant =>
    refine ha.pushOperand ?_ ?_ rfl span
    · simp only [TokenKind.leaf?, hfunction, hconstant]
      rfl
    · simp only [TokenKind.inner?, hfunction]
      rfl
  | function hfunction =>
    refine ha.wait ?_ ?_ rfl _
    · simp only [TokenKind.leaf?, hfunction]
    · simp only [TokenKind.inner?, hfunction]
      rfl
  | operator op hreductions => exact (hreductions.keeps Reduction.accounts ha).wait rfl rfl rfl _
  | leftBracket => exact ha.wait rfl rfl rfl _
  | emptyList =>
    refine ha.punctuate rfl rfl rfl rfl ?_
    simp [List.countP_cons, Waiting.isLeftBracket, TokenKind.isLeftBracket,
      TokenKind.isRightBracket]
  | rightBracket _ hreductions =>
    refine (hreductions.keeps Reduction.accounts ha).punctuate rfl rfl rfl rfl ?_
    simp [List.countP_cons, Waiting.isLeftBracket, TokenKind.isLeftBracket,
      TokenKind.isRightBracket]
  | separator hreductions =>
    exact (hreductions.keeps Reduction.accounts ha).punctuate rfl rfl rfl rfl rfl

end Assembly

namespace Tree

theorem ofTokens_accounts {v : Vocabulary} {tokens : List Token} {t : Tree}
    (h : ofTokens v tokens = .ok t) :
    ∃ span calls, Assembly.Accounts v (tokens.map Token.kind)
      ⟨[], Operands.empty.push ⟨t, span⟩, calls⟩ := by
  obtain ⟨a, span, calls, hadd, hreductions⟩ := ofTokens_cases h
  have hstart : Assembly.addAll v (Assembly.endsWithLeftBracket []) tokens .empty = .ok a := hadd
  have hread := Assembly.addAll_keeps (P := fun read _ => Assembly.Accounts v read)
    Assembly.Intake.accounts hstart (Assembly.accounts_empty v)
  rw [List.nil_append] at hread
  exact ⟨span, calls, hreductions.keeps Assembly.Reduction.accounts hread⟩

/-- The leaves and inner nodes of a tree are those that its tokens stand for. -/
theorem leaves_and_inners_of_ofTokens {v : Vocabulary} {tokens : List Token} {t : Tree}
    (h : ofTokens v tokens = .ok t) :
    t.leaves = (tokens.map Token.kind).filterMap (TokenKind.leaf? v) ∧
      t.inners.Perm ((tokens.map Token.kind).filterMap (TokenKind.inner? v)) := by
  obtain ⟨span, calls, haccounts⟩ := ofTokens_accounts h
  constructor
  · rw [← haccounts.leaves, Operands.collect_push]
    rfl
  · have hinners := haccounts.inners
    rw [Assembly.inners, Operands.collect_push] at hinners
    exact hinners

/-- In a formula that is parsed no token is lost, used twice or moved: the leaves of the tree are
the operands of the text in their order, its operators and calls are the operators and function
names of the text, and the brackets of the text are balanced. -/
theorem parse_conserves {locale : Locale} {v : Vocabulary} {text : String} {t : Tree}
    (h : parse locale v text = .ok t) :
    ∃ tokens, Token.scan locale text.toList = .ok tokens ∧
      t.leaves = (tokens.map Token.kind).filterMap (TokenKind.leaf? v) ∧
      t.inners.Perm ((tokens.map Token.kind).filterMap (TokenKind.inner? v)) ∧
      TokenKind.Balanced (tokens.map Token.kind) := by
  obtain ⟨tokens, hscan, htokens⟩ := parse_cases h
  obtain ⟨hleaves, hinners⟩ := leaves_and_inners_of_ofTokens htokens
  obtain ⟨span, calls, haccounts⟩ := ofTokens_accounts htokens
  exact ⟨tokens, hscan, hleaves, hinners, haccounts.opened, haccounts.open_brackets.symm⟩

/-- The separator stands before both arguments, and still the two come in their order. -/
theorem parse_conserves_max :
    let max : Signature := ⟨"max", none, true, true⟩
    let v : Vocabulary :=
      ⟨fun name => if name = "max" then some max else none, fun _ => none, false⟩
    let t : Tree := .binary .subtract (.call "max" [.integer 1, .var "x"] true)
      (.negate (.integer 2))
    parse .enUs v "max(,1 X)- -2" = .ok t ∧
      ∃ tokens, Token.scan .enUs "max(,1 X)- -2".toList = .ok tokens ∧
        t.leaves = (tokens.map Token.kind).filterMap (TokenKind.leaf? v) ∧
        t.inners.Perm ((tokens.map Token.kind).filterMap (TokenKind.inner? v)) ∧
        TokenKind.Balanced (tokens.map Token.kind) := by
  intro max v t
  have h : parse .enUs v "max(,1 X)- -2" = .ok t := by with_unfolding_all rfl
  exact ⟨h, parse_conserves h⟩

end Tree

end FormulaEngine
