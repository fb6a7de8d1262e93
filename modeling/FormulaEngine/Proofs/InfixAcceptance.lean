import FormulaEngine.Proofs.AssemblySteps
import FormulaEngine.Proofs.InfixGrammar
import Mathlib

/-!
Which formulas are accepted besides infix ones. Assembly looks at the heights of its stacks
only, and these are right for an operator as soon as there are enough operands before it.
But where no operand stands directly after another, a token in a wrong place leaves the
stacks one operand short for good. So a formula that is accepted is an infix formula, read
as it is written, unless operands stand side by side in it.
-/
namespace FormulaEngine

namespace Operands

theorem push_inj {s s' : Operands} {operand operand' : Operand}
    (h : s.push operand = s'.push operand') : s = s' ∧ operand = operand' := by
  obtain ⟨hoperand, hitems⟩ := List.cons.inj (congrArg items h)
  exact ⟨ext hitems, hoperand⟩

theorem pushAll_concat (s : Operands) (operands : List Operand) (operand : Operand) :
    s.pushAll (operands ++ [operand]) = (s.pushAll operands).push operand := by
  simp [pushAll]

theorem pushAll_inj {s s' : Operands} {operands operands' : List Operand}
    (hlength : operands.length = operands'.length)
    (h : s.pushAll operands = s'.pushAll operands') : s = s' ∧ operands = operands' := by
  have hitems := congrArg items h
  rw [items_pushAll, items_pushAll] at hitems
  obtain ⟨hoperands, hrest⟩ := List.append_inj hitems (by simpa using hlength)
  exact ⟨ext hrest, List.reverse_injective hoperands⟩

end Operands

namespace Waiting

def isBinary : Waiting → Bool
  | operator (.binary _) _ => true
  | _ => false

def isFunction : Waiting → Bool
  | function _ _ => true
  | _ => false

end Waiting

namespace TokenKind

/-- Whether the last of these tokens ends an operand. -/
def endOperand (v : Vocabulary) (read : List TokenKind) : Bool :=
  read.getLast?.any (endsOperand v)

theorem endOperand_concat (v : Vocabulary) (read : List TokenKind) (kind : TokenKind) :
    endOperand v (read ++ [kind]) = kind.endsOperand v := by
  simp [endOperand]

theorem endOperand_append {v : Vocabulary} (read : List TokenKind) {kinds : List TokenKind}
    (h : endOperand v kinds = true) : endOperand v (read ++ kinds) = true := by
  rw [endOperand, List.getLast?_append]
  revert h
  unfold endOperand
  cases List.getLast? kinds <;> simp

theorem Apart.endOperand_eq_false {v : Vocabulary} {read rest : List TokenKind} {kind : TokenKind}
    (h : Apart v (read ++ kind :: rest)) (hstart : kind.startsOperand = true) :
    endOperand v read = false := by
  unfold endOperand
  cases hlast : read.getLast? with
  | none => rfl
  | some last =>
    have hnext := (List.isChain_append.mp h).2.2 last hlast kind rfl
    rw [hstart] at hnext
    simpa using hnext

end TokenKind

namespace Assembly

open TokenKind

section Results

variable {waiting : List Waiting} {operands : Operands} {calls : List OpenCall} {b : Assembly}

theorem Reduction.negate_eq {argument : Operand} {minus : Span}
    (h : Reduction ⟨.operator .unaryMinus minus :: waiting, operands.push argument, calls⟩ b) :
    b = ⟨waiting, operands.push ⟨.negate argument.tree, minus.cover argument.span⟩, calls⟩ := by
  generalize hs : operands.push argument = s at h
  cases h
  obtain ⟨rfl, rfl⟩ := Operands.push_inj hs
  rfl

theorem Reduction.binary_eq {op : BinaryOperator} {left right : Operand} {middle : Span}
    (h : Reduction ⟨.operator (.binary op) middle :: waiting,
      (operands.push left).push right, calls⟩ b) :
    b = ⟨waiting, operands.push ⟨.binary op left.tree right.tree, left.span.cover right.span⟩,
      calls⟩ := by
  generalize hs : (operands.push left).push right = s at h
  cases h
  obtain ⟨hlefts, rfl⟩ := Operands.push_inj hs
  obtain ⟨rfl, rfl⟩ := Operands.push_inj hlefts
  rfl

theorem Reduction.call_eq {callee : Signature} {name : Span} {arguments : List Operand}
    (h : Reduction ⟨.function callee name :: waiting, operands.pushAll arguments,
      ⟨arguments.length, operands.count⟩ :: calls⟩ b) :
    callee.accepts arguments.length = true ∧
    b = ⟨waiting, operands.push ⟨.call callee.name (arguments.map Operand.tree) callee.idempotent,
      arguments.foldl (fun span argument => span.cover argument.span) name⟩, calls⟩ := by
  generalize hs : operands.pushAll arguments = s at h
  generalize hcall : (⟨arguments.length, operands.count⟩ : OpenCall) = call at h
  cases h with
  | call haccepts =>
    obtain ⟨hlength, -⟩ := OpenCall.mk.inj hcall
    obtain ⟨rfl, rfl⟩ := Operands.pushAll_inj hlength hs
    exact ⟨haccepts, rfl⟩

end Results

/-- Arguments that a separator follows. -/
inductive Separated (v : Vocabulary) : List Tree → List TokenKind → Prop
  | none : Separated v [] []
  | next {ts : List Tree} {kinds : List TokenKind} (hbefore : Separated v ts kinds) {form : Form}
      {t : Tree} {kinds' : List TokenKind} (h : Writing v form t kinds') :
      Separated v (ts ++ [t]) (kinds ++ kinds' ++ [.separator])

/-- What the parts of an infix formula leave on the stacks when an operand must come next. -/
inductive Expecting (v : Vocabulary) :
    List TokenKind → List Waiting → Operands → List OpenCall → Prop
  | start : Expecting v [] [] .empty []
  | negate {read : List TokenKind} {waiting : List Waiting} {operands : Operands}
      {calls : List OpenCall} (h : Expecting v read waiting operands calls) (span : Span) :
      Expecting v (read ++ [.operator .unaryMinus]) (.operator .unaryMinus span :: waiting) operands
        calls
  | binary {read : List TokenKind} {waiting : List Waiting} {operands : Operands}
      {calls : List OpenCall} (h : Expecting v read waiting operands calls) {form : Form}
      {left : Operand} {kinds : List TokenKind} (hleft : Writing v form left.tree kinds)
      {op : BinaryOperator}
      (hpops : ∀ t, form = .binary t → (Operator.binary op).pops (.binary t) = true)
      (hawaits : ∀ item ∈ waiting.head?, item.yieldsTo (.binary op) = false) (span : Span) :
      Expecting v (read ++ kinds ++ [.operator (.binary op)])
        (.operator (.binary op) span :: waiting) (operands.push left) calls
  | bracket {read : List TokenKind} {waiting : List Waiting} {operands : Operands}
      {calls : List OpenCall} (h : Expecting v read waiting operands calls) (span : Span) :
      Expecting v (read ++ [.leftBracket]) (.leftBracket span :: waiting) operands calls
  | list {read : List TokenKind} {waiting : List Waiting} {operands : Operands}
      {calls : List OpenCall} (h : Expecting v read waiting operands calls) {name : String}
      {callee : Signature} (hfunction : v.function? name = some callee) {arguments : List Operand}
      {kinds : List TokenKind} (hbefore : Separated v (arguments.map Operand.tree) kinds)
      (span opened : Span) :
      Expecting v (read ++ .name name :: .leftBracket :: kinds)
        (.leftBracket opened :: .function callee span :: waiting) (operands.pushAll arguments)
        (⟨arguments.length + 1, operands.count⟩ :: calls)

/-- What they leave there when an operand of the given form is complete. The function of a call
that was read last may still wait for its arguments. -/
inductive Complete (v : Vocabulary) :
    Form → List TokenKind → List Waiting → Operands → List OpenCall → Prop
  | operand {read : List TokenKind} {waiting : List Waiting} {operands : Operands}
      {calls : List OpenCall} (h : Expecting v read waiting operands calls) {form : Form}
      {operand : Operand} {kinds : List TokenKind} (hwriting : Writing v form operand.tree kinds)
      (hawaits : ∀ item ∈ waiting.head?, item.yieldsTo form.operator = false) :
      Complete v form (read ++ kinds) waiting (operands.push operand) calls
  | call {read : List TokenKind} {waiting : List Waiting} {operands : Operands}
      {calls : List OpenCall} (h : Expecting v read waiting operands calls) {name : String}
      {callee : Signature} (hfunction : v.function? name = some callee) {arguments : List Operand}
      {kinds : List TokenKind} (hlist : ArgumentList v (arguments.map Operand.tree) kinds)
      (span : Span) :
      Complete v .closed (read ++ (.name name :: .leftBracket :: kinds ++ [.rightBracket]))
        (.function callee span :: waiting) (operands.pushAll arguments)
        (⟨arguments.length, operands.count⟩ :: calls)

variable {v : Vocabulary} {read : List TokenKind} {waiting : List Waiting} {operands : Operands}
  {calls : List OpenCall}

theorem Expecting.awaits (h : Expecting v read waiting operands calls) :
    ∀ item ∈ waiting.head?, item.yieldsTo .unaryMinus = false := by
  cases h with
  | start => nofun
  | negate => rintro _ ⟨⟩; rfl
  | binary => rintro _ ⟨⟩; exact Operator.unaryMinus_pops _
  | bracket => rintro _ ⟨⟩; rfl
  | list => rintro _ ⟨⟩; rfl

theorem Expecting.operand (h : Expecting v read waiting operands calls) {operand : Operand}
    {kinds : List TokenKind} (hwriting : Writing v .closed operand.tree kinds) :
    Complete v .closed (read ++ kinds) waiting (operands.push operand) calls :=
  .operand h hwriting h.awaits

/-- When an element takes its operands, the writing that is complete grows by what was read for
it. -/
theorem Reduction.complete {item : Waiting} {form : Form} {b : Assembly}
    (h : Reduction ⟨item :: waiting, operands, calls⟩ b)
    (hcomplete : Complete v form read (item :: waiting) operands calls) :
    ∃ form', Complete v form' read b.waiting b.operands b.calls ∧
      ∀ op, form' = .binary op → ∃ span, item = .operator (.binary op) span := by
  cases hcomplete with
  | operand hexpecting hwriting hawaits =>
    have hitem := hawaits item rfl
    cases hexpecting with
    | negate hexpecting span =>
      obtain rfl := h.negate_eq
      refine ⟨.unary, ?_, fun _ hop => by cases hop⟩
      rw [List.append_assoc]
      refine .operand hexpecting (hwriting.negate ?_) hexpecting.awaits
      rintro op rfl
      rw [Waiting.yieldsTo, Form.operator, Operator.binary_pops_unaryMinus] at hitem
      cases hitem
    | @binary read _ _ _ hexpecting _ _ kinds hleft op hpops hstays span =>
      obtain rfl := h.binary_eq
      refine ⟨.binary op, ?_, fun _ hop => ⟨span, by cases hop; rfl⟩⟩
      rw [List.append_assoc, List.append_assoc]
      refine .operand hexpecting (hleft.binary hwriting hpops ?_) hstays
      rintro op rfl
      exact hitem
    | bracket => cases h
    | list => cases h
  | call hexpecting hfunction hlist span =>
    obtain ⟨haccepts, rfl⟩ := h.call_eq
    refine ⟨.closed, ?_, fun _ hop => by cases hop⟩
    rw [← List.length_map] at haccepts
    exact hexpecting.operand (.call hfunction haccepts hlist)

theorem Reductions.complete {ready : Waiting → Bool} {form : Form} {a b : Assembly}
    (h : Reductions ready a b) (hcomplete : Complete v form read a.waiting a.operands a.calls)
    (hform : ∀ op, form = .binary op → ∃ span, ready (.operator (.binary op) span) = true) :
    ∃ form', Complete v form' read b.waiting b.operands b.calls ∧
      ∀ op, form' = .binary op → ∃ span, ready (.operator (.binary op) span) = true := by
  induction h generalizing form with
  | stop => exact ⟨form, hcomplete, hform⟩
  | step hready hreduction _ ih =>
    obtain ⟨form', hcomplete', hform'⟩ := hreduction.complete hcomplete
    refine ih hcomplete' fun op hop => ?_
    obtain ⟨span, rfl⟩ := hform' op hop
    exact ⟨span, hready⟩

theorem endOperand_of_endsWithLeftBracket (h : endsWithLeftBracket read = true) :
    endOperand v read = false := by
  obtain ⟨last, hlast, hbracket⟩ := Option.any_eq_true _ _ |>.mp h
  rw [endOperand, hlast]
  cases last <;> first | rfl | cases hbracket

theorem Separated.argumentList {ts us : List Tree} {kinds kinds' : List TokenKind}
    (h : Separated v ts kinds) (hlist : ArgumentList v us kinds') (hne : us ≠ []) :
    ArgumentList v (ts ++ us) (kinds ++ kinds') := by
  induction h generalizing us kinds' with
  | none => exact hlist
  | next _ hwriting ih =>
    obtain ⟨u, us, rfl⟩ := List.exists_cons_of_ne_nil hne
    simpa using ih (.next hwriting hlist) (List.cons_ne_nil _ _)

theorem Separated.endOperand {ts : List Tree} {kinds : List TokenKind} (h : Separated v ts kinds)
    (before : List TokenKind) (hbefore : endOperand v before = false) :
    endOperand v (before ++ kinds) = false := by
  cases h with
  | none => rwa [List.append_nil]
  | next => rw [← List.append_assoc, endOperand_concat]; rfl

theorem Separated.eq_nil {ts : List Tree} {kinds : List TokenKind} (h : Separated v ts kinds)
    {before : List TokenKind} (hlast : endsWithLeftBracket (before ++ kinds) = true) :
    ts = [] ∧ kinds = [] := by
  cases h with
  | none => exact ⟨rfl, rfl⟩
  | next =>
    rw [← List.append_assoc, endsWithLeftBracket, List.getLast?_concat] at hlast
    cases hlast

theorem Expecting.endOperand (h : Expecting v read waiting operands calls) :
    endOperand v read = false := by
  cases h with
  | start => rfl
  | negate | binary | bracket => rw [endOperand_concat]; rfl
  | @list read _ _ _ _ name _ _ _ kinds hbefore =>
    have hlist := hbefore.endOperand (read ++ [.name name, .leftBracket])
    rw [List.append_assoc] at hlist
    exact hlist (by simp [TokenKind.endOperand, endsOperand])

theorem Complete.endOperand {form : Form} (h : Complete v form read waiting operands calls) :
    endOperand v read = true := by
  cases h with
  | operand _ hwriting => exact endOperand_append _ hwriting.expression.endsOperand
  | call =>
    rw [← List.append_assoc, endOperand_concat]
    rfl

/-- What the tokens of an infix formula leave on the stacks, with some tokens still to come. -/
inductive Infix (v : Vocabulary) : List TokenKind → List TokenKind → Assembly → Prop
  | expecting {read : List TokenKind} (rest : List TokenKind) {waiting : List Waiting}
      {operands : Operands} {calls : List OpenCall} (h : Expecting v read waiting operands calls) :
      Infix v read rest ⟨waiting, operands, calls⟩
  | named {read rest : List TokenKind} {waiting : List Waiting} {operands : Operands}
      {calls : List OpenCall} (h : Expecting v read waiting operands calls) {name : String}
      {callee : Signature} (hfunction : v.function? name = some callee)
      (hnext : rest.head?.any isLeftBracket = true) (span : Span) :
      Infix v (read ++ [.name name]) rest
        ⟨.function callee span :: waiting, operands, ⟨1, operands.count⟩ :: calls⟩
  | complete {read : List TokenKind} (rest : List TokenKind) {waiting : List Waiting}
      {operands : Operands} {calls : List OpenCall}
      (h : Complete v .closed read waiting operands calls) :
      Infix v read rest ⟨waiting, operands, calls⟩

/-- The number of operands that would be left if everything that waits took its operands now. -/
def surplus (a : Assembly) : Int :=
  a.operands.count - a.waiting.countP Waiting.isBinary -
    (a.calls.map fun call => (call.arguments : Int) - 1).sum

theorem Reduction.surplus_eq {a b : Assembly} (h : Reduction a b) : b.surplus = a.surplus := by
  cases h <;>
    simp [surplus, Operands.push, Operands.count_pushAll, Waiting.isBinary, List.countP_cons]
  all_goals omega

theorem Reductions.surplus_eq {ready : Waiting → Bool} {a b : Assembly} (h : Reductions ready a b) :
    b.surplus = a.surplus := by
  exact h.keeps (P := fun c => c.surplus = a.surplus) (fun h hc => h.surplus_eq.trans hc) rfl

theorem Reductions.matched {ready : Waiting → Bool} {a b : Assembly} (h : Reductions ready a b)
    (ha : a.calls.length = a.waiting.countP Waiting.isFunction) :
    b.calls.length = b.waiting.countP Waiting.isFunction := by
  refine h.keeps (P := fun c => c.calls.length = c.waiting.countP Waiting.isFunction)
    (fun hreduction hc => ?_) ha
  cases hreduction <;> simpa [Waiting.isFunction, List.countP_cons] using hc

theorem Reductions.eq_self {ready : Waiting → Bool} {a b : Assembly} (h : Reductions ready a b)
    (hready : ∀ item ∈ a.waiting.head?, ready item = false) : b = a := by
  cases h with
  | stop => rfl
  | step hitem =>
    rw [hready _ rfl] at hitem
    cases hitem

theorem surplus_pushOperand (a : Assembly) (t : Tree) (span : Span) :
    (a.pushOperand t span).surplus = a.surplus + 1 := by
  simp [surplus, pushOperand, Operands.push]
  omega

/-- The invariant of assembly while no operand stands directly after another. There is never an
operand to spare, and as long as none is missing, the formula is infix so far. -/
structure Measured (v : Vocabulary) (read rest : List TokenKind) (a : Assembly) : Prop where
  surplus_le : a.surplus ≤ (endOperand v read).toNat
  isInfix : a.surplus = (endOperand v read).toNat → Infix v read rest a
  matched : a.calls.length = a.waiting.countP Waiting.isFunction
  /-- A function whose list is to be opened next has its first argument before it. -/
  named : endOperand v read = false → a.waiting.head?.any Waiting.isFunction = true →
    ∀ call ∈ a.calls.head?, call.arguments = 1
  opened : endsWithLeftBracket read = true → a.waiting.tail.head?.any Waiting.isFunction = true →
    ∀ call ∈ a.calls.head?, call.arguments = 1

theorem measured_empty (v : Vocabulary) (kinds : List TokenKind) : Measured v [] kinds .empty where
  surplus_le := Int.le_refl 0
  isInfix _ := .expecting kinds .start
  matched := rfl
  named _ h := by cases h
  opened h := by cases h

section Intakes

variable {rest : List TokenKind} {kind : TokenKind} {a b : Assembly}

theorem Infix.expects (h : Infix v read (kind :: rest) a) (hend : endOperand v read = false)
    (hkind : kind.isLeftBracket = false) : Expecting v read a.waiting a.operands a.calls := by
  cases h with
  | expecting _ h => exact h
  | named _ _ hnext =>
    rw [List.head?_cons, Option.any_some, hkind] at hnext
    cases hnext
  | complete _ h =>
    rw [h.endOperand] at hend
    cases hend

theorem Infix.completes (h : Infix v read rest a) (hend : endOperand v read = true) :
    Complete v .closed read a.waiting a.operands a.calls := by
  cases h with
  | expecting _ h =>
    rw [h.endOperand] at hend
    cases hend
  | named _ hfunction =>
    rw [endOperand_concat, endsOperand, hfunction] at hend
    cases hend
  | complete _ h => exact h

/-- What is missing after a token was missing before it or goes missing with it. -/
theorem Measured.snoc (ha : a.Measured v read (kind :: rest))
    (hsurplus : b.surplus - (kind.endsOperand v).toNat ≤ a.surplus - (endOperand v read).toNat)
    (hreading : b.surplus - (kind.endsOperand v).toNat = a.surplus - (endOperand v read).toNat →
      Infix v read (kind :: rest) a → Infix v (read ++ [kind]) rest b)
    (hmatched : b.calls.length = b.waiting.countP Waiting.isFunction)
    (hnamed : kind.endsOperand v = false → b.waiting.head?.any Waiting.isFunction = true →
      ∀ call ∈ b.calls.head?, call.arguments = 1)
    (hopened : kind.isLeftBracket = true → b.waiting.tail.head?.any Waiting.isFunction = true →
      ∀ call ∈ b.calls.head?, call.arguments = 1) :
    b.Measured v (read ++ [kind]) rest := by
  have hle := ha.surplus_le
  constructor
  · rw [endOperand_concat]
    omega
  · rw [endOperand_concat]
    intro heq
    exact hreading (by omega) (ha.isInfix (by omega))
  · exact hmatched
  · rwa [endOperand_concat]
  · intro hlast
    exact hopened (by simpa [endsWithLeftBracket] using hlast)

/-- The same for a token that can only follow an operand. -/
theorem Measured.snoc_of_complete (ha : a.Measured v read (kind :: rest))
    (hsurplus : b.surplus + 1 = a.surplus + (kind.endsOperand v).toNat)
    (hreading : Complete v .closed read a.waiting a.operands a.calls →
      Infix v (read ++ [kind]) rest b)
    (hmatched : b.calls.length = b.waiting.countP Waiting.isFunction)
    (hnamed : kind.endsOperand v = false → b.waiting.head?.any Waiting.isFunction = true →
      ∀ call ∈ b.calls.head?, call.arguments = 1)
    (hopened : kind.isLeftBracket = true → b.waiting.tail.head?.any Waiting.isFunction = true →
      ∀ call ∈ b.calls.head?, call.arguments = 1) :
    b.Measured v (read ++ [kind]) rest := by
  have hended := (endOperand v read).toNat_le
  refine ha.snoc (by omega) (fun heq h => hreading (h.completes ?_)) hmatched hnamed hopened
  exact Bool.toNat_eq_one.mp (by omega)

theorem Measured.pushOperand (ha : a.Measured v read (kind :: rest))
    (hapart : Apart v (read ++ kind :: rest)) {t : Tree} (hwriting : Writing v .closed t [kind])
    (hstart : kind.startsOperand = true) (hend : kind.endsOperand v = true)
    (hkind : kind.isLeftBracket = false) (span : Span) :
    (a.pushOperand t span).Measured v (read ++ [kind]) rest := by
  have hread := hapart.endOperand_eq_false hstart
  refine ha.snoc ?_ ?_ ha.matched ?_ ?_
  · rw [surplus_pushOperand, hread, hend]
    simp
  · intro _ hreading
    have hoperand : Complete v .closed (read ++ [kind]) a.waiting (a.operands.push ⟨t, span⟩)
        a.calls := (hreading.expects hread hkind).operand hwriting
    exact .complete rest hoperand
  · intro h
    rw [hend] at h
    cases h
  · intro h
    rw [hkind] at h
    cases h

theorem Measured.beginFunction (ha : a.Measured v read (kind :: rest))
    (hapart : Apart v (read ++ kind :: rest)) {name : String} (hkind : kind = .name name)
    {callee : Signature} (hfunction : v.function? name = some callee)
    (hnext : rest.head?.any isLeftBracket = true) (span : Span) :
    Measured v (read ++ [kind]) rest
      ⟨.function callee span :: a.waiting, a.operands, ⟨1, a.operands.count⟩ :: a.calls⟩ := by
  subst hkind
  have hread := hapart.endOperand_eq_false rfl
  have hend : (TokenKind.name name).endsOperand v = false := by
    rw [endsOperand, hfunction]
    rfl
  refine ha.snoc ?_ ?_ ?_ ?_ nofun
  · rw [hread, hend]
    simp [surplus, Waiting.isBinary]
  · intro _ hreading
    exact .named (hreading.expects hread rfl) hfunction hnext span
  · rw [List.length_cons, List.countP_cons, ha.matched]
    rfl
  · rintro - - call ⟨⟩
    rfl

theorem Measured.beginNegation (ha : a.Measured v read (.operator .unaryMinus :: rest))
    (hapart : Apart v (read ++ .operator .unaryMinus :: rest))
    (hreductions : Reductions (Waiting.yieldsTo .unaryMinus) a b) (span : Span) :
    Measured v (read ++ [.operator .unaryMinus]) rest
      { b with waiting := .operator .unaryMinus span :: b.waiting } := by
  have hread := hapart.endOperand_eq_false rfl
  have hsurplus := hreductions.surplus_eq
  refine ha.snoc ?_ ?_ ?_ nofun nofun
  · rw [hread, ← hsurplus]
    simp [surplus, endsOperand, Waiting.isBinary]
  · intro _ hreading
    have hexpecting := hreading.expects hread rfl
    obtain rfl := hreductions.eq_self hexpecting.awaits
    exact .expecting rest (hexpecting.negate span)
  · simpa [Waiting.isFunction] using hreductions.matched ha.matched

theorem Measured.beginRight {op : BinaryOperator}
    (ha : a.Measured v read (.operator (.binary op) :: rest))
    (hreductions : Reductions (Waiting.yieldsTo (.binary op)) a b) (span : Span) :
    Measured v (read ++ [.operator (.binary op)]) rest
      { b with waiting := .operator (.binary op) span :: b.waiting } := by
  refine ha.snoc_of_complete ?_ ?_ ?_ nofun nofun
  · rw [← hreductions.surplus_eq]
    simp [surplus, endsOperand, Waiting.isBinary, List.countP_cons]
    omega
  · intro hcomplete
    obtain ⟨form, hcomplete, hform⟩ := hreductions.complete hcomplete nofun
    have hstopped := hreductions.not_ready
    obtain ⟨waiting, operands, calls⟩ := b
    cases hcomplete with
    | operand h hwriting =>
      refine .expecting rest (h.binary hwriting (fun t ht => ?_) hstopped span)
      obtain ⟨_, hpops⟩ := hform t ht
      exact hpops
    | call => cases hstopped _ rfl
  · simpa [Waiting.isFunction] using hreductions.matched ha.matched

theorem Measured.openGroup (ha : a.Measured v read (.leftBracket :: rest))
    (hapart : Apart v (read ++ .leftBracket :: rest)) (span : Span) :
    Measured v (read ++ [.leftBracket]) rest
      { a with waiting := .leftBracket span :: a.waiting } := by
  have hread := hapart.endOperand_eq_false rfl
  refine ha.snoc ?_ ?_ ?_ nofun (fun _ => ha.named hread)
  · rw [hread]
    simp [surplus, endsOperand, Waiting.isBinary]
  · intro _ hreading
    cases hreading with
    | expecting _ h => exact .expecting rest (h.bracket span)
    | @named _ _ _ operands _ h _ _ hfunction _ name =>
      have hnone : Separated v (([] : List Operand).map Operand.tree) [] := .none
      rw [List.append_assoc]
      exact .expecting rest (h.list hfunction hnone name span)
    | complete _ h =>
      rw [h.endOperand] at hread
      cases hread
  · simpa [Waiting.isFunction] using ha.matched

theorem Measured.closeEmptyList {opened name : Span} {callee : Signature} {call : OpenCall}
    (ha : Measured v read (.rightBracket :: rest)
      ⟨.leftBracket opened :: .function callee name :: waiting, operands, call :: calls⟩)
    (hafter : endsWithLeftBracket read = true) :
    Measured v (read ++ [.rightBracket]) rest
      ⟨.function callee name :: waiting, operands, { call with arguments := 0 } :: calls⟩ := by
  have hread := endOperand_of_endsWithLeftBracket (v := v) hafter
  have hcall : call.arguments = 1 := ha.opened hafter rfl call rfl
  refine ha.snoc ?_ ?_ ?_ nofun nofun
  · rw [hread]
    simp only [surplus, Waiting.isBinary, Bool.false_eq_true, not_false_eq_true,
      List.countP_cons_of_neg, List.map_cons, List.sum_cons, endsOperand, Bool.toNat_true,
      Bool.toNat_false, hcall]
    omega
  · intro _ hreading
    cases hreading.expects hread rfl with
    | bracket h => cases h
    | list h hfunction hbefore span =>
      rw [List.append_cons, List.append_cons] at hafter
      obtain ⟨hnone, rfl⟩ := hbefore.eq_nil hafter
      obtain rfl := List.map_eq_nil_iff.mp hnone
      have hlist : ArgumentList v (([] : List Operand).map Operand.tree) [] := .none
      rw [List.append_assoc]
      exact .complete rest (.call h hfunction hlist _)
  · simpa [Waiting.isFunction] using ha.matched

theorem Measured.closeGroup {opened : Span} (ha : a.Measured v read (.rightBracket :: rest))
    (hreductions : Reductions Waiting.inGroup a ⟨.leftBracket opened :: waiting, operands, calls⟩) :
    Measured v (read ++ [.rightBracket]) rest ⟨waiting, operands, calls⟩ := by
  refine ha.snoc_of_complete ?_ ?_ ?_ nofun nofun
  · rw [← hreductions.surplus_eq]
    simp [surplus, endsOperand, Waiting.isBinary]
  · intro hcomplete
    obtain ⟨form, hcomplete, -⟩ := hreductions.complete hcomplete nofun
    cases hcomplete with
    | @operand _ _ _ _ hexpecting _ last kinds' hwriting =>
      cases hexpecting with
      | bracket h =>
        rw [List.append_assoc, List.append_assoc]
        exact .complete rest (h.operand hwriting.bracketed)
      | @list _ _ _ _ h _ _ hfunction arguments kinds hbefore name =>
        have hlist : ArgumentList v ((arguments ++ [last]).map Operand.tree) (kinds ++ kinds') := by
          rw [List.map_append]
          exact hbefore.argumentList (.last hwriting) (List.cons_ne_nil _ _)
        have hcall := Complete.call h hfunction hlist name
        rw [Operands.pushAll_concat, List.length_append, List.cons_append, List.cons_append,
          List.append_assoc] at hcall
        rw [List.append_assoc, List.append_assoc]
        exact .complete rest hcall
  · simpa [Waiting.isFunction] using hreductions.matched ha.matched

theorem Measured.beginArgument {opened name : Span} {callee : Signature} {call : OpenCall}
    (ha : a.Measured v read (.separator :: rest))
    (hreductions : Reductions Waiting.inGroup a
      ⟨.leftBracket opened :: .function callee name :: waiting, operands, call :: calls⟩) :
    Measured v (read ++ [.separator]) rest
      ⟨.leftBracket opened :: .function callee name :: waiting, operands,
        { call with arguments := call.arguments + 1 } :: calls⟩ := by
  refine ha.snoc_of_complete ?_ ?_ ?_ nofun nofun
  · rw [← hreductions.surplus_eq]
    simp [surplus, endsOperand, Waiting.isBinary]
    omega
  · intro hcomplete
    obtain ⟨form, hcomplete, -⟩ := hreductions.complete hcomplete nofun
    cases hcomplete with
    | @operand _ _ _ _ hexpecting _ last kinds' hwriting =>
      cases hexpecting with
      | bracket h => cases h
      | @list _ _ _ _ h _ _ hfunction arguments kinds hbefore =>
        have hnext : Separated v ((arguments ++ [last]).map Operand.tree)
            (kinds ++ kinds' ++ [.separator]) := by
          rw [List.map_append]
          exact hbefore.next hwriting
        have hlist := h.list hfunction hnext name opened
        rw [Operands.pushAll_concat, List.length_append, List.append_assoc] at hlist
        rw [List.append_assoc, List.append_assoc]
        exact .expecting rest hlist
  · simpa [Waiting.isFunction] using hreductions.matched ha.matched

theorem Intake.measured {span : Span}
    (h : Intake v (endsWithLeftBracket read) (rest.head?.any isLeftBracket) span kind a b)
    (hapart : Apart v (read ++ kind :: rest)) (ha : a.Measured v read (kind :: rest)) :
    b.Measured v (read ++ [kind]) rest := by
  cases h with
  | integer value => exact ha.pushOperand hapart (.integer value) rfl rfl rfl span
  | float value => exact ha.pushOperand hapart (.float value) rfl rfl rfl span
  | constant hfunction hconstant =>
    exact ha.pushOperand hapart (.constant hfunction hconstant) rfl
      (by rw [endsOperand, hfunction]; rfl) rfl span
  | var hfunction hconstant =>
    exact ha.pushOperand hapart (.variable hfunction hconstant) rfl
      (by rw [endsOperand, hfunction]; rfl) rfl span
  | function hfunction hbefore =>
    exact ha.beginFunction hapart rfl hfunction hbefore span
  | operator op hreductions =>
    cases op with
    | unaryMinus => exact ha.beginNegation hapart hreductions span
    | binary op => exact ha.beginRight hreductions span
  | leftBracket => exact ha.openGroup hapart span
  | emptyList hafter => exact ha.closeEmptyList hafter
  | rightBracket _ hreductions => exact ha.closeGroup hreductions
  | separator hreductions => exact ha.beginArgument hreductions

end Intakes

/-- Tokens among which no operand stands directly after another are an infix writing of the tree
that they are assembled to. -/
theorem writing_of_apart {tokens : List Token} {t : Tree} (h : Tree.ofTokens v tokens = .ok t)
    (hapart : Apart v (tokens.map Token.kind)) :
    ∃ form, Writing v form t (tokens.map Token.kind) := by
  obtain ⟨a, span, calls, hadd, hreductions⟩ := Tree.ofTokens_cases h
  have hstart : addAll v (endsWithLeftBracket []) tokens .empty = .ok a := hadd
  have hmeasured := addAll_keeps
    (P := fun read rest a => Apart v (read ++ rest) → a.Measured v read rest)
    (fun hintake ha happart => by
      rw [List.append_assoc] at happart
      exact hintake.measured happart (ha happart))
    hstart (fun _ => measured_empty v _)
  rw [List.nil_append, List.append_nil] at hmeasured
  replace hmeasured := hmeasured hapart
  -- Nothing waits in the end, so nothing was missing before.
  have hcalls : calls = [] := List.length_eq_zero_iff.mp (hreductions.matched hmeasured.matched)
  subst hcalls
  have hsurplus : a.surplus = 1 := by
    rw [← hreductions.surplus_eq]
    rfl
  have hle := hmeasured.surplus_le
  have hended := (endOperand v (tokens.map Token.kind)).toNat_le
  have hread : endOperand v (tokens.map Token.kind) = true := Bool.toNat_eq_one.mp (by omega)
  have hreading := hmeasured.isInfix (by rw [hsurplus, hread]; rfl)
  obtain ⟨form, hcomplete, -⟩ := hreductions.complete (hreading.completes hread) nofun
  generalize tokens.map Token.kind = kinds at hcomplete ⊢
  generalize hlast : Operands.empty.push ⟨t, span⟩ = operands at hcomplete
  cases hcomplete with
  | operand hexpecting hwriting =>
    cases hexpecting with
    | start =>
      obtain ⟨-, rfl⟩ := Operands.push_inj hlast
      exact ⟨form, hwriting⟩

end Assembly

namespace Tree

/-- A formula that is accepted is an infix formula if and only if no operand stands directly after
another in it, and then it is an infix writing of its tree. -/
theorem parse_infix_iff {locale : Locale} {v : Vocabulary} {text : String} {t : Tree}
    (h : parse locale v text = .ok t) :
    ∃ tokens, Token.scan locale text.toList = .ok tokens ∧
      (Expression v (tokens.map Token.kind) ↔ TokenKind.Apart v (tokens.map Token.kind)) ∧
      (Expression v (tokens.map Token.kind) →
        ∃ form, Writing v form t (tokens.map Token.kind)) := by
  obtain ⟨tokens, hscan, htokens⟩ := parse_cases h
  refine ⟨tokens, hscan, ⟨Expression.apart, fun hapart => ?_⟩, fun hexpression => ?_⟩
  · obtain ⟨form, hwriting⟩ := Assembly.writing_of_apart htokens hapart
    exact hwriting.expression
  · exact Assembly.writing_of_apart htokens hexpression.apart

private def noNames : Vocabulary := ⟨fun _ => none, fun _ => none, false⟩

theorem parse_infix_iff_sum :
    parse .enUs noNames "-(x + 1)" = .ok (.negate (.binary .add (.var "x") (.integer 1))) ∧
      ∃ tokens, Token.scan .enUs "-(x + 1)".toList = .ok tokens ∧
        (Expression noNames (tokens.map Token.kind) ↔
          TokenKind.Apart noNames (tokens.map Token.kind)) ∧
        (Expression noNames (tokens.map Token.kind) → ∃ form,
          Writing noNames form (.negate (.binary .add (.var "x") (.integer 1)))
            (tokens.map Token.kind)) := by
  have h : parse .enUs noNames "-(x + 1)" =
      .ok (.negate (.binary .add (.var "x") (.integer 1))) := by with_unfolding_all rfl
  exact ⟨h, parse_infix_iff h⟩

/-- An operator after its operands is accepted. -/
theorem parse_postfix_sum :
    ∃ tokens t, Token.scan .enUs "1 2 +".toList = .ok tokens ∧
      parse .enUs noNames "1 2 +" = .ok t ∧ ¬ Expression noNames (tokens.map Token.kind) := by
  refine ⟨[⟨.integer 1, ⟨0, 1⟩⟩, ⟨.integer 2, ⟨2, 3⟩⟩, ⟨.operator (.binary .add), ⟨4, 5⟩⟩],
    .binary .add (.integer 1) (.integer 2), by with_unfolding_all rfl,
    by with_unfolding_all rfl, ?_⟩
  intro hexpression
  have hapart := hexpression.apart
  simp [TokenKind.Apart, TokenKind.startsOperand, TokenKind.endsOperand] at hapart

end Tree

end FormulaEngine
