import FormulaEngine.Proofs.InfixWriting
import FormulaEngine.Tree.Assembly

/-!
Assembly of infix writings. What the tokens of a writing leave waiting comes down, as
soon as it is applied, to one operand: the tree that is written. It is applied when the
writing ends, for nothing that may follow takes a part of it.
-/
namespace FormulaEngine

theorem Operands.ext {τ : Type} {s s' : Operands τ} (h : s.items = s'.items) : s = s' := by
  obtain ⟨items, count, hcount⟩ := s
  obtain ⟨items', count', hcount'⟩ := s'
  dsimp only at h
  subst h hcount hcount'
  rfl

namespace Operands

theorem drop_push (s : Operands) (operand : Operand) : (s.push operand).drop 1 = s := ext rfl

theorem drop_push_push (s : Operands) (left right : Operand) :
    ((s.push left).push right).drop 2 = s := ext rfl

/-- The operands with more of them, the first of which was pushed first. -/
def pushAll (s : Operands) (operands : List Operand) : Operands := operands.foldl push s

theorem items_pushAll (s : Operands) (operands : List Operand) :
    (s.pushAll operands).items = operands.reverse ++ s.items := by
  induction operands generalizing s with
  | nil => rfl
  | cons operand operands ih =>
    rw [pushAll, List.foldl_cons, ← pushAll, ih, List.reverse_cons, List.append_assoc]
    rfl

theorem count_pushAll (s : Operands) (operands : List Operand) :
    (s.pushAll operands).count = s.count + operands.length := by
  rw [count_eq, count_eq, items_pushAll, List.length_append, List.length_reverse, Nat.add_comm]

theorem take_pushAll (s : Operands) (operands : List Operand) :
    (s.pushAll operands).items.take operands.length = operands.reverse := by
  rw [items_pushAll]
  exact List.take_left' operands.length_reverse

theorem drop_pushAll (s : Operands) (operands : List Operand) :
    (s.pushAll operands).drop operands.length = s := by
  apply ext
  change (s.pushAll operands).items.drop operands.length = s.items
  rw [items_pushAll]
  exact List.drop_left' operands.length_reverse

end Operands

namespace Form

/-- The operator that is applied last outside of all brackets; nothing is taken from within a closed
writing, as if its operator bound most tightly. -/
def operator : Form → Operator
  | closed | unary => .unaryMinus
  | binary op => .binary op

theorem pops_operator {form : Form} {op : BinaryOperator}
    (h : ∀ t, form = .binary t → (Operator.binary op).pops (.binary t) = true) :
    (Operator.binary op).pops form.operator = true := by
  cases form with
  | binary t => exact h t rfl
  | _ => exact Operator.binary_pops_unaryMinus op

theorem operator_pops {form : Form} {op : BinaryOperator}
    (h : ∀ p, form = .binary p → (Operator.binary p).pops (.binary op) = false) :
    form.operator.pops (.binary op) = false := by
  cases form with
  | binary p => exact h p rfl
  | _ => exact Operator.unaryMinus_pops _

end Form

namespace Assembly

/-- What waits plays no part in what an element does. -/
theorem apply_waiting (item : Waiting) (a : Assembly) (waiting : List Waiting) :
    apply item { a with waiting } =
      match apply item a with
      | .ok b => .ok { b with waiting }
      | .error e => .error e := by
  cases item with
  | operator op span =>
    simp only [apply, applyOperator]
    split <;> rfl
  | function callee span =>
    simp only [apply, applyCall]
    split
    · rfl
    · split
      · rfl
      · split
        · rfl
        · split <;> rfl
  | leftBracket span => rfl

theorem applyWhile_waiting (ready : Waiting → Bool) (items : List Waiting) (a : Assembly)
    (waiting : List Waiting) :
    applyWhile ready items { a with waiting } = applyWhile ready items a := by
  induction items generalizing a waiting with
  | nil => rfl
  | cons item items ih =>
    rw [applyWhile, applyWhile, apply_waiting]
    split
    · cases apply item a with
      | error e => rfl
      | ok b => exact ih b waiting
    · rfl

theorem applyWhile_congr {a b : Assembly} (hoperands : a.operands = b.operands)
    (hcalls : a.calls = b.calls) (ready : Waiting → Bool) (items : List Waiting) :
    applyWhile ready items a = applyWhile ready items b := by
  rw [← applyWhile_waiting ready items b a.waiting, ← hoperands, ← hcalls]

theorem applyWhile_cons {ready : Waiting → Bool} {item : Waiting} (hready : ready item = true)
    {a b : Assembly} (h : a.apply item = .ok b) (items : List Waiting) :
    applyWhile ready (item :: items) a = applyWhile ready items b := by
  rw [applyWhile, if_pos hready, h]

theorem apply_unaryMinus (a : Assembly) (t : Tree) (minus span : Span) :
    (a.pushOperand t span).apply (.operator .unaryMinus minus) =
      .ok (a.pushOperand (.negate t) (minus.cover span)) := by
  change Except.ok (pushOperand { a with operands := (a.operands.push ⟨t, span⟩).drop 1 } _ _) = _
  rw [Operands.drop_push]
  rfl

theorem apply_binary (a : Assembly) (op : BinaryOperator) (left right : Tree)
    (middle before after : Span) :
    ((a.pushOperand left before).pushOperand right after).apply (.operator (.binary op) middle) =
      .ok (a.pushOperand (.binary op left right) (before.cover after)) := by
  change Except.ok (pushOperand { a with
    operands := ((a.operands.push ⟨left, before⟩).push ⟨right, after⟩).drop 2 } _ _) = _
  rw [Operands.drop_push_push]
  rfl

/-- Nothing is applied if the latest element is not ready. -/
theorem applyWhile_of_not_ready {ready : Waiting → Bool} {items : List Waiting}
    (h : ∀ item ∈ items.head?, ready item = false) (a : Assembly) :
    applyWhile ready items a = .ok { a with waiting := items } := by
  cases items with
  | nil => rfl
  | cons item items =>
    rw [applyWhile, h item rfl]
    rfl

/-- Whether a writing of the given form can begin: no element that waits takes the operands that
belong to it. -/
def Awaits (form : Form) (a : Assembly) : Prop :=
  ∀ item ∈ a.waiting.head?, item.yieldsTo form.operator = false

/-- Whether `b` is what `a` becomes by a writing of the tree. The elements added to those that wait
come down to the tree, and yield to every operator that takes the writing as a whole. -/
def Gains (form : Form) (t : Tree) (a b : Assembly) : Prop :=
  ∃ added span, b.waiting = added ++ a.waiting ∧
    (∀ item ∈ added, item.isLeftBracket = false ∧
      ∀ op : BinaryOperator, (Operator.binary op).pops form.operator = true →
        item.yieldsTo (.binary op) = true) ∧
    ∀ ready below, (∀ item ∈ added, ready item = true) →
      applyWhile ready (added ++ below) b = applyWhile ready below (a.pushOperand t span)

/-- Whether tokens of these kinds are taken in as one operand. -/
def Reads (v : Vocabulary) (form : Form) (t : Tree) (kinds : List TokenKind) : Prop :=
  ∀ (tokens rest : List Token) (afterLeftBracket : Bool) (a : Assembly),
    tokens.map Token.kind = kinds → a.Awaits form →
      ∃ b, addAll v afterLeftBracket (tokens ++ rest) a = addAll v false rest b ∧ a.Gains form t b

theorem gains_pushOperand (t : Tree) (span : Span) (a : Assembly) :
    a.Gains .closed t (a.pushOperand t span) :=
  ⟨[], span, rfl, by simp, fun _ _ _ => rfl⟩

variable {v : Vocabulary}

theorem Gains.closeGroup {form : Form} {t : Tree} {a b : Assembly} (h : a.Gains form t b)
    (hbracket : ∀ item ∈ a.waiting.head?, item.isLeftBracket = true) :
    ∃ span, b.closeGroup = .ok (a.pushOperand t span) := by
  obtain ⟨added, span, hwaiting, hadded, happly⟩ := h
  refine ⟨span, ?_⟩
  rw [Assembly.closeGroup, hwaiting, happly _ _ fun item hitem => by simp [(hadded item hitem).1],
    applyWhile_of_not_ready fun item hitem => by simp [hbracket item hitem]]
  rfl

theorem Gains.addOperator {form : Form} {t : Tree} {a b : Assembly} (h : a.Gains form t b)
    {op : BinaryOperator} (hpops : (Operator.binary op).pops form.operator = true)
    (hawaits : a.Awaits (.binary op)) (operatorSpan : Span) :
    ∃ span, b.addOperator (.binary op) operatorSpan =
      .ok { a.pushOperand t span with
        waiting := .operator (.binary op) operatorSpan :: a.waiting } := by
  obtain ⟨added, span, hwaiting, hadded, happly⟩ := h
  have hleave : ∀ item ∈ a.waiting.head?, item.yieldsTo (.binary op) = false := hawaits
  refine ⟨span, ?_⟩
  rw [Assembly.addOperator, hwaiting, happly _ _ fun item hitem => (hadded item hitem).2 op hpops,
    applyWhile_of_not_ready hleave]

theorem addAll_cons {afterLeftBracket : Bool} {token : Token} {rest : List Token} {a b : Assembly}
    (h : a.add v afterLeftBracket (startsWithLeftBracket rest) token = .ok b) :
    addAll v afterLeftBracket (token :: rest) a = addAll v token.kind.isLeftBracket rest b := by
  rw [addAll, h]

theorem reads_operand {t : Tree} {kind : TokenKind} (hkind : kind.isLeftBracket = false)
    (hadd : ∀ afterLeftBracket beforeLeftBracket span a,
      add v afterLeftBracket beforeLeftBracket ⟨kind, span⟩ a = .ok (a.pushOperand t span)) :
    Reads v .closed t [kind] := by
  intro tokens rest afterLeftBracket a htokens _
  obtain ⟨⟨kind', span⟩, rfl, rfl⟩ := List.map_eq_singleton_iff.mp htokens
  refine ⟨a.pushOperand t span, ?_, gains_pushOperand t span a⟩
  rw [List.singleton_append, addAll_cons (hadd _ _ _ _), hkind]

theorem addRightBracket_eq {a : Assembly} {opened : Span} {below : List Waiting}
    {operands : Operands} {calls : List OpenCall}
    (h : a.closeGroup = .ok ⟨.leftBracket opened :: below, operands, calls⟩) (span : Span) :
    a.addRightBracket false span = .ok ⟨below, operands, calls⟩ := by
  simp only [addRightBracket, Bool.false_eq_true, if_false, h]

/-- Tokens of a bracketed row of kinds. -/
private theorem exists_brackets {tokens : List Token} {kinds : List TokenKind}
    (h : tokens.map Token.kind = .leftBracket :: kinds ++ [.rightBracket]) :
    ∃ opened inner closed, tokens = ⟨.leftBracket, opened⟩ :: (inner ++ [⟨.rightBracket, closed⟩]) ∧
      inner.map Token.kind = kinds := by
  obtain ⟨⟨_, opened⟩, tail, rfl, rfl, htail⟩ := List.map_eq_cons_iff.mp h
  obtain ⟨inner, last, rfl, hinner, hlast⟩ := List.map_eq_append_iff.mp htail
  obtain ⟨⟨_, closed⟩, rfl, rfl⟩ := List.map_eq_singleton_iff.mp hlast
  exact ⟨opened, inner, closed, rfl, hinner⟩

theorem Reads.bracketed {form : Form} {t : Tree} {kinds : List TokenKind}
    (h : Reads v form t kinds) :
    Reads v .closed t (.leftBracket :: kinds ++ [.rightBracket]) := by
  intro tokens rest afterLeftBracket a htokens _
  obtain ⟨opened, inner, closed, rfl, hinner⟩ := exists_brackets htokens
  obtain ⟨b, hread, hgains⟩ := h inner (⟨.rightBracket, closed⟩ :: rest) true
    { a with waiting := .leftBracket opened :: a.waiting } hinner
    (by simp [Awaits, Waiting.yieldsTo])
  obtain ⟨span, hclose⟩ := hgains.closeGroup (by simp [Waiting.isLeftBracket])
  refine ⟨a.pushOperand t span, ?_, gains_pushOperand t span a⟩
  rw [List.cons_append, addAll_cons rfl, List.append_assoc, List.singleton_append]
  exact hread.trans (addAll_cons (addRightBracket_eq hclose closed))

theorem Reads.negate {form : Form} {t : Tree} {kinds : List TokenKind} (h : Reads v form t kinds)
    (hform : ∀ op, form ≠ .binary op) :
    Reads v .unary (.negate t) (.operator .unaryMinus :: kinds) := by
  intro tokens rest afterLeftBracket a htokens hawaits
  obtain ⟨⟨_, minus⟩, tail, rfl, rfl, htail⟩ := List.map_eq_cons_iff.mp htokens
  have hleave : ∀ item ∈ a.waiting.head?, item.yieldsTo .unaryMinus = false := hawaits
  have hminus : a.add v afterLeftBracket (startsWithLeftBracket (tail ++ rest))
      ⟨.operator .unaryMinus, minus⟩ =
        .ok { a with waiting := .operator .unaryMinus minus :: a.waiting } := by
    simp only [add, addOperator, applyWhile_of_not_ready hleave]
  have hoperator : form.operator = .unaryMinus := by
    cases form with
    | binary op => exact (hform op rfl).elim
    | _ => rfl
  obtain ⟨b, hread, added, span, hwaiting, hadded, happly⟩ := h tail rest false
    { a with waiting := .operator .unaryMinus minus :: a.waiting } htail
    (by simp [Awaits, Waiting.yieldsTo, hoperator, Operator.unaryMinus_pops])
  refine ⟨b, ?_, added ++ [.operator .unaryMinus minus], minus.cover span, ?_, ?_, ?_⟩
  · rw [List.cons_append, addAll_cons hminus]
    exact hread
  · rw [hwaiting, List.append_assoc]
    rfl
  · intro item hitem
    rcases List.mem_append.mp hitem with hitem | hitem
    · refine ⟨(hadded item hitem).1, fun op _ => (hadded item hitem).2 op ?_⟩
      rw [hoperator]
      exact Operator.binary_pops_unaryMinus op
    · rw [List.mem_singleton.mp hitem]
      exact ⟨rfl, fun op hop => hop⟩
  · intro ready below hready
    rw [List.forall_mem_append] at hready
    rw [List.append_assoc, happly ready _ hready.1, List.singleton_append,
      applyWhile_cons (hready.2 _ List.mem_cons_self) (apply_unaryMinus _ t minus span)]
    refine applyWhile_congr ?_ ?_ ready below <;> rfl

theorem Reads.binary {form form' : Form} {op : BinaryOperator} {left right : Tree}
    {kinds kinds' : List TokenKind} (hleft : Reads v form left kinds)
    (hright : Reads v form' right kinds')
    (hpops : (Operator.binary op).pops form.operator = true)
    (hkeeps : form'.operator.pops (.binary op) = false) :
    Reads v (.binary op) (.binary op left right) (kinds ++ .operator (.binary op) :: kinds') := by
  intro tokens rest afterLeftBracket a htokens hawaits
  obtain ⟨before, tail, rfl, hbefore, htail⟩ := List.map_eq_append_iff.mp htokens
  obtain ⟨⟨_, middle⟩, after, rfl, rfl, hafter⟩ := List.map_eq_cons_iff.mp htail
  have hawaitsLeft : a.Awaits form := by
    intro item hitem
    have hitem := hawaits item hitem
    cases item with
    | operator stacked _ => exact Operator.pops_eq_false_of_pops hpops hitem
    | function callee _ => cases hitem
    | leftBracket _ => rfl
  obtain ⟨b, hread, hgains⟩ :=
    hleft before (⟨.operator (.binary op), middle⟩ :: after ++ rest) afterLeftBracket a hbefore
      hawaitsLeft
  obtain ⟨first, hmiddle⟩ : ∃ first,
      b.add v false (startsWithLeftBracket (after ++ rest)) ⟨.operator (.binary op), middle⟩ =
        .ok { a.pushOperand left first with
          waiting := .operator (.binary op) middle :: a.waiting } :=
    hgains.addOperator hpops hawaits middle
  obtain ⟨c, hread', added, last, hwaiting, hadded, happly⟩ := hright after rest false
    { a.pushOperand left first with waiting := .operator (.binary op) middle :: a.waiting } hafter
    (by simpa [Awaits, Waiting.yieldsTo] using hkeeps)
  refine ⟨c, ?_, added ++ [.operator (.binary op) middle], first.cover last, ?_, ?_, ?_⟩
  · rw [List.append_assoc]
    exact hread.trans ((addAll_cons hmiddle).trans hread')
  · rw [hwaiting, List.append_assoc]
    rfl
  · intro item hitem
    rcases List.mem_append.mp hitem with hitem | hitem
    · refine ⟨(hadded item hitem).1, fun next hnext => (hadded item hitem).2 next ?_⟩
      exact Operator.pops_of_pops hnext hkeeps
    · rw [List.mem_singleton.mp hitem]
      exact ⟨rfl, fun next hnext => hnext⟩
  · intro ready below hready
    rw [List.forall_mem_append] at hready
    rw [List.append_assoc, happly ready _ hready.1, List.singleton_append]
    have hoperator := apply_binary { a with waiting := .operator (.binary op) middle :: a.waiting }
      op left right middle first last
    refine (applyWhile_cons (hready.2 _ List.mem_cons_self) hoperator below).trans ?_
    refine applyWhile_congr ?_ ?_ ready below <;> rfl

/-- Whether tokens of these kinds are taken in as the arguments of a call. -/
def ReadsArguments (v : Vocabulary) (ts : List Tree) (kinds : List TokenKind) : Prop :=
  ∀ (tokens rest : List Token) (afterLeftBracket : Bool) (opened span : Span) (callee : Signature)
    (below : List Waiting) (operands : Operands) (begun base : Nat) (calls : List OpenCall),
    tokens.map Token.kind = kinds → ts ≠ [] →
      let waiting := .leftBracket opened :: .function callee span :: below
      ∃ b arguments, arguments.map Operand.tree = ts ∧
        addAll v afterLeftBracket (tokens ++ rest) ⟨waiting, operands, ⟨begun, base⟩ :: calls⟩ =
          addAll v false rest b ∧
        b.closeGroup = .ok ⟨waiting, operands.pushAll arguments,
          ⟨begun + (ts.length - 1), base⟩ :: calls⟩

theorem Reads.last {form : Form} {t : Tree} {kinds : List TokenKind} (h : Reads v form t kinds) :
    ReadsArguments v [t] kinds := by
  intro tokens rest afterLeftBracket opened span callee below operands begun base calls htokens _
    waiting
  obtain ⟨b, hread, hgains⟩ := h tokens rest afterLeftBracket
    ⟨waiting, operands, ⟨begun, base⟩ :: calls⟩ htokens
    (by simp [waiting, Awaits, Waiting.yieldsTo])
  obtain ⟨last, hclose⟩ := hgains.closeGroup (by simp [waiting, Waiting.isLeftBracket])
  exact ⟨b, [⟨t, last⟩], rfl, hread, hclose⟩

theorem Reads.next {form : Form} {t u : Tree} {ts : List Tree} {kinds kinds' : List TokenKind}
    (h : Reads v form t kinds) (hrest : ReadsArguments v (u :: ts) kinds') :
    ReadsArguments v (t :: u :: ts) (kinds ++ .separator :: kinds') := by
  intro tokens rest afterLeftBracket opened span callee below operands begun base calls htokens _
    waiting
  obtain ⟨before, tail, rfl, hbefore, htail⟩ := List.map_eq_append_iff.mp htokens
  obtain ⟨⟨_, comma⟩, after, rfl, rfl, hafter⟩ := List.map_eq_cons_iff.mp htail
  obtain ⟨b, hread, hgains⟩ := h before (⟨.separator, comma⟩ :: after ++ rest) afterLeftBracket
    ⟨waiting, operands, ⟨begun, base⟩ :: calls⟩ hbefore
    (by simp [waiting, Awaits, Waiting.yieldsTo])
  obtain ⟨first, hclose⟩ := hgains.closeGroup (by simp [waiting, Waiting.isLeftBracket])
  have hcomma : b.add v false (startsWithLeftBracket (after ++ rest)) ⟨.separator, comma⟩ =
      .ok ⟨waiting, operands.push ⟨t, first⟩, ⟨begun + 1, base⟩ :: calls⟩ := by
    simp only [add, addSeparator, hclose]
    rfl
  obtain ⟨c, arguments, hargs, hread', hclose'⟩ := hrest after rest false opened span callee below
    (operands.push ⟨t, first⟩) (begun + 1) base calls hafter (List.cons_ne_nil u ts)
  refine ⟨c, ⟨t, first⟩ :: arguments, by rw [List.map_cons, hargs], ?_, ?_⟩
  · rw [List.append_assoc]
    exact hread.trans ((addAll_cons hcomma).trans hread')
  · rw [hclose']
    have hcount : begun + 1 + ((u :: ts).length - 1) = begun + ((t :: u :: ts).length - 1) := by
      simp only [List.length_cons]
      omega
    rw [hcount]
    rfl

/-- The function of a call takes the arguments above the operands that were there before. -/
theorem apply_function {callee : Signature} {arguments : List Operand}
    (haccepts : callee.accepts arguments.length = true) (span : Span) (waiting : List Waiting)
    (operands : Operands) (calls : List OpenCall) :
    apply (.function callee span)
        ⟨waiting, operands.pushAll arguments, ⟨arguments.length, operands.count⟩ :: calls⟩ =
      .ok (pushOperand ⟨waiting, operands, calls⟩
        (.call callee.name (arguments.map Operand.tree) callee.idempotent)
        (arguments.foldl (fun span argument => span.cover argument.span) span)) := by
  have hbelow : ¬operands.count + arguments.length < operands.count := by omega
  simp only [apply, applyCall, haccepts, Bool.not_true, Bool.false_eq_true, if_false,
    Operands.count_pushAll, Nat.add_sub_cancel_left, ne_eq, not_true_eq_false, hbelow,
    Operands.take_pushAll, List.reverse_reverse, Operands.drop_pushAll, TreeForm.call_tree]

theorem gains_call {callee : Signature} {arguments : List Operand}
    (haccepts : callee.accepts arguments.length = true) (span : Span) (a : Assembly) :
    a.Gains .closed (.call callee.name (arguments.map Operand.tree) callee.idempotent)
      ⟨.function callee span :: a.waiting, a.operands.pushAll arguments,
        ⟨arguments.length, a.operands.count⟩ :: a.calls⟩ := by
  refine ⟨[.function callee span],
    arguments.foldl (fun span argument => span.cover argument.span) span, rfl, ?_, ?_⟩
  · intro item hitem
    rw [List.mem_singleton.mp hitem]
    exact ⟨rfl, fun _ _ => rfl⟩
  · intro ready below hready
    refine (applyWhile_cons (hready _ List.mem_cons_self)
      (apply_function haccepts span _ a.operands a.calls) below).trans ?_
    refine applyWhile_congr ?_ ?_ ready below <;> rfl

theorem Reads.call {name : String} {callee : Signature} {arguments : List Tree}
    {kinds : List TokenKind} (hfunction : v.function? name = some callee)
    (haccepts : callee.accepts arguments.length = true)
    (h : ReadsArguments v arguments kinds) (hnone : arguments = [] → kinds = []) :
    Reads v .closed (.call callee.name arguments callee.idempotent)
      (.name name :: .leftBracket :: kinds ++ [.rightBracket]) := by
  intro tokens rest afterLeftBracket a htokens _
  obtain ⟨⟨_, span⟩, tail, rfl, rfl, htail⟩ := List.map_eq_cons_iff.mp htokens
  obtain ⟨opened, inner, closed, rfl, hinner⟩ := exists_brackets htail
  have hname : a.add v afterLeftBracket true ⟨.name name, span⟩ =
      .ok ⟨.function callee span :: a.waiting, a.operands, ⟨1, a.operands.count⟩ :: a.calls⟩ := by
    simp only [add, addName, hfunction, if_true]
  have hstart : addAll v afterLeftBracket (⟨.name name, span⟩ ::
      (⟨.leftBracket, opened⟩ :: (inner ++ [⟨.rightBracket, closed⟩])) ++ rest) a =
        addAll v true (inner ++ (⟨.rightBracket, closed⟩ :: rest))
          ⟨.leftBracket opened :: .function callee span :: a.waiting, a.operands,
            ⟨1, a.operands.count⟩ :: a.calls⟩ := by
    rw [List.cons_append, List.cons_append, addAll_cons hname, List.append_assoc]
    exact addAll_cons rfl
  rw [hstart]
  by_cases hempty : arguments = []
  · subst hempty
    obtain rfl : inner = [] := by simpa [hnone rfl] using hinner
    have hclosed : addAll v true ([] ++ (⟨.rightBracket, closed⟩ :: rest))
        ⟨.leftBracket opened :: .function callee span :: a.waiting, a.operands,
          ⟨1, a.operands.count⟩ :: a.calls⟩ =
        addAll v false rest ⟨.function callee span :: a.waiting, a.operands.pushAll [],
          ⟨0, a.operands.count⟩ :: a.calls⟩ := addAll_cons rfl
    exact ⟨_, hclosed, @gains_call callee [] haccepts span a⟩
  · obtain ⟨b, operands, rfl, hread, hclose⟩ := h inner (⟨.rightBracket, closed⟩ :: rest) true
      opened span callee a.waiting a.operands 1 a.operands.count a.calls hinner hempty
    rw [List.length_map] at haccepts
    refine ⟨_, hread.trans (addAll_cons (addRightBracket_eq hclose closed)), ?_⟩
    have hcount : 1 + ((operands.map Operand.tree).length - 1) = operands.length := by
      have := List.length_pos_iff.mpr hempty
      rw [List.length_map] at this ⊢
      omega
    rw [hcount]
    exact gains_call haccepts span a

mutual

/-- By induction on the writing: what is written between brackets, after a sign, beside an operator
or in a list of arguments is taken in as a whole. -/
theorem reads_of_writing : ∀ {form : Form} {t : Tree} {kinds : List TokenKind},
    Writing v form t kinds → Reads v form t kinds
  | _, _, _, .integer _ => reads_operand rfl fun _ _ _ _ => rfl
  | _, _, _, .float _ => reads_operand rfl fun _ _ _ _ => rfl
  | _, _, _, .constant hfunction hconstant => by
    refine reads_operand rfl fun _ _ _ _ => ?_
    simp only [add, addName, hfunction, hconstant, TreeForm.float_tree]
  | _, _, _, .variable hfunction hconstant => by
    refine reads_operand rfl fun _ _ _ _ => ?_
    simp only [add, addName, hfunction, hconstant, TreeForm.var_tree]
  | _, _, _, .bracketed h => (reads_of_writing h).bracketed
  | _, _, _, .negate h hform => (reads_of_writing h).negate hform
  | _, _, _, .call hfunction haccepts h => by
    refine Reads.call hfunction haccepts (reads_of_argumentList h) fun hempty => ?_
    subst hempty
    cases h
    rfl
  | _, _, _, .binary hleft hright hpops hkeeps =>
    (reads_of_writing hleft).binary (reads_of_writing hright) (Form.pops_operator hpops)
      (Form.operator_pops hkeeps)

theorem reads_of_argumentList : ∀ {ts : List Tree} {kinds : List TokenKind},
    ArgumentList v ts kinds → ReadsArguments v ts kinds
  | _, _, .none => by
    intro _ _ _ _ _ _ _ _ _ _ _ _ hne
    exact (hne rfl).elim
  | _, _, .last h => (reads_of_writing h).last
  | _, _, .next h hrest => (reads_of_writing h).next (reads_of_argumentList hrest)

end

theorem Gains.finish {form : Form} {t : Tree} {a : Assembly} (h : Gains form t .empty a) :
    a.finish = .ok t := by
  obtain ⟨span, hclose⟩ := h.closeGroup nofun
  rw [Assembly.finish, hclose]
  rfl

theorem Reads.ofTokens {form : Form} {t : Tree} {tokens : List Token}
    (h : Reads v form t (tokens.map Token.kind)) : Tree.ofTokens v tokens = .ok t := by
  obtain ⟨a, hread, hgains⟩ := h tokens [] false .empty rfl nofun
  rw [List.append_nil] at hread
  rw [Tree.ofTokens, readTokens, hread]
  exact hgains.finish

end Assembly

/-- From every infix writing of a tree, with whatever functions and constants there are, exactly
this tree is assembled. -/
theorem Tree.ofTokens_writing {v : Vocabulary} {form : Form} {t : Tree} {tokens : List Token}
    (h : Writing v form t (tokens.map Token.kind)) : ofTokens v tokens = .ok t :=
  (Assembly.reads_of_writing h).ofTokens

/-- The tokens of `2 % 3 ^ -(x) - f(1, f())`. -/
theorem Tree.ofTokens_writing_nested :
    let f : Signature := ⟨"f", none, true, true⟩
    let v : Vocabulary := ⟨fun name => if name = "f" then some f else none, fun _ => none, true⟩
    let kinds : List TokenKind := [.integer 2, .operator (.binary .modulo), .integer 3,
      .operator (.binary .power), .operator .unaryMinus, .leftBracket, .name "x", .rightBracket,
      .operator (.binary .subtract), .name "f", .leftBracket, .integer 1, .separator, .name "f",
      .leftBracket, .rightBracket, .rightBracket]
    let t : Tree := .binary .subtract
      (.binary .modulo (.integer 2) (.binary .power (.integer 3) (.negate (.var "x"))))
      (.call "f" [.integer 1, .call "f" [] true] true)
    Writing v (.binary .subtract) t kinds ∧
      ofTokens v (kinds.map fun kind => ⟨kind, ⟨0, 1⟩⟩) = .ok t := by
  intro f v kinds t
  have hpower : Writing v (.binary .power) (.binary .power (.integer 3) (.negate (.var "x")))
      [.integer 3, .operator (.binary .power), .operator .unaryMinus, .leftBracket, .name "x",
        .rightBracket] :=
    .binary (.integer 3) (.negate (.bracketed (.variable rfl rfl)) nofun) nofun nofun
  have hmodulo : Writing v (.binary .modulo)
      (.binary .modulo (.integer 2) (.binary .power (.integer 3) (.negate (.var "x"))))
      [.integer 2, .operator (.binary .modulo), .integer 3, .operator (.binary .power),
        .operator .unaryMinus, .leftBracket, .name "x", .rightBracket] :=
    .binary (.integer 2) hpower nofun (by rintro _ ⟨⟩; rfl)
  have hcall : Writing v .closed (.call "f" [.integer 1, .call "f" [] true] true)
      [.name "f", .leftBracket, .integer 1, .separator, .name "f", .leftBracket, .rightBracket,
        .rightBracket] :=
    @Writing.call v "f" f _ _ rfl rfl
      (.next (.integer 1) (.last (@Writing.call v "f" f _ _ rfl rfl .none)))
  have h : Writing v (.binary .subtract) t kinds :=
    .binary hmodulo hcall (by rintro _ ⟨⟩; rfl) nofun
  exact ⟨h, @ofTokens_writing v _ t (kinds.map fun kind => ⟨kind, ⟨0, 1⟩⟩) h⟩

end FormulaEngine
