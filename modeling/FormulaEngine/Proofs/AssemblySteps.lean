import FormulaEngine.Proofs.WritingAssembly

/-!
The steps of an assembly. Taking in a token first lets some of the elements that wait take
their operands, one reduction for each, and then puts the token on a stack or closes a
bracket with it. Every invariant of assembly is kept by each reduction and by each token.
-/
namespace FormulaEngine

namespace Operands

theorem push_drop {s : Operands} {operand : Operand} {items : List Operand}
    (h : s.items = operand :: items) : (s.drop 1).push operand = s := by
  apply ext
  change operand :: s.items.drop 1 = s.items
  rw [h]
  rfl

theorem push_push_drop {s : Operands} {left right : Operand} {items : List Operand}
    (h : s.items = right :: left :: items) : ((s.drop 2).push left).push right = s := by
  apply ext
  change right :: left :: s.items.drop 2 = s.items
  rw [h]
  rfl

theorem pushAll_drop (s : Operands) (n : Nat) :
    (s.drop n).pushAll (s.items.take n).reverse = s := by
  apply ext
  rw [items_pushAll, List.reverse_reverse]
  exact List.take_append_drop n s.items

end Operands

/-- Whether an element belongs to the group that a right bracket closes. -/
def Waiting.inGroup (item : Waiting) : Bool := !item.isLeftBracket

namespace Assembly

/-- The latest element that waits takes its operands. -/
inductive Reduction : Assembly → Assembly → Prop
  | negate (argument : Operand) (minus : Span) (waiting : List Waiting) (operands : Operands)
      (calls : List OpenCall) :
      Reduction ⟨.operator .unaryMinus minus :: waiting, operands.push argument, calls⟩
        ⟨waiting, operands.push ⟨.negate argument.tree, minus.cover argument.span⟩, calls⟩
  | binary (op : BinaryOperator) (left right : Operand) (middle : Span) (waiting : List Waiting)
      (operands : Operands) (calls : List OpenCall) :
      Reduction ⟨.operator (.binary op) middle :: waiting, (operands.push left).push right, calls⟩
        ⟨waiting, operands.push ⟨.binary op left.tree right.tree, left.span.cover right.span⟩,
          calls⟩
  | call {callee : Signature} {arguments : List Operand}
      (haccepts : callee.accepts arguments.length = true) (name : Span) (waiting : List Waiting)
      (operands : Operands) (calls : List OpenCall) :
      Reduction ⟨.function callee name :: waiting, operands.pushAll arguments,
          ⟨arguments.length, operands.count⟩ :: calls⟩
        ⟨waiting, operands.push ⟨.call callee.name (arguments.map Operand.tree) callee.idempotent,
          arguments.foldl (fun span argument => span.cover argument.span) name⟩, calls⟩

private theorem Reduction.of_applyOperator {op : Operator} {span : Span} {a b : Assembly}
    (h : a.applyOperator op span = .ok b) (waiting : List Waiting) :
    Reduction { a with waiting := .operator op span :: waiting } { b with waiting } := by
  obtain ⟨stale, operands, calls⟩ := a
  unfold applyOperator at h
  split at h
  · rename_i argument items hitems
    cases h
    have hsplit := Operands.push_drop hitems
    have hreduce := Reduction.negate argument span waiting (operands.drop 1) calls
    rwa [hsplit] at hreduce
  · rename_i op right left items hitems
    cases h
    have hsplit := Operands.push_push_drop hitems
    have hreduce := Reduction.binary op left right span waiting (operands.drop 2) calls
    rwa [hsplit] at hreduce
  · cases h

private theorem Reduction.of_applyCall {callee : Signature} {span : Span} {a b : Assembly}
    (h : a.applyCall callee span = .ok b) (waiting : List Waiting) :
    Reduction { a with waiting := .function callee span :: waiting } { b with waiting } := by
  obtain ⟨stale, operands, calls⟩ := a
  unfold applyCall at h
  split at h
  · cases h
  · rename_i call calls hcalls
    dsimp only at hcalls
    subst hcalls
    split at h
    · cases h
    rename_i haccepts
    split at h
    · cases h
    rename_i hcount
    split at h
    · cases h
    rename_i hbelow
    cases h
    have hsupplied : operands.count = call.base + call.arguments := by
      dsimp only at hcount hbelow
      omega
    have hlength : ((operands.items.take call.arguments).reverse).length = call.arguments := by
      rw [List.length_reverse, List.length_take, ← operands.count_eq]
      omega
    have hbase : (operands.drop call.arguments).count = call.base := by
      change operands.count - call.arguments = call.base
      omega
    have hfit : callee.accepts (operands.items.take call.arguments).reverse.length = true := by
      rw [hlength]
      simpa using haccepts
    have hreduce := Reduction.call hfit span waiting (operands.drop call.arguments) calls
    rwa [Operands.pushAll_drop, hlength, hbase] at hreduce

theorem Reduction.of_apply {item : Waiting} (hitem : item.isLeftBracket = false) {a b : Assembly}
    (h : a.apply item = .ok b) (waiting : List Waiting) :
    Reduction { a with waiting := item :: waiting } { b with waiting } := by
  cases item with
  | operator op span => exact .of_applyOperator h waiting
  | function callee span => exact .of_applyCall h waiting
  | leftBracket span => cases hitem

/-- Reductions as long as the latest element that waits is ready. -/
inductive Reductions (ready : Waiting → Bool) : Assembly → Assembly → Prop
  | stop {a : Assembly} (h : ∀ item ∈ a.waiting.head?, ready item = false) : Reductions ready a a
  | step {item : Waiting} {waiting : List Waiting} {operands : Operands} {calls : List OpenCall}
      {b c : Assembly} (hready : ready item = true)
      (h : Reduction ⟨item :: waiting, operands, calls⟩ b) (hrest : Reductions ready b c) :
      Reductions ready ⟨item :: waiting, operands, calls⟩ c

theorem Reductions.of_applyWhile {ready : Waiting → Bool}
    (hbracket : ∀ span, ready (.leftBracket span) = false) {items : List Waiting} {a b : Assembly}
    (h : applyWhile ready items a = .ok b) : Reductions ready { a with waiting := items } b := by
  induction items generalizing a with
  | nil =>
    cases h
    exact .stop nofun
  | cons item items ih =>
    unfold applyWhile at h
    split at h
    · rename_i hready
      split at h
      · cases h
      · rename_i c hc
        have hitem : item.isLeftBracket = false := by
          cases item with
          | leftBracket span => simp [hbracket] at hready
          | _ => rfl
        exact .step hready (.of_apply hitem hc items) (ih h)
    · rename_i hready
      cases h
      refine .stop fun other hother => ?_
      cases hother
      simpa using hready

/-- What every reduction keeps holds after reductions if it held before. -/
theorem Reductions.keeps {ready : Waiting → Bool} {P : Assembly → Prop}
    (hstep : ∀ {a b : Assembly}, Reduction a b → P a → P b) {a b : Assembly}
    (h : Reductions ready a b) (ha : P a) : P b := by
  induction h with
  | stop _ => exact ha
  | step _ hreduce _ ih => exact ih (hstep hreduce ha)

theorem Reductions.not_ready {ready : Waiting → Bool} {a b : Assembly}
    (h : Reductions ready a b) : ∀ item ∈ b.waiting.head?, ready item = false := by
  induction h with
  | stop h => exact h
  | step _ _ _ ih => exact ih

theorem reductions_of_closeGroup {a b : Assembly} (h : a.closeGroup = .ok b) :
    Reductions Waiting.inGroup a b :=
  Reductions.of_applyWhile (fun _ => rfl) h

private theorem Reduction.applyWhile {ready : Waiting → Bool} {item : Waiting}
    (hready : ready item = true) {waiting : List Waiting} {operands : Operands}
    {calls : List OpenCall} {b : Assembly} (h : Reduction ⟨item :: waiting, operands, calls⟩ b) :
    applyWhile ready (item :: waiting) ⟨item :: waiting, operands, calls⟩ =
      applyWhile ready b.waiting b := by
  cases h with
  | negate argument minus waiting operands calls =>
    have happly := apply_unaryMinus ⟨.operator .unaryMinus minus :: waiting, operands, calls⟩
      argument.tree minus argument.span
    refine (applyWhile_cons hready happly waiting).trans ?_
    refine applyWhile_congr ?_ ?_ ready waiting <;> rfl
  | binary op left right middle waiting operands calls =>
    have happly := apply_binary ⟨.operator (.binary op) middle :: waiting, operands, calls⟩ op
      left.tree right.tree middle left.span right.span
    refine (applyWhile_cons hready happly waiting).trans ?_
    refine applyWhile_congr ?_ ?_ ready waiting <;> rfl
  | @call callee arguments haccepts name waiting operands calls =>
    have happly := apply_function haccepts name (.function callee name :: waiting) operands calls
    refine (applyWhile_cons hready happly waiting).trans ?_
    refine applyWhile_congr ?_ ?_ ready waiting <;> rfl

/-- Applying what waits makes these reductions and no others. -/
theorem Reductions.applyWhile {ready : Waiting → Bool} {a b : Assembly} (h : Reductions ready a b) :
    applyWhile ready a.waiting a = .ok b := by
  induction h with
  | stop h => exact applyWhile_of_not_ready h _
  | step hready h _ ih => exact (h.applyWhile hready).trans ih

/-- How a token of the given kind is taken in, by what stands beside it. -/
inductive Intake (v : Vocabulary) (afterLeftBracket beforeLeftBracket : Bool) (span : Span) :
    TokenKind → Assembly → Assembly → Prop
  | integer (value : Int64) (a : Assembly) :
      Intake v afterLeftBracket beforeLeftBracket span (.integer value) a
        (a.pushOperand (.integer value) span)
  | float (value : Float) (a : Assembly) :
      Intake v afterLeftBracket beforeLeftBracket span (.float value) a
        (a.pushOperand (.float value) span)
  | constant {name : String} {value : Float} (hfunction : v.function? name = none)
      (hconstant : v.constant? name = some value) (a : Assembly) :
      Intake v afterLeftBracket beforeLeftBracket span (.name name) a
        (a.pushOperand (.float value) span)
  | var {name : String} (hfunction : v.function? name = none)
      (hconstant : v.constant? name = none) (a : Assembly) :
      Intake v afterLeftBracket beforeLeftBracket span (.name name) a
        (a.pushOperand (.var (v.variableName name)) span)
  | function {name : String} {callee : Signature} (hfunction : v.function? name = some callee)
      (hbefore : beforeLeftBracket = true) (a : Assembly) :
      Intake v afterLeftBracket beforeLeftBracket span (.name name) a
        ⟨.function callee span :: a.waiting, a.operands, ⟨1, a.operands.count⟩ :: a.calls⟩
  | operator (op : Operator) {a b : Assembly} (h : Reductions (Waiting.yieldsTo op) a b) :
      Intake v afterLeftBracket beforeLeftBracket span (.operator op) a
        { b with waiting := .operator op span :: b.waiting }
  | leftBracket (a : Assembly) :
      Intake v afterLeftBracket beforeLeftBracket span .leftBracket a
        { a with waiting := .leftBracket span :: a.waiting }
  | emptyList (hafter : afterLeftBracket = true) (opened name : Span) (callee : Signature)
      (waiting : List Waiting) (operands : Operands) (call : OpenCall) (calls : List OpenCall) :
      Intake v afterLeftBracket beforeLeftBracket span .rightBracket
        ⟨.leftBracket opened :: .function callee name :: waiting, operands, call :: calls⟩
        ⟨.function callee name :: waiting, operands, { call with arguments := 0 } :: calls⟩
  | rightBracket (hafter : afterLeftBracket = false) {a : Assembly} {opened : Span}
      {waiting : List Waiting} {operands : Operands} {calls : List OpenCall}
      (h : Reductions Waiting.inGroup a ⟨.leftBracket opened :: waiting, operands, calls⟩) :
      Intake v afterLeftBracket beforeLeftBracket span .rightBracket a ⟨waiting, operands, calls⟩
  | separator {a : Assembly} {opened name : Span} {callee : Signature} {waiting : List Waiting}
      {operands : Operands} {call : OpenCall} {calls : List OpenCall}
      (h : Reductions Waiting.inGroup a
        ⟨.leftBracket opened :: .function callee name :: waiting, operands, call :: calls⟩) :
      Intake v afterLeftBracket beforeLeftBracket span .separator a
        ⟨.leftBracket opened :: .function callee name :: waiting, operands,
          { call with arguments := call.arguments + 1 } :: calls⟩

theorem updateCall?_cases {a b : Assembly} {update : Nat → Nat}
    (h : a.updateCall? update = some b) :
    ∃ opened callee name waiting operands call calls,
      a = ⟨.leftBracket opened :: .function callee name :: waiting, operands, call :: calls⟩ ∧
      b = ⟨.leftBracket opened :: .function callee name :: waiting, operands,
        { call with arguments := update call.arguments } :: calls⟩ := by
  obtain ⟨items, operands, records⟩ := a
  unfold updateCall? at h
  split at h
  · rename_i opened callee name waiting call calls hwaiting hcalls
    dsimp only at hwaiting hcalls
    subst hwaiting hcalls
    cases h
    exact ⟨opened, callee, name, waiting, operands, call, calls, rfl, rfl⟩
  · cases h

section Intakes

variable {v : Vocabulary} {afterLeftBracket beforeLeftBracket : Bool} {a b : Assembly}

private theorem Intake.of_addName {name : String} {span : Span}
    (h : a.addName v name beforeLeftBracket span = .ok b) :
    Intake v afterLeftBracket beforeLeftBracket span (.name name) a b := by
  unfold addName at h
  split at h
  · rename_i callee hfunction
    split at h
    · rename_i hbefore
      cases h
      exact .function hfunction hbefore a
    · cases h
  · rename_i hfunction
    split at h
    · rename_i value hconstant
      cases h
      exact .constant hfunction hconstant a
    · rename_i hconstant
      cases h
      exact .var hfunction hconstant a

private theorem Intake.of_addOperator {op : Operator} {span : Span}
    (h : a.addOperator op span = .ok b) :
    Intake v afterLeftBracket beforeLeftBracket span (.operator op) a b := by
  unfold addOperator at h
  split at h
  · cases h
  · rename_i c hc
    cases h
    exact .operator op (Reductions.of_applyWhile (fun _ => rfl) hc)

private theorem Intake.of_addRightBracket {span : Span}
    (h : a.addRightBracket afterLeftBracket span = .ok b) :
    Intake v afterLeftBracket beforeLeftBracket span .rightBracket a b := by
  unfold addRightBracket at h
  cases afterLeftBracket with
  | true =>
    simp only [if_true] at h
    split at h
    · cases h
    · rename_i c hc
      obtain ⟨opened, callee, name, waiting, operands, call, calls, rfl, rfl⟩ :=
        updateCall?_cases hc
      cases h
      exact .emptyList rfl opened name callee waiting operands call calls
  | false =>
    simp only [Bool.false_eq_true, if_false] at h
    split at h
    · cases h
    · rename_i c hc
      split at h
      · rename_i opened waiting hwaiting
        cases h
        obtain ⟨items, operands, calls⟩ := c
        dsimp only at hwaiting
        subst hwaiting
        exact .rightBracket rfl (reductions_of_closeGroup hc)
      · cases h

private theorem Intake.of_addSeparator {span : Span} (h : a.addSeparator span = .ok b) :
    Intake v afterLeftBracket beforeLeftBracket span .separator a b := by
  unfold addSeparator at h
  split at h
  · cases h
  · rename_i c hc
    split at h
    · rename_i d hd
      cases h
      obtain ⟨opened, callee, name, waiting, operands, call, calls, rfl, rfl⟩ :=
        updateCall?_cases hd
      exact .separator (reductions_of_closeGroup hc)
    · cases h

/-- All that taking in a token can do. -/
theorem intake_of_add {token : Token}
    (h : a.add v afterLeftBracket beforeLeftBracket token = .ok b) :
    Intake v afterLeftBracket beforeLeftBracket token.span token.kind a b := by
  obtain ⟨kind, span⟩ := token
  cases kind with
  | integer value =>
    cases h
    exact .integer value a
  | float value =>
    cases h
    exact .float value a
  | name name => exact .of_addName h
  | operator op => exact .of_addOperator h
  | leftBracket =>
    cases h
    exact .leftBracket a
  | rightBracket => exact .of_addRightBracket h
  | separator => exact .of_addSeparator h

/-- A token is taken in in this way and no other. -/
theorem Intake.add {kind : TokenKind} {span : Span}
    (h : Intake v afterLeftBracket beforeLeftBracket span kind a b) :
    a.add v afterLeftBracket beforeLeftBracket ⟨kind, span⟩ = .ok b := by
  cases h with
  | integer | float | leftBracket => rfl
  | constant hfunction hconstant =>
    simp only [Assembly.add, addName, hfunction, hconstant, TreeForm.float_tree]
  | var hfunction hconstant =>
    simp only [Assembly.add, addName, hfunction, hconstant, TreeForm.var_tree]
  | function hfunction hbefore => simp only [Assembly.add, addName, hfunction, hbefore, if_true]
  | operator op h => simp only [Assembly.add, addOperator, h.applyWhile]
  | emptyList hafter =>
    subst hafter
    rfl
  | rightBracket hafter h =>
    subst hafter
    have hclose : a.closeGroup = _ := h.applyWhile
    simp [Assembly.add, addRightBracket, hclose]
  | separator h =>
    have hclose : a.closeGroup = _ := h.applyWhile
    simp [Assembly.add, addSeparator, hclose, updateCall?]

theorem addAll_cases {token : Token} {rest : List Token}
    (h : addAll v afterLeftBracket (token :: rest) a = .ok b) :
    ∃ c, Intake v afterLeftBracket (startsWithLeftBracket rest) token.span token.kind a c ∧
      addAll v token.kind.isLeftBracket rest c = .ok b := by
  unfold addAll at h
  split at h
  · cases h
  · rename_i c hc
    exact ⟨c, intake_of_add hc, h⟩

/-- Whether a left bracket was read last. -/
def endsWithLeftBracket (read : List TokenKind) : Bool := read.getLast?.any TokenKind.isLeftBracket

/-- What every token keeps holds of a whole row of tokens. It may depend on the tokens read and on
those to come. -/
theorem addAll_keeps {P : List TokenKind → List TokenKind → Assembly → Prop}
    (hstep : ∀ {read rest : List TokenKind} {span : Span} {kind : TokenKind} {a b : Assembly},
      Intake v (endsWithLeftBracket read) (rest.head?.any TokenKind.isLeftBracket) span kind a b →
        P read (kind :: rest) a → P (read ++ [kind]) rest b)
    {tokens : List Token} {read : List TokenKind}
    (h : addAll v (endsWithLeftBracket read) tokens a = .ok b)
    (ha : P read (tokens.map Token.kind) a) : P (read ++ tokens.map Token.kind) [] b := by
  induction tokens generalizing a read with
  | nil =>
    cases h
    simpa using ha
  | cons token rest ih =>
    obtain ⟨c, hintake, hrest⟩ := addAll_cases h
    have hnext : startsWithLeftBracket rest =
        (rest.map Token.kind).head?.any TokenKind.isLeftBracket := by
      cases rest <;> rfl
    have hlast : token.kind.isLeftBracket = endsWithLeftBracket (read ++ [token.kind]) := by
      simp [endsWithLeftBracket]
    rw [hnext] at hintake
    rw [hlast] at hrest
    simpa using ih hrest (hstep hintake ha)

end Intakes

/-- A formula is finished when its last reductions leave one operand. -/
theorem finish_cases {a : Assembly} {t : Tree} (h : a.finish = .ok t) :
    ∃ span calls, Reductions Waiting.inGroup a ⟨[], Operands.empty.push ⟨t, span⟩, calls⟩ := by
  unfold finish at h
  split at h
  · cases h
  · rename_i b hb
    have hreductions := reductions_of_closeGroup hb
    have hstopped := hreductions.not_ready
    obtain ⟨waiting, operands, calls⟩ := b
    split at h
    · cases h
    · rename_i hbracket
      split at h
      · cases h
      · rename_i operand hitems
        cases h
        have hoperands : operands = Operands.empty.push operand :=
          Operands.ext (List.reverse_eq_cons_iff.mp hitems)
        have hwaiting : waiting = [] := by
          cases waiting with
          | nil => rfl
          | cons item waiting =>
            cases item with
            | leftBracket span => exact (hbracket span waiting rfl).elim
            | _ => cases hstopped _ rfl
        subst hoperands hwaiting
        exact ⟨operand.span, calls, hreductions⟩
      · cases h

theorem Reductions.finish {a : Assembly} {t : Tree} {span : Span} {calls : List OpenCall}
    (h : Reductions Waiting.inGroup a ⟨[], Operands.empty.push ⟨t, span⟩, calls⟩) :
    a.finish = .ok t := by
  have hclose : a.closeGroup = _ := h.applyWhile
  rw [Assembly.finish, hclose]
  rfl

end Assembly

namespace Tree

theorem ofTokens_cases {v : Vocabulary} {tokens : List Token} {t : Tree}
    (h : ofTokens v tokens = .ok t) :
    ∃ a span calls, Assembly.addAll v false tokens .empty = .ok a ∧
      a.Reductions Waiting.inGroup ⟨[], Operands.empty.push ⟨t, span⟩, calls⟩ := by
  unfold ofTokens readTokens at h
  split at h
  · cases h
  · rename_i a ha
    obtain ⟨span, calls, hfinish⟩ := Assembly.finish_cases h
    exact ⟨a, span, calls, ha, hfinish⟩

theorem parse_cases {locale : Locale} {v : Vocabulary} {text : String} {t : Tree}
    (h : parse locale v text = .ok t) :
    ∃ tokens, Token.scan locale text.toList = .ok tokens ∧ ofTokens v tokens = .ok t := by
  unfold parse readFormula at h
  split at h
  · cases h
  · cases h
  · rename_i tokens _ hscan
    exact ⟨tokens, hscan, h⟩

end Tree

end FormulaEngine
