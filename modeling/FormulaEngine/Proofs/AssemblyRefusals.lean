import FormulaEngine.Proofs.InfixAcceptance
import FormulaEngine.Proofs.TokenCoverage
import Mathlib.Logic.Relation

/-!
Why tokens are refused. Reductions stop short at an element that lacks operands, and a token is
refused if it cannot be put down, or if the reductions before it stop short. Whatever is complained
of stands in the text, and the complaint is about the place where it stands. Two complaints are
never made: every function that waits has the record of its call, and while there is no operand,
something waits for one.
-/
namespace FormulaEngine

theorem Span.Within.cover {a b : Span} {length : Nat} (ha : a.Within length)
    (hb : b.Within length) : (a.cover b).Within length where
  nonempty := Nat.lt_of_le_of_lt (Nat.min_le_left _ _)
    (Nat.lt_of_lt_of_le ha.nonempty (Nat.le_max_left _ _))
  inside := Nat.max_le.mpr ⟨ha.inside, hb.inside⟩

/-- Where an element stands in the text. -/
def Waiting.span : Waiting → Span
  | operator _ span | function _ span | leftBracket span => span

/-- Whether a formula can be refused for a cause. Assembly is never driven to two of its complaints;
the names and numerals that others quote hold no blank. -/
def ParseError.Cause.Possible : ParseError.Cause → Prop
  | noOperands | noArgumentList _ => False
  | badNumeral text | functionWithoutArguments text | argumentCount text _ _
  | missingArgument text | breakdown text => ' ' ∉ text.toList
  | _ => True

theorem Text.blank_not_mem {text : List Char} (h : ∀ c ∈ text, isNamePart c = true) :
    ' ' ∉ text :=
  fun hmem => absurd (h ' ' hmem) (by decide)

namespace Assembly

section Refusals

/-- Why an element cannot take its operands. -/
inductive Lacking (operands : Operands) (calls : List OpenCall) :
    Waiting → ParseError.Cause → Prop
  | operand (op : Operator) (span : Span) (h : operands.count < 2) :
      Lacking operands calls (.operator op span) (.missingOperand op.symbol)
  | record (callee : Signature) (span : Span) (h : calls = []) :
      Lacking operands calls (.function callee span) (.noArgumentList callee.name)
  | fit {callee : Signature} {call : OpenCall} (span : Span) (hcall : calls.head? = some call)
      (h : callee.accepts call.arguments = false) :
      Lacking operands calls (.function callee span)
        (.argumentCount callee.name (callee.arity.getD 0) call.arguments)
  | argument {callee : Signature} {call : OpenCall} (span : Span)
      (hcall : calls.head? = some call) (h : operands.count - call.base ≠ call.arguments) :
      Lacking operands calls (.function callee span) (.missingArgument callee.name)
  | base {callee : Signature} {call : OpenCall} (span : Span)
      (hcall : calls.head? = some call) (h : operands.count < call.base) :
      Lacking operands calls (.function callee span) (.breakdown callee.name)

variable {a : Assembly} {e : ParseError}

private theorem lacking_of_applyOperator {op : Operator} {span : Span}
    (h : a.applyOperator op span = .error e) :
    Lacking a.operands a.calls (.operator op span) e.cause ∧ e.span = span := by
  obtain ⟨waiting, ⟨items, count, hcount⟩, calls⟩ := a
  have hfew : items.length < 2 → count < 2 := fun h => hcount ▸ h
  cases op with
  | unaryMinus =>
    cases items with
    | nil =>
      cases h
      exact ⟨.operand .unaryMinus span (hfew Nat.two_pos), rfl⟩
    | cons argument items => cases h
  | binary op =>
    rcases items with _ | ⟨right, _ | ⟨left, items⟩⟩
    · cases h
      exact ⟨.operand (.binary op) span (hfew Nat.two_pos), rfl⟩
    · cases h
      exact ⟨.operand (.binary op) span (hfew Nat.one_lt_two), rfl⟩
    · cases h

private theorem lacking_of_applyCall {callee : Signature} {span : Span}
    (h : a.applyCall callee span = .error e) :
    Lacking a.operands a.calls (.function callee span) e.cause ∧ e.span = span := by
  unfold applyCall at h
  split at h
  · rename_i hcalls
    cases h
    exact ⟨.record callee span hcalls, rfl⟩
  · rename_i call calls hcalls
    have hcall : a.calls.head? = some call := by rw [hcalls]; rfl
    split at h
    · rename_i hrefused
      cases h
      exact ⟨.fit span hcall (by simpa using hrefused), rfl⟩
    · split at h
      · rename_i hcount
        cases h
        exact ⟨.argument span hcall hcount, rfl⟩
      · split at h
        · rename_i hbase
          cases h
          exact ⟨.base span hcall hbase, rfl⟩
        · cases h

theorem lacking_of_apply {item : Waiting} (h : a.apply item = .error e) :
    Lacking a.operands a.calls item e.cause ∧ e.span = item.span := by
  cases item with
  | operator op span => exact lacking_of_applyOperator h
  | function callee span => exact lacking_of_applyCall h
  | leftBracket span => cases h

/-- Whether reductions get to an element that lacks operands, and what is complained of then. -/
def StopsShort (a : Assembly) (e : ParseError) : Prop :=
  ∃ item waiting operands calls,
    Relation.ReflTransGen Reduction a ⟨item :: waiting, operands, calls⟩ ∧
      Lacking operands calls item e.cause ∧ e.span = item.span

theorem stopsShort_of_applyWhile {ready : Waiting → Bool}
    (hbracket : ∀ span, ready (.leftBracket span) = false) {items : List Waiting}
    (h : applyWhile ready items a = .error e) : StopsShort { a with waiting := items } e := by
  induction items generalizing a with
  | nil => cases h
  | cons item items ih =>
    unfold applyWhile at h
    split at h
    · rename_i hready
      have hitem : item.isLeftBracket = false := by
        cases item with
        | leftBracket span => rw [hbracket] at hready; cases hready
        | _ => rfl
      split at h
      · rename_i hitem
        cases h
        obtain ⟨hlacking, hspan⟩ := lacking_of_apply hitem
        exact ⟨item, items, a.operands, a.calls, .refl, hlacking, hspan⟩
      · rename_i b hb
        obtain ⟨item', waiting, operands, calls, hreductions, hlacking⟩ := ih h
        exact ⟨item', waiting, operands, calls,
          .head (.of_apply hitem hb items) hreductions, hlacking⟩
    · cases h

theorem stopsShort_of_closeGroup (h : a.closeGroup = .error e) : StopsShort a e :=
  stopsShort_of_applyWhile (fun _ => rfl) h

/-- Why a token is refused, by what stands beside it. -/
inductive Refusal (v : Vocabulary) (afterLeftBracket beforeLeftBracket : Bool) (span : Span)
    (a : Assembly) : TokenKind → ParseError → Prop
  | function {name : String} {callee : Signature} (hfunction : v.function? name = some callee)
      (hbefore : beforeLeftBracket = false) :
      Refusal v afterLeftBracket beforeLeftBracket span a (.name name)
        ⟨.functionWithoutArguments name, span⟩
  | short {kind : TokenKind} {e : ParseError} (h : StopsShort a e) :
      Refusal v afterLeftBracket beforeLeftBracket span a kind e
  | emptyBrackets (hafter : afterLeftBracket = true) :
      Refusal v afterLeftBracket beforeLeftBracket span a .rightBracket ⟨.emptyBrackets, span⟩
  | rightBracket (hafter : afterLeftBracket = false) :
      Refusal v afterLeftBracket beforeLeftBracket span a .rightBracket
        ⟨.missingLeftBracket, span⟩
  | separator :
      Refusal v afterLeftBracket beforeLeftBracket span a .separator ⟨.unexpectedSeparator, span⟩

variable {v : Vocabulary} {afterLeftBracket beforeLeftBracket : Bool}

private theorem refusal_of_addName {name : String} {span : Span}
    (h : a.addName v name beforeLeftBracket span = .error e) :
    Refusal v afterLeftBracket beforeLeftBracket span a (.name name) e := by
  unfold addName at h
  split at h
  · rename_i callee hfunction
    split at h
    · cases h
    · rename_i hbefore
      cases h
      exact .function hfunction (Bool.eq_false_iff.mpr hbefore)
  · split at h <;> cases h

private theorem refusal_of_addRightBracket {span : Span}
    (h : a.addRightBracket afterLeftBracket span = .error e) :
    Refusal v afterLeftBracket beforeLeftBracket span a .rightBracket e := by
  unfold addRightBracket at h
  cases afterLeftBracket with
  | true =>
    rw [if_pos rfl] at h
    split at h
    · cases h
      exact .emptyBrackets rfl
    · rename_i b hb
      obtain ⟨opened, callee, name, waiting, operands, call, calls, rfl, rfl⟩ :=
        updateCall?_cases hb
      cases h
  | false =>
    rw [if_neg Bool.false_ne_true] at h
    dsimp only at h
    split at h
    · rename_i e' hclose
      cases h
      exact .short (stopsShort_of_closeGroup hclose)
    · split at h
      · cases h
      · cases h
        exact .rightBracket rfl

/-- All that can be wrong with a token. -/
theorem refusal_of_add {token : Token}
    (h : a.add v afterLeftBracket beforeLeftBracket token = .error e) :
    Refusal v afterLeftBracket beforeLeftBracket token.span a token.kind e := by
  obtain ⟨kind, span⟩ := token
  cases kind with
  | integer | float | leftBracket => cases h
  | name name => exact refusal_of_addName h
  | rightBracket => exact refusal_of_addRightBracket h
  | operator op =>
    change a.addOperator op span = .error e at h
    unfold addOperator at h
    split at h
    · rename_i e' happly
      cases h
      exact .short (stopsShort_of_applyWhile (fun _ => rfl) happly)
    · cases h
  | separator =>
    change a.addSeparator span = .error e at h
    unfold addSeparator at h
    split at h
    · rename_i e' hclose
      cases h
      exact .short (stopsShort_of_closeGroup hclose)
    · split at h
      · cases h
      · cases h
        exact .separator

end Refusals

/-- The parts of an assembly stand in a text of the given length, its functions have names, and
every function that waits has the record of its call. -/
structure Sound (length : Nat) (a : Assembly) : Prop where
  waiting : ∀ item ∈ a.waiting, item.span.Within length
  operands : ∀ operand ∈ a.operands.items, operand.span.Within length
  named : ∀ callee span, .function callee span ∈ a.waiting → Text.isName callee.name = true
  matched : a.calls.length = a.waiting.countP Waiting.isFunction

namespace Sound

variable {length : Nat} {a b : Assembly}

theorem empty (length : Nat) : Sound length .empty := ⟨nofun, nofun, nofun, rfl⟩

theorem pushOperand (h : Sound length a) (t : Tree) {span : Span} (hspan : span.Within length) :
    Sound length (a.pushOperand t span) :=
  ⟨h.waiting, List.forall_mem_cons.mpr ⟨hspan, h.operands⟩, h.named, h.matched⟩

theorem await (h : Sound length a) {item : Waiting} (hitem : item.isFunction = false)
    (hspan : item.span.Within length) : Sound length { a with waiting := item :: a.waiting } where
  waiting := List.forall_mem_cons.mpr ⟨hspan, h.waiting⟩
  operands := h.operands
  named callee span hmem := by
    rcases List.mem_cons.mp hmem with rfl | hmem
    · cases hitem
    · exact h.named callee span hmem
  matched := by rw [List.countP_cons_of_neg (by simp [hitem]), ← h.matched]

theorem within_foldl_cover {span : Span} (hspan : span.Within length) {arguments : List Operand}
    (h : ∀ argument ∈ arguments, argument.span.Within length) :
    (arguments.foldl (fun span argument => span.cover argument.span) span).Within length := by
  induction arguments generalizing span with
  | nil => exact hspan
  | cons argument arguments ih =>
    obtain ⟨hargument, harguments⟩ := List.forall_mem_cons.mp h
    exact ih (hspan.cover hargument) harguments

theorem reduce (hreduce : Reduction a b) (h : Sound length a) : Sound length b := by
  obtain ⟨hwaiting, hoperands, hnamed, hmatched⟩ := h
  obtain ⟨hspan, hrest⟩ : (∀ item ∈ a.waiting.head?, item.span.Within length) ∧
      ∀ item ∈ b.waiting, item ∈ a.waiting := by
    cases hreduce <;>
      exact ⟨fun item hitem => hwaiting item (List.mem_of_mem_head? hitem),
        fun item hitem => List.mem_cons_of_mem _ hitem⟩
  refine ⟨fun item hitem => hwaiting item (hrest item hitem), ?_,
    fun callee span hmem => hnamed callee span (hrest _ hmem), ?_⟩
  · cases hreduce with
    | negate argument minus waiting operands calls =>
      have hspan := hspan _ rfl
      obtain ⟨hargument, hoperands⟩ := List.forall_mem_cons.mp hoperands
      exact List.forall_mem_cons.mpr ⟨hspan.cover hargument, hoperands⟩
    | binary op left right middle waiting operands calls =>
      obtain ⟨hright, hoperands⟩ := List.forall_mem_cons.mp hoperands
      obtain ⟨hleft, hoperands⟩ := List.forall_mem_cons.mp hoperands
      exact List.forall_mem_cons.mpr ⟨hleft.cover hright, hoperands⟩
    | @call callee arguments haccepts name waiting operands calls =>
      rw [Operands.items_pushAll, List.forall_mem_append] at hoperands
      obtain ⟨harguments, hoperands⟩ := hoperands
      refine List.forall_mem_cons.mpr ⟨?_, hoperands⟩
      exact within_foldl_cover (hspan _ rfl) fun argument hargument =>
        harguments argument (List.mem_reverse.mpr hargument)
  · cases hreduce <;> simpa [Waiting.isFunction, List.countP_cons] using hmatched

theorem reductions {ready : Waiting → Bool} (hreductions : Reductions ready a b)
    (h : Sound length a) : Sound length b :=
  hreductions.keeps (fun hreduce => reduce hreduce) h

variable {v : Vocabulary} {afterLeftBracket beforeLeftBracket : Bool} {span : Span}
  {kind : TokenKind}

theorem intake (hnamed : ∀ name callee, v.function? name = some callee →
      Text.isName callee.name = true)
    (hintake : Intake v afterLeftBracket beforeLeftBracket span kind a b)
    (hspan : span.Within length) (h : Sound length a) : Sound length b := by
  cases hintake with
  | integer | float | constant | var => exact h.pushOperand _ hspan
  | @function name callee hfunction hbefore =>
    refine ⟨List.forall_mem_cons.mpr ⟨hspan, h.waiting⟩, h.operands, fun other place hmem => ?_, ?_⟩
    · rcases List.mem_cons.mp hmem with heq | hmem
      · cases heq
        exact hnamed name callee hfunction
      · exact h.named other place hmem
    · rw [List.length_cons, h.matched, List.countP_cons_of_pos rfl]
  | operator op hreductions => exact (h.reductions hreductions).await rfl hspan
  | leftBracket => exact h.await rfl hspan
  | emptyList => exact ⟨fun item hitem => h.waiting item (List.mem_cons_of_mem _ hitem), h.operands,
      fun callee span hmem => h.named callee span (List.mem_cons_of_mem _ hmem), h.matched⟩
  | rightBracket hafter hreductions =>
    obtain ⟨hwaiting, hoperands, hnames, hmatched⟩ := h.reductions hreductions
    exact ⟨fun item hitem => hwaiting item (List.mem_cons_of_mem _ hitem), hoperands,
      fun callee span hmem => hnames callee span (List.mem_cons_of_mem _ hmem), hmatched⟩
  | separator hreductions =>
    obtain ⟨hwaiting, hoperands, hnames, hmatched⟩ := h.reductions hreductions
    exact ⟨hwaiting, hoperands, hnames, hmatched⟩

/-- A function that waits has its record, so no complaint is about a record that is not there. -/
theorem stopsShort {e : ParseError} (hshort : StopsShort a e) (h : Sound length a) :
    e.cause.Possible ∧ e.span.Within length ∧ e.cause ≠ .missingLeftBracket := by
  obtain ⟨item, waiting, operands, calls, hreductions, hlacking, hspan⟩ := hshort
  have hstop : ∀ {b}, Relation.ReflTransGen Reduction a b → Sound length b := by
    intro b hreductions
    induction hreductions with
    | refl => exact h
    | tail _ hreduce ih => exact ih.reduce hreduce
  obtain ⟨hwaiting, -, hnamed, hmatched⟩ := hstop hreductions
  have hwithin : e.span.Within length := hspan ▸ hwaiting item List.mem_cons_self
  have hblank : ∀ callee span, item = .function callee span → ' ' ∉ callee.name.toList := by
    rintro callee span rfl
    exact Text.blank_not_mem (Text.isNamePart_of_isName (hnamed callee span List.mem_cons_self))
  generalize e.cause = cause at hlacking
  cases hlacking with
  | operand op span => exact ⟨trivial, hwithin, nofun⟩
  | record callee span hnone =>
    rw [hnone, List.countP_cons_of_pos rfl] at hmatched
    cases hmatched
  | fit span hcall hrefused => exact ⟨hblank _ span rfl, hwithin, nofun⟩
  | argument span hcall hcount => exact ⟨hblank _ span rfl, hwithin, nofun⟩
  | base span hcall hbase => exact ⟨hblank _ span rfl, hwithin, nofun⟩

end Sound

/-- What waits while there is no operand, by what was read. -/
inductive Grounded (read : List TokenKind) : List Waiting → Prop
  | nothing (h : read = []) : Grounded read []
  | element {item : Waiting} (h : item.isLeftBracket = false) (waiting : List Waiting) :
      Grounded read (item :: waiting)
  | bracket (h : endsWithLeftBracket read = true) (opened : Span) (waiting : List Waiting) :
      Grounded read (.leftBracket opened :: waiting)
  | list (opened : Span) (callee : Signature) (name : Span) (waiting : List Waiting) :
      Grounded read (.leftBracket opened :: .function callee name :: waiting)

theorem Reduction.count_pos {a b : Assembly} (h : Reduction a b) : 0 < b.operands.count := by
  cases h <;> exact Nat.succ_pos _

/-- A reduction leaves an operand, so there was none of them if there is no operand in the end. -/
theorem Reductions.eq_of_count {ready : Waiting → Bool} {a b : Assembly} (h : Reductions ready a b)
    (hnone : b.operands.count = 0) : a = b := by
  cases h with
  | stop => rfl
  | step hready hreduce hrest =>
    have hpos := hrest.keeps (P := fun c => 0 < c.operands.count) (fun h _ => h.count_pos)
      hreduce.count_pos
    exact absurd hnone (Nat.ne_of_gt hpos)

theorem Grounded.intake {v : Vocabulary} {read : List TokenKind} {beforeLeftBracket : Bool}
    {span : Span} {kind : TokenKind} {a b : Assembly}
    (hintake : Intake v (endsWithLeftBracket read) beforeLeftBracket span kind a b)
    (h : a.operands.count = 0 → Grounded read a.waiting) (hnone : b.operands.count = 0) :
    Grounded (read ++ [kind]) b.waiting := by
  cases hintake with
  | integer | float | constant | var => exact absurd hnone (Nat.succ_ne_zero _)
  | function => exact .element rfl _
  | operator => exact .element rfl _
  | leftBracket => exact .bracket (by simp [endsWithLeftBracket, TokenKind.isLeftBracket]) _ _
  | emptyList => exact .element rfl _
  | rightBracket hafter hreductions =>
    -- Without an operand nothing was applied: the bracket was there, with a function before it.
    obtain rfl := hreductions.eq_of_count hnone
    cases h hnone with
    | element hitem => cases hitem
    | bracket hlast =>
      rw [hafter] at hlast
      cases hlast
    | list opened callee name waiting => exact .element rfl waiting
  | separator => exact .list _ _ _ _

/-- A complaint is possible, stands in the text, and is about a right bracket if it says so. -/
structure Blames (length : Nat) (tokens : List Token) (e : ParseError) : Prop where
  possible : e.cause.Possible
  within : e.span.Within length
  rightBracket : e.cause = .missingLeftBracket → ⟨.rightBracket, e.span⟩ ∈ tokens

theorem Sound.blames {length : Nat} {a : Assembly} {e : ParseError} (hshort : StopsShort a e)
    (h : Sound length a) (tokens : List Token) : Blames length tokens e := by
  obtain ⟨hpossible, hwithin, hne⟩ := h.stopsShort hshort
  exact ⟨hpossible, hwithin, fun heq => absurd heq hne⟩

variable {v : Vocabulary} {length : Nat}

theorem Refusal.blames {afterLeftBracket beforeLeftBracket : Bool} {token : Token} {a : Assembly}
    {e : ParseError}
    (h : Refusal v afterLeftBracket beforeLeftBracket token.span a token.kind e)
    (hspan : token.span.Within length)
    (hname : ∀ text, token.kind = .name text → ' ' ∉ text.toList) (ha : Sound length a)
    {tokens : List Token} (htoken : token ∈ tokens) : Blames length tokens e := by
  obtain ⟨kind, span⟩ := token
  cases h with
  | function => exact ⟨hname _ rfl, hspan, nofun⟩
  | short hshort => exact ha.blames hshort tokens
  | emptyBrackets | separator => exact ⟨trivial, hspan, nofun⟩
  | rightBracket => exact ⟨trivial, hspan, fun _ => htoken⟩

/-- A row of tokens is taken in, or one of them is refused for a reason that is in the text. -/
theorem addAll_sound (hnamed : ∀ name callee, v.function? name = some callee →
      Text.isName callee.name = true) {tokens : List Token}
    (hwithin : ∀ token ∈ tokens, token.span.Within length)
    (hname : ∀ token ∈ tokens, ∀ text, token.kind = .name text → ' ' ∉ text.toList)
    (afterLeftBracket : Bool) {a : Assembly} (ha : Sound length a) :
    (∃ b, addAll v afterLeftBracket tokens a = .ok b ∧ Sound length b) ∨
      ∃ e, addAll v afterLeftBracket tokens a = .error e ∧ Blames length tokens e := by
  induction tokens generalizing afterLeftBracket a with
  | nil => exact .inl ⟨a, rfl, ha⟩
  | cons token rest ih =>
    rw [List.forall_mem_cons] at hwithin hname
    unfold addAll
    cases hadd : a.add v afterLeftBracket (startsWithLeftBracket rest) token with
    | error e =>
      exact .inr ⟨e, rfl, (refusal_of_add hadd).blames hwithin.1 hname.1 ha List.mem_cons_self⟩
    | ok b =>
      have hb : Sound length b := ha.intake hnamed (intake_of_add hadd) hwithin.1
      rcases ih hwithin.2 hname.2 token.kind.isLeftBracket hb with
        hfine | ⟨e, he, hpossible, hplace, hbracket⟩
      · exact .inl hfine
      · exact .inr ⟨e, he, hpossible, hplace, fun h => List.mem_cons_of_mem _ (hbracket h)⟩

theorem finish_blames {a : Assembly} (ha : Sound length a) {read : List TokenKind}
    (hread : read ≠ []) (hgrounded : a.operands.count = 0 → Grounded read a.waiting) {e : ParseError}
    (h : a.finish = .error e) (tokens : List Token) : Blames length tokens e := by
  unfold finish at h
  split at h
  · rename_i e' hclose
    cases h
    exact ha.blames (stopsShort_of_closeGroup hclose) tokens
  · rename_i b hclose
    have hreductions := reductions_of_closeGroup hclose
    have hb : Sound length b := ha.reductions hreductions
    have hstopped := hreductions.not_ready
    split at h
    · rename_i opened waiting hwaiting
      cases h
      have hspan := hb.waiting (.leftBracket opened) (by rw [hwaiting]; exact List.mem_cons_self)
      exact ⟨trivial, hspan, nofun⟩
    · rename_i hbracket
      split at h
      · rename_i hitems
        -- Without an operand nothing was applied, and then something waits, but not a bracket.
        exfalso
        have hnone : b.operands.count = 0 := by
          rw [b.operands.count_eq, List.reverse_eq_nil_iff.mp hitems]
          rfl
        obtain rfl := hreductions.eq_of_count hnone
        generalize a.waiting = waiting at *
        cases hgrounded hnone with
        | nothing hempty => exact hread hempty
        | element hitem =>
          have := hstopped _ rfl
          rw [Waiting.inGroup, hitem] at this
          cases this
        | bracket _ opened waiting => exact hbracket opened waiting rfl
        | list opened callee name waiting => exact hbracket opened _ rfl
      · cases h
      · rename_i first operand rest hitems
        cases h
        have hspan := hb.operands operand (List.mem_reverse.mp (by
          rw [hitems]
          exact List.mem_cons_of_mem _ List.mem_cons_self))
        unfold leftover
        split <;> exact ⟨trivial, hspan, nofun⟩

end Assembly

/-- Tokens that cover a text are refused for a reason that is in the text. -/
theorem Tree.ofTokens_blames {locale : Locale} {v : Vocabulary}
    (hnamed : ∀ name callee, v.function? name = some callee → Text.isName callee.name = true)
    {text : List Char} {tokens : List Token} (hcover : Token.Cover locale text tokens)
    (hne : tokens ≠ []) {e : ParseError} (h : ofTokens v tokens = .error e) :
    Assembly.Blames text.length tokens e := by
  have hname : ∀ token ∈ tokens, ∀ name, token.kind = .name name → ' ' ∉ name.toList := by
    intro token htoken name hkind
    have hspelled := hcover.spelled token htoken
    rw [hkind] at hspelled
    obtain ⟨rfl, hparts⟩ := hspelled
    rw [String.toList_ofList]
    exact Text.blank_not_mem hparts
  unfold ofTokens readTokens at h
  rcases Assembly.addAll_sound hnamed hcover.within hname false (.empty _) with
    ⟨a, hadd, ha⟩ | ⟨e', hadd, hblames⟩
  · rw [hadd] at h
    have hstart : Assembly.addAll v (Assembly.endsWithLeftBracket []) tokens .empty = .ok a := hadd
    have hgrounded := Assembly.addAll_keeps
      (P := fun read _ a => a.operands.count = 0 → Assembly.Grounded read a.waiting)
      (fun hintake ha hnone => .intake hintake ha hnone) hstart fun _ => .nothing rfl
    exact Assembly.finish_blames ha (by simpa using hne) hgrounded h tokens
  · rw [hadd] at h
    cases h
    exact hblames

end FormulaEngine
