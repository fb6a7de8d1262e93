import FormulaEngine.Proofs.AssemblySteps
import FormulaEngine.Proofs.InfixAcceptance
import Mathlib

/-!
The records of calls. A function leaves its stack long after its name was read: at a later operator,
bracket or separator, or at the end. All points that an assembly goes through are followed here,
those between reductions too and those before a failure. From one point to the next at most one
element comes or goes on the stack of what waits and on that of the records, so the record of a call
lies on the one where its function lies on the other, from the name of the function on until the
call is made.
-/
namespace FormulaEngine.Assembly

/-! ### The points of an assembly -/

/-- The points of a row of reductions, up to the first failure. -/
def reductionPoints (ready : Waiting → Bool) : List Waiting → Assembly → List Assembly
  | [], a => [{ a with waiting := [] }]
  | item :: rest, a =>
    { a with waiting := item :: rest } ::
      if ready item then
        match a.apply item with
        | .error _ => []
        | .ok b => reductionPoints ready rest b
      else []

/-- The points of taking in a token, without the last, where the token is taken in. -/
def tokenPoints (afterLeftBracket : Bool) (kind : TokenKind) (a : Assembly) : List Assembly :=
  match kind with
  | .operator op => reductionPoints (Waiting.yieldsTo op) a.waiting a
  | .separator => reductionPoints Waiting.inGroup a.waiting a
  | .rightBracket =>
    if afterLeftBracket then
      match a.updateCall? (fun _ => 0) with
      | none => [a]
      | some b => a :: reductionPoints Waiting.inGroup b.waiting b
    else reductionPoints Waiting.inGroup a.waiting a
  | _ => [a]

/-- The points of taking in tokens and finishing the formula, up to the first failure. -/
def points (v : Vocabulary) : Bool → List Token → Assembly → List Assembly
  | _, [], a => reductionPoints Waiting.inGroup a.waiting a
  | afterLeftBracket, token :: rest, a =>
    tokenPoints afterLeftBracket token.kind a ++
      match a.add v afterLeftBracket (startsWithLeftBracket rest) token with
      | .error _ => []
      | .ok b => points v token.kind.isLeftBracket rest b

/-! ### From a point to the next -/

/-- The assembly with a function that was just named and the record of its call. -/
def awaitCall (a : Assembly) (callee : Signature) (name : Span) : Assembly :=
  ⟨.function callee name :: a.waiting, a.operands, ⟨1, a.operands.count⟩ :: a.calls⟩

/-- All that can happen from a point to the next. -/
inductive Turn : Assembly → Assembly → Prop
  | operand (operand : Operand) (waiting : List Waiting) (operands : Operands)
      (calls : List OpenCall) :
      Turn ⟨waiting, operands, calls⟩ ⟨waiting, operands.push operand, calls⟩
  | await {item : Waiting} (hitem : item.isFunction = false) (waiting : List Waiting)
      (operands : Operands) (calls : List OpenCall) :
      Turn ⟨waiting, operands, calls⟩ ⟨item :: waiting, operands, calls⟩
  | release {item : Waiting} (hitem : item.isFunction = false) (waiting : List Waiting)
      (operands operands' : Operands) (calls : List OpenCall) :
      Turn ⟨item :: waiting, operands, calls⟩ ⟨waiting, operands', calls⟩
  | function (callee : Signature) (name : Span) (a : Assembly) : Turn a (a.awaitCall callee name)
  | call (callee : Signature) (name : Span) (waiting : List Waiting)
      (operands operands' : Operands) (call : OpenCall) (calls : List OpenCall) :
      Turn ⟨.function callee name :: waiting, operands, call :: calls⟩ ⟨waiting, operands', calls⟩
  | count (opened : Span) (callee : Signature) (name : Span) (waiting : List Waiting)
      (operands : Operands) (call : OpenCall) (calls : List OpenCall) (arguments : Nat) :
      Turn ⟨.leftBracket opened :: .function callee name :: waiting, operands, call :: calls⟩
        ⟨.leftBracket opened :: .function callee name :: waiting, operands,
          { call with arguments } :: calls⟩

theorem Turn.of_reduction {a b : Assembly} (h : Reduction a b) : Turn a b := by
  cases h with
  | negate => exact .release rfl _ _ _ _
  | binary => exact .release rfl _ _ _ _
  | call => exact .call _ _ _ _ _ _ _

theorem Turn.of_apply {item : Waiting} {a b : Assembly} (h : a.apply item = .ok b)
    (waiting : List Waiting) : Turn { a with waiting := item :: waiting } { b with waiting } := by
  by_cases hitem : item.isLeftBracket = true
  · cases item with
    | leftBracket span =>
      cases h
      exact .release rfl waiting _ _ _
    | _ => cases hitem
  · exact .of_reduction (.of_apply (Bool.eq_false_iff.mpr hitem) h waiting)

section Reductions

variable {ready : Waiting → Bool}

theorem head?_reductionPoints (items : List Waiting) (a : Assembly) :
    (reductionPoints ready items a).head? = some { a with waiting := items } := by
  cases items <;> rfl

theorem getLast?_reductionPoints {items : List Waiting} {a b : Assembly}
    (h : applyWhile ready items a = .ok b) :
    (reductionPoints ready items a).getLast? = some b := by
  induction items generalizing a with
  | nil =>
    cases h
    rfl
  | cons item items ih =>
    unfold applyWhile at h
    split at h
    · rename_i hready
      split at h
      · cases h
      · rename_i c hc
        rw [reductionPoints, if_pos hready, hc]
        dsimp only
        rw [List.getLast?_cons, ih h]
        rfl
    · rename_i hready
      rw [reductionPoints, if_neg hready]
      cases h
      rfl

theorem isChain_reductionPoints (items : List Waiting) (a : Assembly) :
    (reductionPoints ready items a).IsChain Turn := by
  induction items generalizing a with
  | nil => exact List.isChain_singleton _
  | cons item items ih =>
    unfold reductionPoints
    split
    · split
      · exact List.isChain_singleton _
      · rename_i b hb
        refine List.isChain_cons.mpr ⟨fun next hnext => ?_, ih b⟩
        rw [head?_reductionPoints] at hnext
        cases hnext
        exact .of_apply hb items
    · exact List.isChain_singleton _

end Reductions

section Tokens

variable {v : Vocabulary} {afterLeftBracket beforeLeftBracket : Bool} {span : Span}
  {kind : TokenKind} {a b : Assembly}

theorem Turn.of_updateCall? {update : Nat → Nat} (h : a.updateCall? update = some b) :
    Turn a b := by
  obtain ⟨opened, callee, name, waiting, operands, call, calls, rfl, rfl⟩ := updateCall?_cases h
  exact .count opened callee name waiting operands call calls _

theorem head?_tokenPoints (afterLeftBracket : Bool) (kind : TokenKind) (a : Assembly) :
    (tokenPoints afterLeftBracket kind a).head? = some a := by
  cases kind with
  | rightBracket =>
    unfold tokenPoints
    dsimp only
    split
    · split <;> rfl
    · exact head?_reductionPoints _ _
  | operator | separator => exact head?_reductionPoints _ _
  | _ => rfl

theorem isChain_tokenPoints (afterLeftBracket : Bool) (kind : TokenKind) (a : Assembly) :
    (tokenPoints afterLeftBracket kind a).IsChain Turn := by
  cases kind with
  | rightBracket =>
    unfold tokenPoints
    dsimp only
    split
    · split
      · exact List.isChain_singleton _
      · rename_i b hb
        refine List.isChain_cons.mpr ⟨fun next hnext => ?_, isChain_reductionPoints _ _⟩
        rw [head?_reductionPoints] at hnext
        cases hnext
        exact .of_updateCall? hb
    · exact isChain_reductionPoints _ _
  | operator | separator => exact isChain_reductionPoints _ _
  | _ => exact List.isChain_singleton _

/-- A token that is taken in makes the turn from the last of its points. -/
theorem Intake.turn (h : Intake v afterLeftBracket beforeLeftBracket span kind a b) :
    ∀ last ∈ (tokenPoints afterLeftBracket kind a).getLast?, Turn last b := by
  intro last hlast
  cases h with
  | integer | float | constant | var =>
    cases hlast
    exact .operand _ _ _ _
  | function =>
    cases hlast
    exact .function _ _ a
  | operator op h =>
    rw [tokenPoints, getLast?_reductionPoints h.applyWhile] at hlast
    cases hlast
    exact .await rfl _ _ _
  | leftBracket =>
    cases hlast
    exact .await rfl _ _ _
  | emptyList hafter opened name callee waiting operands call calls =>
    subst hafter
    cases hlast
    exact .release rfl _ _ _ _
  | rightBracket hafter h =>
    subst hafter
    rw [tokenPoints, if_neg Bool.false_ne_true, getLast?_reductionPoints h.applyWhile] at hlast
    cases hlast
    exact .release rfl _ _ _ _
  | separator h =>
    rw [tokenPoints, getLast?_reductionPoints h.applyWhile] at hlast
    cases hlast
    exact .count _ _ _ _ _ _ _ _

theorem head?_points (v : Vocabulary) (afterLeftBracket : Bool) (tokens : List Token)
    (a : Assembly) : (points v afterLeftBracket tokens a).head? = some a := by
  cases tokens with
  | nil => exact head?_reductionPoints _ _
  | cons token rest => rw [points, List.head?_append, head?_tokenPoints, Option.some_or]

theorem isChain_points (v : Vocabulary) (afterLeftBracket : Bool) (tokens : List Token)
    (a : Assembly) : (points v afterLeftBracket tokens a).IsChain Turn := by
  induction tokens generalizing afterLeftBracket a with
  | nil => exact isChain_reductionPoints _ _
  | cons token rest ih =>
    unfold points
    have htoken := isChain_tokenPoints afterLeftBracket token.kind a
    refine htoken.append ?_ fun last hlast next hnext => ?_
    · split
      · exact List.isChain_nil
      · exact ih _ _
    · split at hnext
      · cases hnext
      · rename_i b hb
        rw [head?_points] at hnext
        cases hnext
        exact (intake_of_add hb).turn last hlast

theorem getLast?_points {tokens : List Token} {c : Assembly}
    (h : addAll v afterLeftBracket tokens a = .ok b) (hclose : b.closeGroup = .ok c) :
    (points v afterLeftBracket tokens a).getLast? = some c := by
  induction tokens generalizing afterLeftBracket a with
  | nil =>
    cases h
    exact getLast?_reductionPoints hclose
  | cons token rest ih =>
    unfold addAll at h
    split at h
    · cases h
    · rename_i d hd
      rw [points, hd]
      dsimp only
      rw [List.getLast?_append, ih h]
      rfl

end Tokens

/-! ### Whose a record is -/

/-- Whether a function put down after the point `before` still waits and its record is still there,
under as many records as there are functions above it. -/
def Stands (callee : Signature) (name : Span) (before a : Assembly) : Prop :=
  ∃ above newer arguments,
    a.waiting = above ++ .function callee name :: before.waiting ∧
    a.calls = newer ++ ⟨arguments, before.operands.count⟩ :: before.calls ∧
    newer.length = above.countP Waiting.isFunction

/-- Whether a history has put a function down after the point `before`, its record with it, and both
have stood there ever since. -/
def Opened (history : List Assembly) (callee : Signature) (name : Span) (before : Assembly) :
    Prop :=
  ∃ earlier since, history = earlier ++ before :: since ∧
    since.head? = some (before.awaitCall callee name) ∧ ∀ a ∈ since, Stands callee name before a

theorem stands_awaitCall (callee : Signature) (name : Span) (before : Assembly) :
    Stands callee name before (before.awaitCall callee name) :=
  ⟨[], [], 1, rfl, rfl, rfl⟩

section Histories

variable {history : List Assembly} {callee : Signature} {name : Span} {before now next : Assembly}

theorem opened_awaitCall (history : List Assembly) (callee : Signature) (name : Span)
    (before : Assembly) :
    Opened (history ++ [before] ++ [before.awaitCall callee name]) callee name before := by
  refine ⟨history, [before.awaitCall callee name], List.append_assoc _ _ _, rfl, ?_⟩
  exact List.forall_mem_singleton.mpr (stands_awaitCall callee name before)

theorem Opened.snoc (h : Opened history callee name before)
    (hnext : Stands callee name before next) : Opened (history ++ [next]) callee name before := by
  obtain ⟨earlier, since, rfl, hhead, hsince⟩ := h
  refine ⟨earlier, since ++ [next], by simp, ?_, ?_⟩
  · rw [List.head?_append, hhead, Option.some_or]
  · exact List.forall_mem_append.mpr ⟨hsince, List.forall_mem_singleton.mpr hnext⟩

/-- Whether the records of a point are those of its functions, by the history up to it: as many of
the ones as of the others, and below as many functions as records each function finds the record
that it was put down with. -/
structure Paired (history : List Assembly) (now : Assembly) : Prop where
  count : now.calls.length = now.waiting.countP Waiting.isFunction
  opened : ∀ above callee name below, now.waiting = above ++ .function callee name :: below →
    ∃ before newer arguments, before.waiting = below ∧
      now.calls = newer ++ ⟨arguments, before.operands.count⟩ :: before.calls ∧
      newer.length = above.countP Waiting.isFunction ∧ Opened history callee name before

theorem paired_empty : Paired [.empty] .empty where
  count := rfl
  opened above callee name below h := by
    cases above <;> cases h

/-- A function that stood before a turn and stands after it goes with the same record. -/
theorem Opened.after {above : List Waiting} {arguments : Nat}
    (h : Opened history callee name before) (newer : List OpenCall)
    (hwaiting : next.waiting = above ++ .function callee name :: before.waiting)
    (hcalls : next.calls = newer ++ ⟨arguments, before.operands.count⟩ :: before.calls)
    (hlength : newer.length = above.countP Waiting.isFunction) :
    ∃ before' newer arguments, before'.waiting = before.waiting ∧
      next.calls = newer ++ ⟨arguments, before'.operands.count⟩ :: before'.calls ∧
      newer.length = above.countP Waiting.isFunction ∧
      Opened (history ++ [next]) callee name before' :=
  ⟨before, newer, arguments, rfl, hcalls, hlength,
    h.snoc ⟨above, newer, arguments, hwaiting, hcalls, hlength⟩⟩

/-- A turn leaves the records with their functions. -/
theorem Paired.turn {past : List Assembly} (h : Paired (past ++ [now]) now)
    (hturn : Turn now next) : Paired (past ++ [now] ++ [next]) next := by
  obtain ⟨hcount, hopened⟩ := h
  refine ⟨?_, fun above callee name below hsplit => ?_⟩
  · cases hturn with
    | operand | count => exact hcount
    | await hitem => rwa [List.countP_cons_of_neg (by simp [hitem])]
    | release hitem => rwa [List.countP_cons_of_neg (by simp [hitem])] at hcount
    | function =>
      rw [awaitCall, List.countP_cons_of_pos rfl, List.length_cons, hcount]
    | call =>
      rw [List.countP_cons_of_pos rfl] at hcount
      exact Nat.succ_inj.mp hcount
  · cases hturn with
    | operand operand waiting operands calls =>
      obtain ⟨before, newer, arguments, rfl, hcalls, hlength, hbefore⟩ :=
        hopened above callee name below hsplit
      exact hbefore.after newer hsplit hcalls hlength
    | @await item hitem waiting operands calls =>
      cases above with
      | nil =>
        cases hsplit
        cases hitem
      | cons first above =>
        obtain ⟨rfl, hsplit'⟩ := List.cons_eq_cons.mp hsplit
        obtain ⟨before, newer, arguments, rfl, hcalls, hlength, hbefore⟩ :=
          hopened above callee name below hsplit'
        refine hbefore.after newer hsplit hcalls ?_
        rwa [List.countP_cons_of_neg (by simp [hitem])]
    | @release item hitem waiting operands operands' calls =>
      obtain ⟨before, newer, arguments, rfl, hcalls, hlength, hbefore⟩ :=
        hopened (item :: above) callee name below (congrArg _ hsplit)
      rw [List.countP_cons_of_neg (by simp [hitem])] at hlength
      exact hbefore.after newer hsplit hcalls hlength
    | function =>
      cases above with
      | nil =>
        cases hsplit
        exact ⟨now, [], 1, rfl, rfl, rfl, opened_awaitCall past _ _ now⟩
      | cons first above =>
        obtain ⟨rfl, hsplit'⟩ := List.cons_eq_cons.mp hsplit
        obtain ⟨before, newer, arguments, rfl, hcalls, hlength, hbefore⟩ :=
          hopened above callee name below hsplit'
        refine hbefore.after (⟨1, now.operands.count⟩ :: newer) hsplit (congrArg _ hcalls) ?_
        rw [List.countP_cons_of_pos rfl, ← hlength]
        rfl
    | call other place waiting operands operands' call calls =>
      obtain ⟨before, newer, arguments, rfl, hcalls, hlength, hbefore⟩ :=
        hopened (.function other place :: above) callee name below (congrArg _ hsplit)
      rw [List.countP_cons_of_pos rfl] at hlength
      -- The function that is called was above, so the record that it takes is not this one.
      cases newer with
      | nil => cases hlength
      | cons newest newer =>
        exact hbefore.after newer hsplit (List.cons_eq_cons.mp hcalls).2 (Nat.succ_inj.mp hlength)
    | count opened other place waiting operands call calls arguments' =>
      obtain ⟨before, newer, arguments, rfl, hcalls, hlength, hbefore⟩ :=
        hopened above callee name below hsplit
      cases newer with
      | nil =>
        obtain ⟨rfl, rfl⟩ := List.cons_eq_cons.mp hcalls
        exact hbefore.after [] hsplit rfl hlength
      | cons newest newer =>
        obtain ⟨rfl, rfl⟩ := List.cons_eq_cons.mp hcalls
        exact hbefore.after ({ call with arguments := arguments' } :: newer) hsplit rfl hlength

/-- Along a row of turns that starts from nothing, the records are those of the functions. -/
theorem paired_of_isChain {row past later : List Assembly} (h : row.IsChain Turn)
    (hhead : row.head? = some .empty) (hrow : row = past ++ now :: later) :
    Paired (past ++ [now]) now := by
  subst hrow
  induction past using List.reverseRecOn generalizing now later with
  | nil =>
    cases hhead
    exact paired_empty
  | append_singleton past last ih =>
    rw [List.append_assoc] at h hhead
    have hturn : Turn last now := (List.isChain_append_cons_cons.mp h).2.1
    exact (ih h hhead).turn hturn

/-- With no other function above it, a function finds its own record on top. -/
theorem Paired.newest (h : Paired history now) (above : List Waiting) {below : List Waiting}
    (hwaiting : now.waiting = above ++ .function callee name :: below)
    (habove : above.countP Waiting.isFunction = 0) :
    ∃ before arguments, before.waiting = below ∧
      now.calls = ⟨arguments, before.operands.count⟩ :: before.calls ∧
      Opened history callee name before := by
  obtain ⟨before, newer, arguments, hbelow, hcalls, hlength, hbefore⟩ :=
    h.opened above callee name below hwaiting
  rw [habove, List.length_eq_zero_iff] at hlength
  subst hlength
  exact ⟨before, arguments, hbelow, hcalls, hbefore⟩

theorem calls_of_applyCall (h : now.applyCall callee name = .ok next) :
    now.calls.tail = next.calls := by
  unfold applyCall at h
  split at h
  · cases h
  · rename_i call calls hcalls
    rw [hcalls]
    split at h
    · cases h
    · split at h
      · cases h
      · split at h <;> cases h
        rfl

end Histories

/-- At every point that an assembly goes through, and whether or not the formula is read to its end,
the records are those of the functions that wait. So the argument that a separator begins and the
list that has none are counted for the function before the innermost bracket, and a call takes the
record that its function was put down with. In the end no record is left. -/
theorem records_follow_functions (v : Vocabulary) (tokens : List Token) :
    let row := points v false tokens .empty
    row.IsChain Turn ∧
    (∀ past now later, row = past ++ now :: later →
      Paired (past ++ [now]) now ∧
      (∀ update next, now.updateCall? update = some next →
        ∃ opened callee name before arguments,
          now.waiting = .leftBracket opened :: .function callee name :: before.waiting ∧
          now.calls = ⟨arguments, before.operands.count⟩ :: before.calls ∧
          next = { now with calls := ⟨update arguments, before.operands.count⟩ :: before.calls } ∧
          Opened (past ++ [now]) callee name before) ∧
      ∀ callee name below, now.waiting = .function callee name :: below →
        ∃ before arguments, before.waiting = below ∧
          now.calls = ⟨arguments, before.operands.count⟩ :: before.calls ∧
          Opened (past ++ [now]) callee name before ∧
          ∀ next, now.applyCall callee name = .ok next → next.calls = before.calls) ∧
    ∀ t, Tree.ofTokens v tokens = .ok t →
      ∃ span, row.getLast? = some ⟨[], Operands.empty.push ⟨t, span⟩, []⟩ := by
  intro row
  have hchain : row.IsChain Turn := isChain_points v false tokens .empty
  have hpaired {past now later} (hrow : row = past ++ now :: later) :
      Paired (past ++ [now]) now :=
    paired_of_isChain hchain (head?_points v false tokens .empty) hrow
  refine ⟨hchain, fun past now later hrow => ⟨hpaired hrow, fun update next hupdate => ?_,
    fun callee name below hwaiting => ?_⟩, fun t ht => ?_⟩
  · obtain ⟨opened, callee, name, waiting, operands, call, calls, rfl, rfl⟩ :=
      updateCall?_cases hupdate
    obtain ⟨before, arguments, rfl, hcalls, hbefore⟩ :=
      (hpaired hrow).newest [.leftBracket opened] rfl rfl
    obtain ⟨rfl, rfl⟩ := List.cons_eq_cons.mp hcalls
    exact ⟨opened, callee, name, before, arguments, rfl, rfl, rfl, hbefore⟩
  · obtain ⟨before, arguments, hbelow, hcalls, hbefore⟩ :=
      (hpaired hrow).newest [] hwaiting rfl
    refine ⟨before, arguments, hbelow, hcalls, hbefore, fun next hnext => ?_⟩
    rw [← calls_of_applyCall hnext, hcalls]
    rfl
  · obtain ⟨a, span, calls, ha, hreductions⟩ := Tree.ofTokens_cases ht
    have hlast := getLast?_points ha hreductions.applyWhile
    obtain ⟨past, hrow⟩ := List.getLast?_eq_some_iff.mp hlast
    have hcalls : calls = [] := List.length_eq_zero_iff.mp (hpaired hrow).count
    exact ⟨span, hcalls ▸ hlast⟩

end FormulaEngine.Assembly
