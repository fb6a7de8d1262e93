import FormulaEngine.Machine
import FormulaEngine.Proofs.ProgramEncoding
import FormulaEngine.Proofs.Registrations

/-!
Agreement of the two ways to evaluate. A program does what the walk over its tree does,
also when functions were registered after it was made: the functions bound in it are
those that cannot be overwritten. Only a variable without a value tells the two apart,
since a program finds the values of all variables before it calls anything.
-/
namespace FormulaEngine

variable {σ : Type}

namespace Machine

theorem resolve_of_defined {scope : Scope σ} {names : List String}
    (h : ∀ name ∈ names, scope.defines name = true) (slots : Array Float) :
    ∃ values : List Float,
      List.Forall₂ (fun name value => scope.variable name = .ok value) names values ∧
      resolve scope names slots = (.ok (), slots ++ values.toArray) := by
  induction names generalizing slots with
  | nil => exact ⟨[], .nil, by simp [resolve]⟩
  | cons name names ih =>
    obtain ⟨value, hvalue⟩ := Scope.variable_of_defines (h name List.mem_cons_self)
    obtain ⟨values, hvalues, hresolve⟩ :=
      ih (fun other hother => h other (List.mem_cons_of_mem name hother)) (slots.push value)
    refine ⟨value :: values, .cons hvalue hvalues, ?_⟩
    rw [resolve, hvalue]
    simp [hresolve]

theorem resolve_of_undefined {scope : Scope σ} {names : List String} {name : String}
    (h : names.find? (fun other => !scope.defines other) = some name) (slots : Array Float) :
    (resolve scope names slots).1 = .error (.variableNotDefined name) := by
  induction names generalizing slots with
  | nil => cases h
  | cons first names ih =>
    cases hfirst : scope.defines first with
    | true =>
      obtain ⟨value, hvalue⟩ := Scope.variable_of_defines hfirst
      rw [resolve, hvalue]
      exact ih (by simpa [List.find?_cons, hfirst] using h) _
    | false =>
      obtain rfl : first = name := by simpa [List.find?_cons, hfirst] using h
      rw [resolve, Scope.variable_of_not_defines hfirst]

/-- What running a program relies on: the functions bound in it are still there, and every variable
has its value in its slot. -/
structure Ready (p : Program σ) (functions : Table (Function σ)) (scope : Scope σ)
    (slots : Array Float) : Prop where
  bound : ∀ name f, functions.get? name = some f → f.overwritable = false →
    scope.functions.get? name = some f
  slots : ∀ (i : Nat) (name : String), p.variableNames[i]? = some name →
    ∃ value, slots[i]? = some value ∧ scope.variable name = .ok value

theorem callTarget_target {functions later : Table (Function σ)}
    (hbound : ∀ name f, functions.get? name = some f → f.overwritable = false →
      later.get? name = some f)
    (name : String) (arguments : List Float) :
    callTarget later (Compilation.target functions name) arguments = later.call name arguments := by
  unfold Compilation.target
  cases hget : functions.get? name with
  | none => rfl
  | some f =>
    cases hover : f.overwritable with
    | true => simp [callTarget, hover]
    | false => simp [callTarget, hover, Table.call, hbound name f hget hover]

/-- An instruction does what its node does with the numbers on top of the stack. -/
theorem execute_of_encodes {p : Program σ} {functions : Table (Function σ)} {scope : Scope σ}
    {slots : Array Float} (hready : Ready p functions scope slots) {i : Instruction} {node : Node}
    (h : p.Encodes functions i node) {stack : List Float} (hfit : node.arity ≤ stack.length) :
    execute p scope.functions slots i stack = (do
      let x ← node.evaluate scope (stack.take node.arity).reverse
      pure (x :: stack.drop node.arity)) := by
  cases node with
  | integer value =>
    simp [execute, h.1, h.2, Node.evaluate, Node.arity]
  | float value =>
    simp [execute, h.1, h.2, Node.evaluate, Node.arity]
  | var name =>
    obtain ⟨value, hslot, hvalue⟩ := hready.slots i.a name h.2
    simp only [execute, h.1, Node.evaluate, Node.arity, hvalue, Array.getD_eq_getD_getElem?, hslot]
    rfl
  | negate =>
    obtain ⟨x, rest, rfl⟩ := List.exists_cons_of_length_pos hfit
    simp [execute, show i.opcode? = some .negate from h, Node.evaluate, Node.arity]
  | binary op =>
    obtain ⟨y, x, rest, rfl⟩ : ∃ y x rest, stack = y :: x :: rest := by
      rcases stack with _ | ⟨y, _ | ⟨x, rest⟩⟩ <;> simp [Node.arity] at hfit ⊢
    simp [execute, show i.opcode? = some (.binary op) from h, Node.evaluate, Node.arity]
  | call name argumentCount idempotent =>
    obtain ⟨hop, htarget, hcount⟩ := h
    simp [execute, hop, htarget, hcount, Node.evaluate, Node.arity,
      callTarget_target hready.bound]

/-- Running instructions does what going through their nodes does. -/
theorem runNodes_eq_executeAll {p : Program σ} {functions : Table (Function σ)} {scope : Scope σ}
    {slots : Array Float} (hready : Ready p functions scope slots) {code : List Instruction}
    {nodes : List Node} (h : List.Forall₂ (p.Encodes functions) code nodes) {stack : List Float}
    (hfit : Node.Fit stack.length nodes) (s : CallState σ) :
    Tree.runNodes (Node.evaluate scope) nodes stack s =
      match executeAll p scope.functions slots code stack s with
      | (.ok (), stack, s) => (.ok stack, s)
      | (.error e, _, s) => (.error e, s) := by
  induction h generalizing stack s with
  | nil => rfl
  | @cons i node code nodes hencodes _ ih =>
    obtain ⟨harity, hrest⟩ := hfit
    rw [Tree.runNodes, Evaluation.bind_apply, executeAll,
      execute_of_encodes hready hencodes harity, Evaluation.bind_apply]
    rcases node.evaluate scope (stack.take node.arity).reverse s with ⟨x | x, s'⟩
    · rfl
    · refine ih ?_ s'
      rwa [List.length_cons, List.length_drop]

/-- A program whose variables all have values does what going through the nodes does whose work its
instructions do. -/
theorem run_of_encodes {p : Program σ} {functions : Table (Function σ)} {nodes : List Node}
    (hencodes : List.Forall₂ (p.Encodes functions) p.code.toList nodes)
    (hfit : Node.Fit 0 nodes) {scope : Scope σ}
    (hbound : ∀ name f, functions.get? name = some f → f.overwritable = false →
      scope.functions.get? name = some f)
    (hdefined : ∀ name ∈ p.variableNames.toList, scope.defines name = true) (m : Machine)
    (s : CallState σ) :
    ((m.run p scope s).1, (m.run p scope s).2.2) =
      (Tree.runNodes (Node.evaluate scope) nodes [] >>= fun stack =>
        pure (stack.headD Binary64.nan) : Evaluation σ Float) s := by
  obtain ⟨values, hvalues, hresolve⟩ := resolve_of_defined hdefined #[]
  have hready : Ready p functions scope (#[] ++ values.toArray) := by
    refine ⟨hbound, fun i name hname => ?_⟩
    rw [← Array.getElem?_toList] at hname
    obtain ⟨hlt, hat⟩ := List.getElem?_eq_some_iff.mp hname
    have hlt' : i < values.length := hvalues.length_eq ▸ hlt
    refine ⟨values[i], by simp, ?_⟩
    rw [← hat]
    exact hvalues.get hlt hlt'
  have hheight : Node.Fit ([] : List Float).length nodes := hfit
  rw [run, hresolve, Evaluation.bind_apply, runNodes_eq_executeAll hready hencodes hheight s]
  dsimp only
  rcases executeAll p scope.functions _ _ _ s with ⟨_ | _, stack, s'⟩ <;> rfl

/-- A program whose variables all have values does what the walk over its tree does. -/
theorem run_compile_of_defined {t : Tree} (hsize : t.postorder.length < 2 ^ 28)
    {functions : Table (Function σ)} {scope : Scope σ}
    (hbound : ∀ name f, functions.get? name = some f → f.overwritable = false →
      scope.functions.get? name = some f)
    (hdefined : ∀ name ∈ t.variableNames, scope.defines name = true) (m : Machine)
    (s : CallState σ) :
    ((m.run (t.compile functions) scope s).1, (m.run (t.compile functions) scope s).2.2) =
      t.evaluate scope s := by
  obtain ⟨hencodes, hnames⟩ := t.compile_covers functions hsize
  exact run_of_encodes hencodes t.fit_postorder hbound (by rwa [hnames]) m s

/-- A program with a variable without a value stops at the first one and calls nothing. -/
theorem run_compile_of_undefined {t : Tree} (hsize : t.postorder.length < 2 ^ 28)
    (functions : Table (Function σ)) {scope : Scope σ} {name : String}
    (h : t.variableNames.find? (fun other => !scope.defines other) = some name) (m : Machine)
    (s : CallState σ) :
    (m.run (t.compile functions) scope s).1 = .error (.variableNotDefined name) ∧
      (m.run (t.compile functions) scope s).2.2 = s := by
  have hresolve := resolve_of_undefined h #[]
  rw [run, (t.compile_covers functions hsize).2]
  revert hresolve
  rcases resolve scope t.variableNames #[] with ⟨e | ⟨⟩, slots⟩
  · intro hresolve
    exact ⟨congrArg _ (Except.error.inj hresolve), rfl⟩
  · intro hresolve
    cases hresolve

end Machine

/-- Going through nodes one of which is a variable without a value fails, if not earlier for a
function that is not there. -/
theorem Tree.runNodes_evaluate_of_undefined {scope : Scope σ} {nodes : List Node} {name : String}
    (h : (nodes.filterMap Node.variableName?).find? (fun other => !scope.defines other) = some name)
    (stack : List Float) (s : CallState σ) :
    ∃ e s', runNodes (Node.evaluate scope) nodes stack s = (.error e, s') ∧
      ((∀ callee ∈ nodes.filterMap Node.calleeName?, scope.functions.contains callee = true) →
        e = .variableNotDefined name) := by
  induction nodes generalizing stack s with
  | nil => cases h
  | cons node nodes ih =>
    rw [runNodes, Evaluation.bind_apply]
    rcases node.evaluate_cases scope (stack.take node.arity).reverse s with
      ⟨first, hvar, hundefined, hresult⟩ | ⟨hdefined, hcalls⟩
    · rw [hresult]
      refine ⟨_, s, rfl, fun _ => ?_⟩
      rw [List.filterMap_cons_some hvar] at h
      obtain rfl : first = name := by simpa [List.find?_cons, hundefined] using h
      rfl
    · have hlater : (nodes.filterMap Node.variableName?).find?
          (fun other => !scope.defines other) = some name := by
        cases hvar : node.variableName? with
        | none => rwa [List.filterMap_cons_none hvar] at h
        | some first =>
          rw [List.filterMap_cons_some hvar] at h
          simpa [List.find?_cons, hdefined first hvar] using h
      rcases hcalls with ⟨callee, hcallee, hmissing, hresult⟩ | ⟨value, s', hresult⟩
      · rw [hresult]
        refine ⟨_, s, rfl, fun hthere => ?_⟩
        have := hthere callee (by simp [List.filterMap_cons_some hcallee])
        rw [hmissing] at this
        cases this
      · rw [hresult]
        obtain ⟨e, final, hrun, herror⟩ := ih hlater (value :: stack.drop node.arity) s'
        refine ⟨e, final, hrun, fun hthere => herror fun callee hcallee => hthere callee ?_⟩
        rw [List.filterMap_cons]
        split
        · exact hcallee
        · exact List.mem_cons_of_mem _ hcallee

/-- The program of a tree, made with one table and run with any later one, does what the walk over
the tree does if every variable has a value. Otherwise it stops at the first variable in the order
of first use that has none, and calls nothing; the walk fails as well, and for the same variable
if every function of the tree is there. -/
theorem run_compile_agrees (t : Tree) (hsize : t.postorder.length < 2 ^ 28)
    (functions : Table (Function σ)) (registrations : List (Function σ))
    (constants : Table Constant) (bindings : Bindings) (m : Machine) (s : CallState σ) :
    let scope : Scope σ := ⟨functions.attemptAll registrations, constants, bindings⟩
    let ran := m.run (t.compile functions) scope s
    ((∀ name ∈ t.variableNames, scope.defines name = true) →
      (ran.1, ran.2.2) = t.evaluate scope s) ∧
    ∀ name, t.variableNames.find? (fun other => !scope.defines other) = some name →
      ran.1 = .error (.variableNotDefined name) ∧ ran.2.2 = s ∧
      (∃ e s', t.evaluate scope s = (.error e, s')) ∧
      ((∀ callee ∈ t.postorder.filterMap Node.calleeName?,
          scope.functions.contains callee = true) →
        (t.evaluate scope s).1 = .error (.variableNotDefined name)) := by
  intro scope ran
  refine ⟨fun hdefined => ?_, fun name hundefined => ?_⟩
  · exact Machine.run_compile_of_defined hsize
      (fun _ _ hget hprotected => Table.get?_attemptAll_of_protected hget hprotected registrations)
      hdefined m s
  · obtain ⟨herror, hstate⟩ := Machine.run_compile_of_undefined hsize functions hundefined m s
    have hnodes := (Node.find?_firstUses _ t.postorder).symm.trans hundefined
    obtain ⟨e, s', hwalk, hsame⟩ := Tree.runNodes_evaluate_of_undefined hnodes [] s
    have hresult : t.evaluate scope s = (.error e, s') := by
      rw [Tree.evaluate, Evaluation.bind_apply, hwalk]
    refine ⟨herror, hstate, ⟨e, s', hresult⟩, fun hthere => ?_⟩
    rw [hresult, hsame hthere]

/-- A function that cannot be overwritten and tells how often it was called. -/
private def tick : Function Nat :=
  ⟨⟨"tick", some 0, false, false⟩, .host fun _ n => (Float.ofNat (n + 1), n + 1)⟩

/-- An attempt to replace a bound function and a new function in between change nothing. -/
theorem run_compile_agrees_tick :
    let t : Tree := .binary .add (.call "tick" [] false) (.var "x")
    let functions : Table (Function Nat) := ⟨false, [("tick", tick)]⟩
    let registrations : List (Function Nat) :=
      [⟨⟨"Tick", some 0, true, true⟩, .pure fun _ => 0⟩, ⟨⟨"x", none, true, true⟩, .random⟩]
    let scope : Scope Nat := ⟨functions.attemptAll registrations, .empty false, [("x", 2)]⟩
    let s : CallState Nat := ⟨4, ⟨[], 0⟩, []⟩
    let ran := Machine.fresh.run (t.compile functions) scope s
    t.postorder.length < 2 ^ 28 ∧ (∀ name ∈ t.variableNames, scope.defines name = true) ∧
      (ran.1, ran.2.2) = t.evaluate scope s ∧ ran.1 = .ok 7 := by
  refine ⟨by decide, by decide +kernel, ?_, by decide +kernel⟩
  exact (run_compile_agrees _ (by decide) _ _ _ _ _ _).1 (by decide +kernel)

end FormulaEngine
