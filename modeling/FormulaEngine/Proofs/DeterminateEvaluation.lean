import FormulaEngine.Proofs.FittingCalls
import FormulaEngine.Proofs.RelabeledEvaluation

/-!
Evaluations that depend on little. Where the results of functions follow from their arguments, the
result of a formula follows from the values of its variables and from the functions under the names
that it calls. Neither the other entries of the tables nor what was called before make a
difference, for a walk over a tree and for the run of a program.
-/
namespace FormulaEngine

variable {σ : Type}

/-- Whether the result of a function follows from its arguments. -/
def Function.Determinate (f : Function σ) : Prop :=
  ∀ arguments s s', (f.run arguments s).1 = (f.run arguments s').1

namespace Evaluation

variable {α β : Type}

/-- Whether two computations have the same result, whatever was called before. -/
def Coincide (c c' : Evaluation σ α) : Prop := ∀ s s', (c s).1 = (c' s').1

theorem Coincide.pure (x : α) : Coincide (σ := σ) (Pure.pure x) (Pure.pure x) := fun _ _ => rfl

theorem Coincide.bind {c c' : Evaluation σ α} {k k' : α → Evaluation σ β} (h : Coincide c c')
    (hk : ∀ x, Coincide (k x) (k' x)) : Coincide (c >>= k) (c' >>= k') := by
  intro s s'
  rw [bind_apply, bind_apply]
  have hresult := h s s'
  revert hresult
  rcases c s with ⟨r, t⟩
  rcases c' s' with ⟨r', t'⟩
  rintro (rfl : r = r')
  cases r with
  | error e => rfl
  | ok x => exact hk x t t'

end Evaluation

open Evaluation

/-- Whether a name leads to the same function in two tables, one whose result follows from its
arguments. -/
def Table.Share (functions functions' : Table (Function σ)) (name : String) : Prop :=
  ∃ f, functions.get? name = some f ∧ functions'.get? name = some f ∧ f.Determinate

theorem Table.Share.call {functions functions' : Table (Function σ)} {name : String}
    (h : functions.Share functions' name) (arguments : List Float) :
    Coincide (functions.call name arguments) (functions'.call name arguments) := by
  obtain ⟨f, hget, hget', hdeterminate⟩ := h
  intro s s'
  simp only [Table.call, hget, hget', Function.call_apply]
  rw [hdeterminate arguments]

/-- Whether two scopes mean the same by the names in some nodes. -/
structure Scope.Share (scope scope' : Scope σ) (nodes : List Node) : Prop where
  values : ∀ name ∈ nodes.filterMap Node.variableName?,
    scope.variable name = scope'.variable name
  callees : ∀ name ∈ nodes.filterMap Node.calleeName?,
    scope.functions.Share scope'.functions name

section Walks

variable {scope scope' : Scope σ}

theorem Node.evaluate_coincide {nodes : List Node} (h : scope.Share scope' nodes) {node : Node}
    (hnode : node ∈ nodes) (arguments : List Float) :
    Coincide (node.evaluate scope arguments) (node.evaluate scope' arguments) := by
  cases hvar : node.variableName? with
  | some name =>
    obtain rfl : node = var name := by
      cases node <;> simp_all [variableName?]
    have hvalue := h.values name (List.mem_filterMap.mpr ⟨_, hnode, rfl⟩)
    intro s s'
    simp only [Node.evaluate, hvalue]
    rfl
  | none =>
    cases hcallee : node.calleeName? with
    | some name =>
      obtain ⟨argumentCount, idempotent, rfl⟩ : ∃ n i, node = call name n i := by
        cases node <;> simp_all [calleeName?]
      exact (h.callees name (List.mem_filterMap.mpr ⟨_, hnode, rfl⟩)).call arguments
    | none =>
      obtain ⟨value, hvalue⟩ := exists_value (σ := σ) hvar hcallee arguments
      rw [hvalue, hvalue]
      exact .pure value

theorem Tree.evaluate_coincide {t : Tree} (h : scope.Share scope' t.postorder) :
    Coincide (t.evaluate scope) (t.evaluate scope') := by
  have hnodes : ∀ (nodes : List Node) (stack : List Float), (∀ node ∈ nodes, node ∈ t.postorder) →
      Coincide (runNodes (Node.evaluate scope) nodes stack)
        (runNodes (Node.evaluate scope') nodes stack) := by
    intro nodes
    induction nodes with
    | nil => exact fun stack _ => .pure stack
    | cons node nodes ih =>
      intro stack hall
      rw [List.forall_mem_cons] at hall
      exact (Node.evaluate_coincide h hall.1 _).bind fun x => ih _ hall.2
  exact (hnodes t.postorder [] fun _ hnode => hnode).bind fun stack => .pure _

theorem Node.exists_value_of_defined {node : Node}
    (hdefined : ∀ name, node.variableName? = some name → scope.defines name = true)
    (hcallee : ∀ name, node.calleeName? = some name → scope.functions.contains name = true)
    (arguments : List Float) (s : CallState σ) :
    ∃ x s', node.evaluate scope arguments s = (.ok x, s') := by
  rcases node.evaluate_cases scope arguments s with
    ⟨name, hname, hundefined, -⟩ | ⟨-, ⟨name, hname, hmissing, -⟩ | ⟨value, s', hvalue⟩⟩
  · cases hundefined.symm.trans (hdefined name hname)
  · cases hmissing.symm.trans (hcallee name hname)
  · exact ⟨value, s', hvalue⟩

/-- A tree has a value if its names have a meaning. -/
theorem Tree.exists_value_of_defined {t : Tree}
    (hdefined : ∀ name ∈ t.variableNames, scope.defines name = true)
    (hcallees : ∀ name ∈ t.postorder.filterMap Node.calleeName?,
      scope.functions.contains name = true) (s : CallState σ) :
    ∃ x s', t.evaluate scope s = (.ok x, s') := by
  have hstep : ∀ node rest (stack : List Float) (s : CallState σ), node.arity ≤ stack.length →
      (∀ other ∈ node :: rest, other ∈ t.postorder) →
      Yields (fun _ _ => ∀ other ∈ rest, other ∈ t.postorder) (fun _ => False)
        (node.evaluate scope (stack.take node.arity).reverse s) := by
    intro node rest stack s _ hnodes
    rw [List.forall_mem_cons] at hnodes
    obtain ⟨x, s', hx⟩ := Node.exists_value_of_defined
      (fun name hname => hdefined name
        (Node.mem_firstUses.mpr (List.mem_filterMap.mpr ⟨node, hnodes.1, hname⟩)))
      (fun name hname => hcallees name (List.mem_filterMap.mpr ⟨node, hnodes.1, hname⟩))
      (stack.take node.arity).reverse s
    rw [hx]
    exact hnodes.2
  have hfit : Node.Fit ([] : List Float).length t.postorder := t.fit_postorder
  have hpass : Yields (fun _ _ => True) (fun _ => False) (t.evaluate scope s) :=
    (Tree.runNodes_invariant (I := fun rest _ _ => ∀ node ∈ rest, node ∈ t.postorder) hstep hfit
      fun _ hnode => hnode).bind fun _ _ _ => trivial
  revert hpass
  rcases t.evaluate scope s with ⟨e | x, s'⟩ <;> intro hpass
  · exact hpass.elim
  · exact ⟨x, s', rfl⟩

end Walks

section Programs

namespace Machine

variable {p : Program σ} {functions functions' : Table (Function σ)}
  (htargets : ∀ i arguments, Coincide
    (callTarget functions (p.targets.getD i (.byName "")) arguments)
    (callTarget functions' (p.targets.getD i (.byName "")) arguments))
include htargets

theorem execute_coincide (slots : Array Float) (i : Instruction) (stack : List Float) :
    Coincide (execute p functions slots i stack) (execute p functions' slots i stack) := by
  unfold execute
  split
  case h_5 => exact (htargets _ _).bind fun x => .pure _
  all_goals exact .pure _

theorem executeAll_coincide (slots : Array Float) (code : List Instruction) (stack : List Float)
    (s s' : CallState σ) :
    (executeAll p functions slots code stack s).1 =
        (executeAll p functions' slots code stack s').1 ∧
      (executeAll p functions slots code stack s).2.1 =
        (executeAll p functions' slots code stack s').2.1 := by
  induction code generalizing stack s s' with
  | nil => exact ⟨rfl, rfl⟩
  | cons i rest ih =>
    have hresult := execute_coincide htargets slots i stack s s'
    unfold executeAll
    revert hresult
    rcases execute p functions slots i stack s with ⟨r, t⟩
    rcases execute p functions' slots i stack s' with ⟨r', t'⟩
    rintro (rfl : r = r')
    cases r with
    | error e => exact ⟨rfl, rfl⟩
    | ok stack => exact ih stack t t'

end Machine

theorem Machine.resolve_congr {scope scope' : Scope σ} {names : List String}
    (h : ∀ name ∈ names, scope.variable name = scope'.variable name) (slots : Array Float) :
    resolve scope names slots = resolve scope' names slots := by
  induction names generalizing slots with
  | nil => rfl
  | cons name names ih =>
    rw [List.forall_mem_cons] at h
    rw [resolve, resolve, h.1]
    cases scope'.variable name with
    | error e => rfl
    | ok value => exact ih h.2 _

theorem Program.evaluate_coincide {p : Program σ} {scope scope' : Scope σ}
    (htargets : ∀ i arguments, Coincide
      (Machine.callTarget scope.functions (p.targets.getD i (.byName "")) arguments)
      (Machine.callTarget scope'.functions (p.targets.getD i (.byName "")) arguments))
    (hvariables : ∀ name ∈ p.variableNames.toList, scope.variable name = scope'.variable name) :
    Coincide (p.evaluate scope) (p.evaluate scope') := by
  intro s s'
  unfold evaluate Machine.run
  rw [Machine.resolve_congr hvariables]
  rcases Machine.resolve scope' p.variableNames.toList #[] with ⟨e | ⟨⟩, slots⟩
  · rfl
  · have hexecuted := Machine.executeAll_coincide htargets slots p.code.toList [] s s'
    revert hexecuted
    dsimp only
    rcases Machine.executeAll p scope.functions slots p.code.toList [] s with ⟨r, stack, t⟩
    rcases Machine.executeAll p scope'.functions slots p.code.toList [] s' with ⟨r', stack', t'⟩
    rintro ⟨rfl : r = r', rfl : stack = stack'⟩
    cases r <;> rfl

end Programs

/-- A tree that was made ready earlier has the same result in two scopes that mean the same by its
names. An instruction that goes beyond the calls of its program calls a function without a name,
which is never there. -/
theorem ExecutionMode.prepare_coincide (mode : ExecutionMode) {t : Tree}
    {earlier : Table (Function σ)} {scope scope' : Scope σ}
    (hfollows : scope.functions.Follows earlier) (hfollows' : scope'.functions.Follows earlier)
    (hnameless : scope.functions.get? "" = none) (hnameless' : scope'.functions.get? "" = none)
    (h : scope.Share scope' t.postorder) :
    Coincide ((mode.prepare t earlier).evaluate scope)
      ((mode.prepare t earlier).evaluate scope') := by
  cases mode with
  | interpreted => exact Tree.evaluate_coincide h
  | compiled =>
    refine Program.evaluate_coincide (fun i arguments => ?_) fun name hname => ?_
    case refine_2 =>
      rw [t.variableNames_compile] at hname
      exact h.values name (Node.mem_firstUses.mp hname)
    rw [Array.getD_eq_getD_getElem?, ← Array.getElem?_toList, t.targets_compile]
    cases hcallee : (t.postorder.filterMap Node.calleeName?)[i]? with
    | none =>
      intro s s'
      rw [List.getElem?_map, hcallee]
      simp only [Option.map_none, Option.getD_none, Machine.callTarget, Table.call, hnameless,
        hnameless']
      rfl
    | some name =>
      rw [List.getElem?_map, hcallee, Option.map_some, Option.getD_some,
        Machine.callTarget_target hfollows, Machine.callTarget_target hfollows']
      exact (h.callees name (List.mem_of_getElem? hcallee)).call arguments

end FormulaEngine
