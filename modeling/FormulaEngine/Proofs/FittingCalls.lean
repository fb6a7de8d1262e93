import FormulaEngine.Evaluator
import FormulaEngine.Folding
import FormulaEngine.Proofs.BackendAgreement
import FormulaEngine.Proofs.CallSimulation
import FormulaEngine.Proofs.FunctionArities
import FormulaEngine.Proofs.ParsedNodes
import Mathlib

/-!
Calls with the right number of arguments. In a parsed tree every call has a number of
arguments that the function of its name takes, folding keeps it so, and no replacement of a
function changes it. Both ways to evaluate such a tree call functions only with as many
arguments as they take.
-/
namespace FormulaEngine

variable {σ : Type}

theorem Signature.accepts_iff (f : Signature) (argumentCount : Nat) :
    f.accepts argumentCount = true ↔ ∀ n, f.arity = some n → argumentCount = n := by
  unfold accepts
  cases f.arity <;> simp

/-- Whether as many arguments were passed as the function takes. -/
def Call.Fits (call : Call) : Prop := call.callee.accepts call.arguments.length = true

/-- Whether all calls that were made fit. -/
def CallState.Fits (s : CallState σ) : Prop := ∀ call ∈ s.calls, call.Fits

theorem Function.call_fits {f : Function σ} {arguments : List Float}
    (h : f.accepts arguments.length = true) {s : CallState σ} (hs : s.Fits) :
    (f.call arguments s).2.Fits := by
  rw [f.call_apply]
  intro call hcall
  rw [f.run_calls, List.mem_cons] at hcall
  rcases hcall with rfl | hcall
  · exact h
  · exact hs call hcall

/-- Whether the function of a node that is a call takes as many arguments as the node has. -/
def Node.Admitted (functions : Table (Function σ)) : Node → Prop
  | call name argumentCount _ => functions.Admits name argumentCount
  | _ => True

theorem Node.Admitted.attemptAll {functions : Table (Function σ)} {node : Node}
    (h : node.Admitted functions) (registrations : List (Function σ)) :
    node.Admitted (functions.attemptAll registrations) := by
  cases node with
  | call => exact Table.Admits.attemptAll h registrations
  | _ => trivial

namespace Tree

def Admitted (functions : Table (Function σ)) (t : Tree) : Prop :=
  ∀ node ∈ t.postorder, node.Admitted functions

theorem Admitted.attemptAll {functions : Table (Function σ)} {t : Tree}
    (h : t.Admitted functions) (registrations : List (Function σ)) :
    t.Admitted (functions.attemptAll registrations) :=
  fun node hnode => (h node hnode).attemptAll registrations

theorem admitted_iff {functions : Table (Function σ)} {t : Tree} :
    t.Admitted functions ↔
      t.root.Admitted functions ∧ ∀ child ∈ t.children, child.Admitted functions :=
  forall_mem_postorder

end Tree

section Passes

variable {ε τ α β : Type}

/-- Whether `P` holds of a result and the state after it, and `E` of the state after a failure. -/
def Yields (P : α → τ → Prop) (E : τ → Prop) : Except ε α × τ → Prop
  | (.ok x, s) => P x s
  | (.error _, s) => E s

theorem Yields.mono {P P' : α → τ → Prop} {E : τ → Prop} {r : Except ε α × τ} (h : Yields P E r)
    (hP : ∀ x s, P x s → P' x s) : Yields P' E r := by
  rcases r with ⟨e | x, s⟩
  · exact h
  · exact hP x s h

/-- What holds of the state in either case. -/
theorem yields_state_iff {E : τ → Prop} {r : Except ε α × τ} : Yields (fun _ => E) E r ↔ E r.2 := by
  rcases r with ⟨e | x, s⟩ <;> rfl

theorem Yields.bind {P : α → τ → Prop} {Q : β → τ → Prop} {E : τ → Prop}
    {c : ExceptT ε (StateM τ) α} {k : α → ExceptT ε (StateM τ) β} {s : τ} (h : Yields P E (c s))
    (hk : ∀ x s, P x s → Yields Q E (k x s)) : Yields Q E ((c >>= k) s) := by
  rw [Evaluation.bind_apply]
  revert h
  rcases c s with ⟨e | x, s'⟩ <;> intro h
  · exact h
  · exact hk x s' h

/-- A node that fits gets as many results as it has arguments. -/
theorem length_reverse_take {stack : List α} {n : Nat} (h : n ≤ stack.length) :
    (stack.take n).reverse.length = n := by
  rw [List.length_reverse, List.length_take, Nat.min_eq_left h]

/-- What holds at every point of a pass over nodes that fit, if each of its steps keeps it. -/
theorem Tree.runNodes_invariant {step : Node → List α → ExceptT ε (StateM τ) α}
    {I : List Node → List α → τ → Prop} {E : τ → Prop}
    (hstep : ∀ node rest stack s, node.arity ≤ stack.length → I (node :: rest) stack s →
      Yields (fun x => I rest (x :: stack.drop node.arity)) E
        (step node (stack.take node.arity).reverse s))
    {nodes : List Node} {stack : List α} (hfit : Node.Fit stack.length nodes) {s : τ}
    (h : I nodes stack s) : Yields (I []) E (runNodes step nodes stack s) := by
  induction nodes generalizing stack s with
  | nil => exact h
  | cons node nodes ih =>
    obtain ⟨harity, hrest⟩ := hfit
    refine (hstep node nodes stack s harity h).bind fun x s hx => ih ?_ hx
    rwa [List.length_cons, List.length_drop]

end Passes

section Evaluation

variable {scope : Scope σ} {s : CallState σ}

theorem Node.evaluate_fits {node : Node} (h : node.Admitted scope.functions)
    {arguments : List Float} (hlength : arguments.length = node.arity) (hs : s.Fits) :
    (node.evaluate scope arguments s).2.Fits := by
  unfold Node.evaluate
  split
  case h_6 name argumentCount idempotent =>
    obtain ⟨f, hget, haccepts⟩ := h
    rw [Table.call, hget]
    rw [← show arguments.length = argumentCount from hlength] at haccepts
    exact Function.call_fits haccepts hs
  all_goals exact hs

theorem Tree.evaluate_fits {t : Tree} (h : t.Admitted scope.functions) (hs : s.Fits) :
    (t.evaluate scope s).2.Fits := by
  let I (rest : List Node) (_ : List Float) (s : CallState σ) : Prop :=
    s.Fits ∧ ∀ node ∈ rest, node.Admitted scope.functions
  have hstep : ∀ node rest stack s, node.arity ≤ stack.length → I (node :: rest) stack s →
      Yields (fun x => I rest (x :: stack.drop node.arity)) CallState.Fits
        (node.evaluate scope (stack.take node.arity).reverse s) := by
    rintro node rest stack s harity ⟨hs, hnodes⟩
    rw [List.forall_mem_cons] at hnodes
    have hnode := node.evaluate_fits hnodes.1 (length_reverse_take harity) hs
    exact (yields_state_iff.mpr hnode).mono fun _ _ hs => ⟨hs, hnodes.2⟩
  have hfit : Node.Fit ([] : List Float).length t.postorder := t.fit_postorder
  have hpass := runNodes_invariant hstep hfit ⟨hs, h⟩
  exact yields_state_iff.mp (hpass.bind fun _ _ hend => hend.1)

end Evaluation

namespace Tree

theorem admitted_literal {functions : Table (Function σ)} (x : Float) :
    (float x).Admitted functions :=
  admitted_iff.mpr ⟨trivial, nofun⟩

/-- Folding a node calls functions with arguments that fit, and what it leaves is no larger. -/
theorem foldNode_fits {functions : Table (Function σ)} (constants : Table Constant) {node : Node}
    (hnode : node.Admitted functions) {arguments : List Tree}
    (hlength : arguments.length = node.arity) (harguments : ∀ t ∈ arguments, t.Admitted functions)
    {s : FoldingState σ} (hs : s.calls.Fits) :
    Yields (fun t s => s.calls.Fits ∧ t.Admitted functions ∧
        t.postorder.length ≤ (arguments.map fun t => t.postorder.length).sum + 1)
      (fun s => s.calls.Fits) (foldNode .interpreted functions constants node arguments s) := by
  obtain ⟨t, ht⟩ := exists_build? hlength
  obtain ⟨rfl, rfl⟩ := root_eq_of_build? ht
  have hadmitted : t.Admitted functions := admitted_iff.mpr ⟨hnode, harguments⟩
  rw [foldNode_eq _ _ _ ht]
  split
  · refine Yields.bind (P := fun _ s => s.calls.Fits) (yields_state_iff.mpr ?_) fun x s hs =>
      ⟨hs, admitted_literal x, Nat.le_add_left 1 _⟩
    have hvalue : (t.evaluate ⟨functions, constants, []⟩ s.calls).2.Fits :=
      evaluate_fits hadmitted hs
    exact hvalue
  · split
    · exact ⟨hs, admitted_literal 0, Nat.le_add_left 1 _⟩
    · refine ⟨hs, hadmitted, ?_⟩
      rw [postorder_eq, List.length_append, List.length_flatMap]
      exact Nat.le_refl _

/-- The sizes of the trees on a stack, with the arguments of a node apart from the rest. -/
theorem sum_length_postorder_take_drop (stack : List Tree) (n : Nat) :
    (stack.map fun t => t.postorder.length).sum =
      ((stack.take n).reverse.map fun t => t.postorder.length).sum +
        ((stack.drop n).map fun t => t.postorder.length).sum := by
  rw [List.map_reverse, List.sum_reverse, ← List.sum_append, ← List.map_append,
    List.take_append_drop]

theorem fold_fits {functions : Table (Function σ)} (constants : Table Constant) {t : Tree}
    (h : t.Admitted functions) {s : FoldingState σ} (hs : s.calls.Fits) :
    Yields (fun t' s => s.calls.Fits ∧ t'.Admitted functions ∧
        t'.postorder.length ≤ t.postorder.length)
      (fun s => s.calls.Fits) (t.fold .interpreted functions constants s) := by
  let I (rest : List Node) (stack : List Tree) (s : FoldingState σ) : Prop :=
    s.calls.Fits ∧ (∀ node ∈ rest, node.Admitted functions) ∧ (∀ t ∈ stack, t.Admitted functions) ∧
      (stack.map fun t => t.postorder.length).sum + rest.length ≤ t.postorder.length
  have hstep : ∀ node rest stack s, node.arity ≤ stack.length → I (node :: rest) stack s →
      Yields (fun x => I rest (x :: stack.drop node.arity)) (fun s => s.calls.Fits)
        (foldNode .interpreted functions constants node (stack.take node.arity).reverse s) := by
    rintro node rest stack s harity ⟨hs, hnodes, hstack, hsize⟩
    rw [List.forall_mem_cons] at hnodes
    have htaken : ∀ t ∈ (stack.take node.arity).reverse, t.Admitted functions :=
      fun t ht => hstack t (List.mem_of_mem_take (List.mem_reverse.mp ht))
    refine (foldNode_fits constants hnodes.1 (length_reverse_take harity) htaken hs).mono ?_
    rintro t' s' ⟨hs', hadmitted, hle⟩
    refine ⟨hs', hnodes.2, ?_, ?_⟩
    · rw [List.forall_mem_cons]
      exact ⟨hadmitted, fun t ht => hstack t (List.mem_of_mem_drop ht)⟩
    · have hsplit := sum_length_postorder_take_drop stack node.arity
      simp only [List.map_cons, List.sum_cons, List.length_cons] at hsize ⊢
      omega
  have hfit : Node.Fit ([] : List Tree).length t.postorder := t.fit_postorder
  refine (runNodes_invariant hstep hfit ⟨hs, h, nofun, by simp⟩).bind ?_
  rintro stack s ⟨hs, -, hstack, hsize⟩
  cases stack with
  | nil => exact ⟨hs, admitted_literal _, List.length_pos_of_mem t.root_mem_postorder⟩
  | cons t' stack =>
    simp only [List.map_cons, List.sum_cons, List.length_nil] at hsize
    have hle : t'.postorder.length ≤ t.postorder.length := by omega
    exact ⟨hs, hstack t' List.mem_cons_self, hle⟩

end Tree

namespace Evaluator

/-- Whether an evaluator was made from a tree whose calls fit, earlier in the history of a table. -/
def Admitted (functions : Table (Function σ)) : Evaluator σ → Prop
  | interpreted t => t.Admitted functions
  | compiled program => ∃ (t : Tree) (earlier : Table (Function σ)),
      program = t.compile earlier ∧ t.postorder.length < 2 ^ 28 ∧ t.Admitted functions ∧
      ∀ name f, earlier.get? name = some f → f.overwritable = false → functions.get? name = some f

theorem Admitted.attempt {functions : Table (Function σ)} {e : Evaluator σ}
    (h : e.Admitted functions) (f : Function σ) : e.Admitted (functions.attempt f) := by
  cases e with
  | interpreted t => exact Tree.Admitted.attemptAll h [f]
  | compiled program =>
    obtain ⟨t, earlier, hprogram, hsize, hadmitted, hbound⟩ := h
    refine ⟨t, earlier, hprogram, hsize, hadmitted.attemptAll [f], fun name g hget hprotected => ?_⟩
    exact Table.get?_attempt_of_protected (hbound name g hget hprotected) hprotected f

theorem Admitted.evaluate_fits {e : Evaluator σ} {scope : Scope σ}
    (h : e.Admitted scope.functions) {s : CallState σ} (hs : s.Fits) :
    (e.evaluate scope s).2.Fits := by
  cases e with
  | interpreted t => exact Tree.evaluate_fits h hs
  | compiled program =>
    obtain ⟨t, earlier, rfl, hsize, hadmitted, hbound⟩ := h
    change (Machine.fresh.run (t.compile earlier) scope s).2.2.Fits
    cases hfind : t.variableNames.find? fun name => !scope.defines name with
    | some name =>
      rw [(Machine.run_compile_of_undefined hsize earlier hfind .fresh s).2]
      exact hs
    | none =>
      have hdefined : ∀ name ∈ t.variableNames, scope.defines name = true := by
        simpa using List.find?_eq_none.mp hfind
      have hrun := Machine.run_compile_of_defined hsize hbound hdefined .fresh s
      rw [congrArg Prod.snd hrun]
      exact Tree.evaluate_fits hadmitted hs

end Evaluator

theorem ExecutionMode.prepare_admitted {mode : ExecutionMode} {functions : Table (Function σ)}
    {t : Tree} (hsize : mode = .compiled → t.postorder.length < 2 ^ 28)
    (h : t.Admitted functions) : (mode.prepare t functions).Admitted functions := by
  cases mode with
  | interpreted => exact h
  | compiled => exact ⟨t, functions, rfl, hsize rfl, h, fun _ _ hget _ => hget⟩

/-- In a parsed tree every call has as many arguments as the function of its name takes. -/
theorem Tree.parse_admitted {locale : Locale} {functions : Table (Function σ)}
    (hkeyed : functions.Keyed) {constants : Table Constant} {caseSensitive : Bool} {text : String}
    {t : Tree} (h : parse locale (.ofTables functions constants caseSensitive) text = .ok t) :
    t.Admitted functions := by
  have hv : ∀ name callee,
      (Vocabulary.ofTables functions constants caseSensitive).function? name = some callee →
        ∀ n, callee.accepts n = true → functions.Admits callee.name n := by
    intro name callee hcallee n haccepts
    obtain ⟨f, hget, rfl⟩ := Option.map_eq_some_iff.mp hcallee
    exact ⟨f, hkeyed.get?_name hget, haccepts⟩
  exact forall_mem_postorder_of_parse (fun node hnode => by cases node <;> trivial) hv h

end FormulaEngine
