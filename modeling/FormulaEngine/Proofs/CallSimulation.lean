import FormulaEngine.Proofs.Evaluations

/-!
Computations that differ in the calls they make. One of them leaves out some calls of
the other, and still has the same result and goes through memories that look the same
to every function that is called. The calls left out come in a fixed order; a failure
cuts this order short together with the computation.
-/
namespace FormulaEngine

/-- Whether `made` consists of `omitted` and `kept`, each in its own order. -/
inductive Interleaved {α : Type} : List α → List α → List α → Prop
  | nil : Interleaved [] [] []
  | skip (x : α) {omitted kept made : List α} (h : Interleaved omitted kept made) :
      Interleaved (x :: omitted) kept (x :: made)
  | keep (x : α) {omitted kept made : List α} (h : Interleaved omitted kept made) :
      Interleaved omitted (x :: kept) (x :: made)

namespace Interleaved

variable {α : Type} {omitted kept made : List α}

theorem append (h : Interleaved omitted kept made) {omitted' kept' made' : List α}
    (h' : Interleaved omitted' kept' made') :
    Interleaved (omitted ++ omitted') (kept ++ kept') (made ++ made') := by
  induction h with
  | nil => exact h'
  | skip x _ ih => exact ih.skip x
  | keep x _ ih => exact ih.keep x

theorem eq_of_kept_nil (h : Interleaved omitted [] made) : made = omitted := by
  generalize hkept : ([] : List α) = kept at h
  induction h with
  | nil => rfl
  | skip x _ ih => rw [ih hkept]
  | keep x _ _ => cases hkept

end Interleaved

variable {σ : Type}

/-- Whether two states are the same but for the calls made so far and for what the relation of the
memories ignores. -/
structure CallState.Alike (R : σ → σ → Prop) (s s' : CallState σ) : Prop where
  memory : R s.memory s'.memory
  generator : s.generator = s'.generator

namespace CallState.Alike

variable {R : σ → σ → Prop} (hR : Equivalence R)
include hR

theorem refl (s : CallState σ) : s.Alike R s := ⟨hR.refl _, rfl⟩

theorem symm {s s' : CallState σ} (h : s.Alike R s') : s'.Alike R s :=
  ⟨hR.symm h.memory, h.generator.symm⟩

theorem trans {s s' s'' : CallState σ} (h : s.Alike R s') (h' : s'.Alike R s'') : s.Alike R s'' :=
  ⟨hR.trans h.memory h'.memory, h.generator.trans h'.generator⟩

end CallState.Alike

namespace Function

/-- Whether a function does the same in states that are alike. -/
def Respects (R : σ → σ → Prop) (f : Function σ) : Prop :=
  ∀ arguments s s', s.Alike R s' →
    (f.run arguments s).1 = (f.run arguments s').1 ∧
      (f.run arguments s).2.Alike R (f.run arguments s').2

/-- Whether the result of a function follows from its arguments, and whether a call changes nothing
but what `R` ignores. -/
def Steady (R : σ → σ → Prop) (f : Function σ) : Prop :=
  ∀ arguments s s', (f.run arguments s).1 = (f.run arguments s').1 ∧
    (f.run arguments s).2.Alike R s

theorem Steady.respects {R : σ → σ → Prop} (hR : Equivalence R) {f : Function σ}
    (h : f.Steady R) : f.Respects R := by
  intro arguments s s' hs
  obtain ⟨hresult, hleft⟩ := h arguments s s'
  have hright := (h arguments s' s').2
  exact ⟨hresult, (hleft.trans hR hs).trans hR (hright.symm hR)⟩

/-- The record of a call of a function. -/
def record (f : Function σ) (arguments : List Float) : Call :=
  ⟨f.toSignature, f.body.isHost, arguments⟩

theorem run_calls (f : Function σ) (arguments : List Float) (s : CallState σ) :
    (f.run arguments s).2.calls = s.calls := by
  unfold run
  split <;> rfl

theorem call_apply (f : Function σ) (arguments : List Float) (s : CallState σ) :
    f.call arguments s =
      (.ok (f.run arguments { s with calls := f.record arguments :: s.calls }).1,
        (f.run arguments { s with calls := f.record arguments :: s.calls }).2) := rfl

end Function

namespace Evaluation

variable {α β : Type} {R : σ → σ → Prop}

/-- Whether from states that are alike `c'` does what `c` does, but without making the calls in
`folded`. If the two fail, some of the last of these calls have not been due. -/
def Omits (R : σ → σ → Prop) (folded : List Call) (c c' : Evaluation σ α) : Prop :=
  ∀ s s', s.Alike R s' →
    (c s).1 = (c' s').1 ∧ (c s).2.Alike R (c' s').2 ∧
      ∃ omitted kept made, Interleaved omitted kept made ∧
        (c s).2.calls = made.reverse ++ s.calls ∧
        (c' s').2.calls = kept.reverse ++ s'.calls ∧
        omitted <+: folded ∧ ∀ x, (c s).1 = .ok x → omitted = folded

namespace Omits

/-- A result that is known without calling anything. -/
theorem lift (result : Except EvaluationError α) :
    Omits R [] (ExceptT.mk (pure result)) (ExceptT.mk (pure result)) := by
  intro s s' h
  exact ⟨rfl, h, [], [], [], .nil, rfl, rfl, List.prefix_refl _, fun _ _ => rfl⟩

theorem pure (x : α) : Omits R [] (Pure.pure x) (Pure.pure x) := lift (.ok x)

theorem call {f : Function σ} (h : f.Respects R) (arguments : List Float) :
    Omits R [] (f.call arguments) (f.call arguments) := by
  intro s s' hs
  simp only [Function.call_apply]
  obtain ⟨hresult, halike⟩ := h arguments { s with calls := f.record arguments :: s.calls }
    { s' with calls := f.record arguments :: s'.calls } ⟨hs.memory, hs.generator⟩
  refine ⟨by rw [hresult], halike, [], [f.record arguments], [f.record arguments], ?_, ?_, ?_, ?_⟩
  · exact .keep _ .nil
  · exact f.run_calls _ _
  · exact f.run_calls _ _
  · exact ⟨List.prefix_refl _, fun _ _ => rfl⟩

/-- A call gives way to its value. -/
theorem call_pure (hR : Equivalence R) {f : Function σ} (h : f.Steady R) {arguments : List Float}
    {s₀ : CallState σ} :
    Omits R [f.record arguments] (f.call arguments) (Pure.pure (f.run arguments s₀).1) := by
  intro s s' hs
  simp only [Function.call_apply, pure_apply]
  obtain ⟨hresult, halike⟩ := h arguments { s with calls := f.record arguments :: s.calls } s₀
  refine ⟨by rw [hresult], halike.trans hR ⟨hs.memory, hs.generator⟩,
    [f.record arguments], [], [f.record arguments], ?_, ?_, rfl, ?_⟩
  · exact .skip _ .nil
  · exact f.run_calls _ _
  · exact ⟨List.prefix_refl _, fun _ _ => rfl⟩

/-- Calls are left out by one computation after another. -/
theorem bind {folded folded' : List Call} {c c' : Evaluation σ α} {k k' : α → Evaluation σ β}
    (h : Omits R folded c c')
    (hk : ∀ x, (∃ s', (c' s').1 = .ok x) → Omits R folded' (k x) (k' x)) :
    Omits R (folded ++ folded') (c >>= k) (c' >>= k') := by
  intro s s' hs
  obtain ⟨hresult, halike, omitted, kept, made, hinter, hmade, hkept, hprefix, hall⟩ := h s s' hs
  rw [bind_apply, bind_apply]
  cases hc : c s with
  | mk r t =>
    cases hc' : c' s' with
    | mk r' t' =>
      rw [hc] at hresult halike hmade hall
      rw [hc'] at hresult halike hkept
      dsimp only at hresult halike hmade hkept hall
      subst hresult
      cases r with
      | error e =>
        exact ⟨rfl, halike, omitted, kept, made, hinter, hmade, hkept,
          hprefix.trans (List.prefix_append _ _), nofun⟩
      | ok x =>
        obtain ⟨hresult₂, halike₂, omitted₂, kept₂, made₂, hinter₂, hmade₂, hkept₂, hprefix₂,
          hall₂⟩ := hk x ⟨s', by rw [hc']⟩ t t' halike
        obtain rfl := hall x rfl
        refine ⟨hresult₂, halike₂, omitted ++ omitted₂, kept ++ kept₂, made ++ made₂,
          hinter.append hinter₂, ?_, ?_, ?_, ?_⟩
        · rw [hmade₂, hmade, List.reverse_append, List.append_assoc]
        · rw [hkept₂, hkept, List.reverse_append, List.append_assoc]
        · exact (List.prefix_append_right_inj omitted).mpr hprefix₂
        · intro y hy
          rw [hall₂ y hy]

/-- A computation all of whose calls are left out. -/
theorem eq_of_pure (hR : Equivalence R) {folded : List Call} {c : Evaluation σ α} {x : α}
    (h : Omits R folded c (Pure.pure x)) (s : CallState σ) :
    ∃ s', c s = (.ok x, s') ∧ s'.Alike R s ∧ s'.calls = folded.reverse ++ s.calls := by
  obtain ⟨hresult, halike, omitted, kept, made, hinter, hmade, hkept, -, hall⟩ :=
    h s s (.refl hR s)
  have hnone : kept = [] := by simpa [pure_apply] using hkept
  subst hnone
  refine ⟨(c s).2, Prod.ext hresult rfl, halike, ?_⟩
  rw [hmade, hinter.eq_of_kept_nil, hall x hresult]

end Omits

end Evaluation

/-- A call by name does the same in states that are alike if the function of the name does. -/
theorem Table.call_omits {R : σ → σ → Prop} {functions : Table (Function σ)}
    (h : ∀ name f, functions.get? name = some f → f.Respects R) (name : String)
    (arguments : List Float) :
    Evaluation.Omits R [] (functions.call name arguments) (functions.call name arguments) := by
  unfold Table.call
  cases hget : functions.get? name with
  | none => exact .lift (.error _)
  | some f => exact .call (h name f hget) arguments

theorem Node.evaluate_omits {R : σ → σ → Prop} {scope : Scope σ}
    (h : ∀ name f, scope.functions.get? name = some f → f.Respects R) (node : Node)
    (arguments : List Float) :
    Evaluation.Omits R [] (node.evaluate scope arguments) (node.evaluate scope arguments) := by
  unfold Node.evaluate
  split
  case h_3 => exact .lift _
  case h_6 => exact Table.call_omits h _ _
  all_goals exact .pure _

end FormulaEngine
