import FormulaEngine.Proofs.FunctionArities
import FormulaEngine.Proofs.ParsedNodes
import FormulaEngine.Proofs.RelabeledEvaluation

/-!
What becomes of a formula when functions are replaced. A formula that was read before is read
again, as the relabeled tree; folding replaces the same calls, and whatever is registered later
makes no difference between the two.
-/
namespace FormulaEngine

variable {σ : Type}

/-- The functions of a table as labels for the calls in trees. -/
def Table.labels (functions : Table (Function σ)) : Labels :=
  fun name => (functions.get? name).map Function.toSignature

/-- Whether a call carries the mark that the function of its name has. -/
def Node.Marked (functions : Table (Function σ)) : Node → Prop
  | call name _ idempotent => ∃ f, functions.get? name = some f ∧ f.idempotent = idempotent
  | _ => True

namespace Table

variable {functions later : Table (Function σ)}

/-- Whether functions stand under their own names, and those that folding may call are steady. -/
structure Sound (functions : Table (Function σ)) : Prop where
  keyed : functions.Keyed
  steady : ∀ name f, functions.get? name = some f → f.overwritable = false →
    f.idempotent = true → f.Steady (· = ·)

theorem Sound.attempt (h : functions.Sound) {f : Function σ}
    (hf : f.overwritable = false → f.idempotent = true → f.Steady (· = ·)) :
    (functions.attempt f).Sound := by
  refine ⟨h.keyed.attempt f, fun name g hget => ?_⟩
  rcases get?_attempt_cases hget with ⟨rfl, -⟩ | hget
  · exact hf
  · exact h.steady name g hget

theorem Sound.attemptAll (h : functions.Sound) {registrations : List (Function σ)}
    (hall : ∀ f ∈ registrations, f.overwritable = false → f.idempotent = true →
      f.Steady (· = ·)) : (functions.attemptAll registrations).Sound :=
  attemptAll_induction (fun _ f hf h => h.attempt (hall f hf)) h

theorem follows_attemptAll (functions : Table (Function σ)) (registrations : List (Function σ)) :
    (functions.attemptAll registrations).Follows functions :=
  fun _ _ hget hprotected => get?_attemptAll_of_protected hget hprotected registrations

theorem Follows.attemptAll (h : later.Follows functions) (registrations : List (Function σ)) :
    (later.attemptAll registrations).Follows functions :=
  fun name f hget hprotected =>
    later.follows_attemptAll registrations name f (h name f hget hprotected) hprotected

/-- A name of a function and the name that the function itself has are one name for good. -/
theorem Keyed.labels_lead (h : functions.Keyed) (registrations : List (Function σ)) :
    functions.labels.Lead (functions.attemptAll registrations) := by
  intro name
  cases hget : functions.get? name with
  | none =>
    have hname : functions.labels.name name = name := by simp [Labels.name, labels, hget]
    rw [hname]
  | some f =>
    have hname : functions.labels.name name = f.name := by simp [Labels.name, labels, hget]
    have hkey : (functions.attemptAll registrations).get? f.name =
        (functions.attemptAll registrations).get? name := by
      apply get?_congr
      rw [key, key, caseSensitive_attemptAll]
      exact h name f hget
    have hadmits : functions.Admits name (f.arity.getD 0) := by
      refine ⟨f, hget, ?_⟩
      cases harity : f.arity <;> simp [Signature.accepts, harity]
    obtain ⟨g, hlater, -⟩ := hadmits.attemptAll registrations
    funext arguments
    rw [hname, call, call, hkey, hlater]

/-- Whether a formula that was read with the first functions is read with the second ones as the
relabeled tree, and folded alike where formulas are folded. -/
structure Relabels (now : Labels) (folding : Bool) (functions functions' : Table (Function σ)) :
    Prop where
  vocabulary : ∀ constants caseSensitive,
    Vocabulary.ofTables functions' constants caseSensitive =
      (Vocabulary.ofTables functions constants caseSensitive).relabel now
  folds : folding = true → ∀ node : Node, node.Marked functions →
    Tree.FoldsAlike now functions functions' node

/-- The same functions at another time. -/
theorem Sound.relabels_none (h : functions.Sound) (folding : Bool) :
    functions.Relabels (fun _ => none) folding functions := by
  refine ⟨fun constants caseSensitive => ?_, fun _ node hmarked => ?_⟩
  · have hsignature : Signature.relabel (fun _ => none) = id := rfl
    simp only [Vocabulary.relabel, hsignature, Option.map_id_fun, id_eq]
  · cases node with
    | call name argumentCount idempotent =>
      obtain ⟨f, hget, rfl⟩ := hmarked
      cases hover : f.overwritable with
      | false => exact .inl ⟨f, hget, hget, hover, rfl, h.steady name f hget hover⟩
      | true =>
        have hopen : Tree.isProtected functions name = false := by
          simp [Tree.isProtected, hget, hover]
        exact .inr ⟨hopen, hopen⟩
    | _ => trivial

/-- What is found under a name after a function has taken the place of another. -/
theorem replacement_cases {f : Function σ} (hregister : functions.register f = .ok (true, later))
    (name : String) :
    later.get? name = functions.get? name ∨
      ∃ existing, functions.get? name = some existing ∧ later.get? name = some f ∧
        existing.overwritable = true ∧ f.arity = existing.arity := by
  obtain ⟨rfl, -, hreplaced, hreplaces⟩ := register_ok hregister
  have hexists : (functions.get? f.name).isSome = true := hreplaced.symm
  obtain ⟨existing, hexisting⟩ := Option.isSome_iff_exists.mp hexists
  obtain ⟨hover, herror⟩ := hreplaces existing hexisting
  rw [get?_put]
  split
  · rename_i hkey
    exact .inr ⟨existing, (get?_congr hkey).trans hexisting, rfl, hover,
      Signature.arity_eq_of_replacementError? herror⟩
  · exact .inl rfl

theorem labels_of_get? {name : String} {f : Function σ} (h : functions.get? name = some f) :
    functions.labels name = some f.toSignature := by
  rw [labels, h]
  rfl

/-- As long as no function gets a new name, what a formula may use is the same but for labels. -/
theorem Keyed.vocabulary_relabel (h : functions.Keyed) {registrations : List (Function σ)}
    (hcontains : ∀ name,
      (functions.attemptAll registrations).contains name = functions.contains name)
    (constants : Table Constant) (caseSensitive : Bool) :
    Vocabulary.ofTables (functions.attemptAll registrations) constants caseSensitive =
      (Vocabulary.ofTables functions constants caseSensitive).relabel
        (functions.attemptAll registrations).labels := by
  refine congrArg (fun lookup => (⟨lookup, _, _⟩ : Vocabulary)) (funext fun name => ?_)
  change ((functions.attemptAll registrations).get? name).map Function.toSignature =
    ((functions.get? name).map Function.toSignature).map (Signature.relabel _)
  cases hget : functions.get? name with
  | none =>
    have hmissing : (functions.attemptAll registrations).get? name = none := by
      have hname := hcontains name
      rwa [contains, contains, hget, Option.isSome_none, Option.isSome_eq_false_iff,
        Option.isNone_iff_eq_none] at hname
    rw [hmissing]
    rfl
  | some f =>
    obtain ⟨f', hlater, harity⟩ := exists_get?_attemptAll hget registrations
    have hname : (functions.attemptAll registrations).get? f.name = some f' := by
      rw [← hlater]
      apply get?_congr
      rw [key, key, caseSensitive_attemptAll]
      exact h name f hget
    simp only [Option.map_some, Signature.relabel]
    rw [hlater, labels_of_get? hname, Option.elim_some, ← harity]
    rfl

theorem Sound.vocabulary_relabel (h : functions.Sound) {f : Function σ}
    (hregister : functions.register f = .ok (true, later)) (constants : Table Constant)
    (caseSensitive : Bool) :
    Vocabulary.ofTables later constants caseSensitive =
      (Vocabulary.ofTables functions constants caseSensitive).relabel later.labels := by
  have hlater : functions.attemptAll [f] = later := attempt_of_register_ok hregister
  rw [← hlater]
  refine h.keyed.vocabulary_relabel (fun name => ?_) constants caseSensitive
  rw [hlater, contains, contains]
  rcases replacement_cases hregister name with hsame | ⟨existing, hexisting, hget, -⟩
  · rw [hsame]
  · rw [hexisting, hget]
    rfl

/-- A function takes the place of another that has the same name. Where formulas are folded, it can
be overwritten like the one before. -/
theorem Sound.relabels_register (h : functions.Sound) {f : Function σ} {folding : Bool}
    (hregister : functions.register f = .ok (true, later))
    (hopen : folding = true → f.overwritable = true) :
    functions.Relabels later.labels folding later := by
  refine ⟨h.vocabulary_relabel hregister, fun hfolding node hmarked => ?_⟩
  have hkeyed : later.Keyed := attempt_of_register_ok hregister ▸ h.keyed.attempt f
  cases node with
  | call name argumentCount idempotent =>
    obtain ⟨g, hget, rfl⟩ := hmarked
    -- The function under the name and its labels, after the replacement.
    have hpresent : ∀ g', later.get? name = some g' →
        later.get? (later.labels.name name) = some g' ∧
          later.labels.idempotent name g.idempotent = g'.idempotent := by
      intro g' hget'
      rw [Labels.name, Labels.idempotent, labels_of_get? hget']
      exact ⟨hkeyed.get?_name hget', rfl⟩
    rcases replacement_cases hregister name with hsame | ⟨existing, hexisting, hlater, hover, -⟩
    · obtain ⟨hname, hmark⟩ := hpresent g (hsame.trans hget)
      cases hg : g.overwritable with
      | false => exact .inl ⟨g, hget, hname, hg, hmark, h.steady name g hget hg⟩
      | true => exact .inr ⟨by simp [Tree.isProtected, hget, hg],
          by simp [Tree.isProtected, hname, hg]⟩
    · obtain ⟨hname, -⟩ := hpresent f hlater
      exact .inr ⟨by simp [Tree.isProtected, hexisting, hover],
        by simp [Tree.isProtected, hname, hopen hfolding]⟩
  | _ => trivial

end Table

/-- Every call in a parsed tree is marked like its function. -/
theorem Tree.parse_marked {locale : Locale} {functions : Table (Function σ)}
    (hkeyed : functions.Keyed) {constants : Table Constant} {caseSensitive : Bool} {text : String}
    {t : Tree} (h : parse locale (.ofTables functions constants caseSensitive) text = .ok t) :
    ∀ node ∈ t.postorder, node.Marked functions := by
  refine forall_mem_postorder_of_parse (fun node hnode => ?_) (fun name callee hcallee n _ => ?_) h
  · cases node <;> trivial
  · obtain ⟨f, hget, rfl⟩ := Option.map_eq_some_iff.mp hcallee
    exact ⟨f, hkeyed.get?_name hget, rfl⟩

end FormulaEngine
