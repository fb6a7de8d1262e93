import FormulaEngine.Proofs.FunctionArities
import Mathlib.Data.List.Nodup

/-!
What a table tells of its history. Under every name it has the entry that was registered last, and
nothing else; an entry is never taken away, one that may not be overwritten is never changed, and
functions that take each other's place take as many arguments. The list of the entries is in
ascending order of their names, in whatever order the table keeps them.
-/
namespace FormulaEngine.Table

variable {ε : Type} [Entry ε]

/-- The entries that are registered when one tries to register all of a list, in their order. -/
def accepted (t : Table ε) : List ε → List ε
  | [] => []
  | entry :: rest =>
    match t.register entry with
    | .ok (_, next) => entry :: next.accepted rest
    | .error _ => t.accepted rest

/-- The last of some entries whose name is a given one, up to letter case if it does not matter. -/
def lastNamed? (caseSensitive : Bool) (name : String) (entries : List ε) : Option ε :=
  entries.reverse.find? fun entry =>
    Text.nameKey caseSensitive (Entry.name entry) == Text.nameKey caseSensitive name

theorem lastNamed?_cons (caseSensitive : Bool) (name : String) (entry : ε) (entries : List ε) :
    lastNamed? caseSensitive name (entry :: entries) =
      (lastNamed? caseSensitive name entries).or
        (if Text.nameKey caseSensitive name = Text.nameKey caseSensitive (Entry.name entry) then
          some entry else none) := by
  rw [lastNamed?, List.reverse_cons, List.find?_append, lastNamed?]
  congr 1
  by_cases h : Text.nameKey caseSensitive name = Text.nameKey caseSensitive (Entry.name entry)
  · simp [h]
  · simp [h, Ne.symm h]

/-- What is found after some attempts was registered by the last that succeeded under its name. -/
theorem get?_attemptAll (t : Table ε) (entries : List ε) (name : String) :
    (t.attemptAll entries).get? name =
      (lastNamed? t.caseSensitive name (t.accepted entries)).or (t.get? name) := by
  induction entries generalizing t with
  | nil => rfl
  | cons entry rest ih =>
    change ((t.attempt entry).attemptAll rest).get? name = _
    rw [accepted]
    cases hregister : t.register entry with
    | error e => rw [attempt_of_register_error hregister, ih]
    | ok registered =>
      obtain ⟨replaced, next⟩ := registered
      obtain ⟨rfl, -⟩ := register_ok hregister
      have hsame : (t.put entry).caseSensitive = t.caseSensitive := rfl
      rw [attempt_of_register_ok hregister, ih, hsame, lastNamed?_cons, Option.or_assoc, get?_put]
      congr 1
      change _ = (if t.key name = t.key (Entry.name entry) then some entry else none).or _
      split <;> rfl

/-- Whether an attempt succeeds, and whether it takes the place of another entry then. -/
theorem register_ok_iff {t : Table ε} {entry : ε} {replaced : Bool} :
    (∃ next, t.register entry = .ok (replaced, next)) ↔
      Text.isName (Entry.name entry) = true ∧ replaced = t.contains (Entry.name entry) ∧
        ∀ existing, t.get? (Entry.name entry) = some existing →
          Entry.overwritable existing = true ∧ Entry.replacementError? existing entry = none := by
  constructor
  · rintro ⟨next, h⟩
    exact (register_ok h).2
  · rintro ⟨hname, rfl, hreplaces⟩
    refine ⟨t.put entry, ?_⟩
    unfold register admission
    cases hget : t.get? (Entry.name entry) with
    | none => simp [hname, contains, hget]
    | some existing =>
      obtain ⟨hover, herror⟩ := hreplaces existing hget
      simp [hname, contains, hget, hover, herror]

theorem contains_attempt {t : Table ε} {name : String} (h : t.contains name = true) (entry : ε) :
    (t.attempt entry).contains name = true := by
  rcases t.attempt_cases entry with hsame | ⟨-, -, hput⟩
  · rw [hsame, h]
  · rw [hput, contains, get?_put]
    split
    · rfl
    · exact h

/-- A name that has an entry has one for good. -/
theorem contains_attemptAll {t : Table ε} {name : String} (h : t.contains name = true)
    (entries : List ε) : (t.attemptAll entries).contains name = true :=
  attemptAll_induction (P := fun t => t.contains name = true)
    (fun _ entry _ h => contains_attempt h entry) h

/-- Under the name of an entry that may not be overwritten nothing can be registered. -/
theorem register_of_protected {t : Table ε} {name : String} {existing entry : ε}
    (hget : t.get? name = some existing) (hprotected : Entry.overwritable existing = false)
    (hkey : t.key (Entry.name entry) = t.key name) : ∃ e, t.register entry = .error e := by
  cases hregister : t.register entry with
  | error e => exact ⟨e, rfl⟩
  | ok registered =>
    obtain ⟨-, -, -, hreplaces⟩ := register_ok hregister
    have hover := (hreplaces existing ((get?_congr hkey).trans hget)).1
    rw [hprotected] at hover
    cases hover

section Rows

/-- Whether the rows stand under the names of their own entries, no two of them under one. -/
structure Indexed (t : Table ε) : Prop where
  nodup : (t.rows.map Prod.fst).Nodup
  keyed : ∀ row ∈ t.rows, row.1 = t.key (Entry.name row.2)

theorem indexed_empty (caseSensitive : Bool) : (empty caseSensitive : Table ε).Indexed :=
  ⟨.nil, nofun⟩

omit [Entry ε] in
theorem mem_putRow {key : String} {entry : ε} {rows : List (String × ε)} {row : String × ε}
    (h : row ∈ putRow key entry rows) : row = (key, entry) ∨ row ∈ rows := by
  induction rows with
  | nil => exact .inl (List.mem_singleton.mp h)
  | cons first rows ih =>
    rw [putRow] at h
    split at h
    · exact (List.mem_cons.mp h).imp_right (List.mem_cons_of_mem first)
    · rcases List.mem_cons.mp h with rfl | h
      · exact .inr List.mem_cons_self
      · exact (ih h).imp_right (List.mem_cons_of_mem first)

omit [Entry ε] in
/-- A key that is there keeps its place, and a new one comes last. -/
theorem map_fst_putRow (key : String) (entry : ε) (rows : List (String × ε)) :
    (putRow key entry rows).map Prod.fst =
      if key ∈ rows.map Prod.fst then rows.map Prod.fst else rows.map Prod.fst ++ [key] := by
  induction rows with
  | nil => rfl
  | cons first rows ih =>
    by_cases hfirst : first.1 = key
    · simp [putRow, hfirst]
    · have hne : key ≠ first.1 := Ne.symm hfirst
      simp only [putRow, beq_iff_eq, hfirst, if_false, List.map_cons, ih, List.mem_cons, hne,
        false_or]
      split <;> rfl

theorem Indexed.attempt {t : Table ε} (h : t.Indexed) (entry : ε) : (t.attempt entry).Indexed := by
  rcases t.attempt_cases entry with hsame | ⟨-, -, hput⟩
  · rwa [hsame]
  · rw [hput]
    refine ⟨?_, fun row hrow => ?_⟩
    · rw [put, map_fst_putRow]
      split
      · exact h.nodup
      · rename_i hnew
        refine List.nodup_append.mpr ⟨h.nodup, by simp, fun a ha b hb heq => hnew ?_⟩
        rwa [heq, List.mem_singleton.mp hb] at ha
    · rcases mem_putRow hrow with rfl | hrow
      · rfl
      · exact h.keyed row hrow

theorem Indexed.attemptAll {t : Table ε} (h : t.Indexed) (entries : List ε) :
    (t.attemptAll entries).Indexed :=
  attemptAll_induction (fun _ entry _ h => h.attempt entry) h

omit [Entry ε] in
/-- Under a key that occurs once the value that stands there is found. -/
theorem lookup_of_mem {rows : List (String × ε)} (hnodup : (rows.map Prod.fst).Nodup)
    {row : String × ε} (hrow : row ∈ rows) : rows.lookup row.1 = some row.2 := by
  obtain ⟨before, after, rfl⟩ := List.append_of_mem hrow
  rw [List.map_append, List.map_cons, List.nodup_append] at hnodup
  refine List.lookup_eq_some_iff.mpr ⟨before, after, rfl, fun other hother => ?_⟩
  rw [bne_iff_ne]
  exact (hnodup.2.2 other.1 (List.mem_map_of_mem hother) row.1 List.mem_cons_self).symm

variable {t : Table ε} (h : t.Indexed)
include h

/-- An entry is in the table if it is what is found under its name. -/
theorem Indexed.mem_iff {entry : ε} :
    entry ∈ t.rows.map Prod.snd ↔ t.get? (Entry.name entry) = some entry := by
  refine ⟨fun hmem => ?_, mem_of_get?⟩
  obtain ⟨row, hrow, rfl⟩ := List.mem_map.mp hmem
  rw [get?, ← h.keyed row hrow]
  exact lookup_of_mem h.nodup hrow

/-- Entries under different keys have different names. -/
theorem Indexed.nodup_names : ((t.rows.map Prod.snd).map Entry.name).Nodup := by
  have hkeys : ((t.rows.map Prod.snd).map Entry.name).map t.key = t.rows.map Prod.fst := by
    rw [List.map_map, List.map_map]
    exact List.map_congr_left fun row hrow => (h.keyed row hrow).symm
  exact List.Nodup.of_map t.key (hkeys ▸ h.nodup)

theorem Indexed.entries_pairwise :
    t.entries.Pairwise fun a b => Entry.name a < Entry.name b := by
  have hperm : t.entries.Perm (t.rows.map Prod.snd) := List.mergeSort_perm _ _
  have hsorted : t.entries.Pairwise fun a b => Entry.name a ≤ Entry.name b := by
    let le (a b : ε) : Bool := decide (Entry.name a ≤ Entry.name b)
    have htrans : ∀ a b c, le a b = true → le b c = true → le a c = true :=
      fun a b c hab hbc => decide_eq_true
        (String.le_trans (of_decide_eq_true hab) (of_decide_eq_true hbc))
    have htotal : ∀ a b, (le a b || le b a) = true :=
      fun a b => by simpa [le] using String.le_total (Entry.name a) (Entry.name b)
    exact (List.pairwise_mergeSort htrans htotal _).imp of_decide_eq_true
  have hdistinct : t.entries.Pairwise fun a b => Entry.name a ≠ Entry.name b :=
    List.pairwise_map.mp ((hperm.map Entry.name).nodup_iff.mpr h.nodup_names)
  refine hsorted.imp₂ (fun a b hle hne => ?_) hdistinct
  exact Decidable.byContradiction fun hlt => hne (String.le_antisymm hle (String.not_lt.mp hlt))

/-- The list of the entries does not depend on the order of the rows. -/
theorem Indexed.entries_eq_of_perm {order : List (String × ε)} (horder : order.Perm t.rows) :
    ({ t with rows := order } : Table ε).entries = t.entries := by
  have hindexed : ({ t with rows := order } : Table ε).Indexed :=
    ⟨(horder.map Prod.fst).nodup_iff.mpr h.nodup, fun row hrow => h.keyed row (horder.subset hrow)⟩
  have hperm : ({ t with rows := order } : Table ε).entries.Perm t.entries :=
    (List.mergeSort_perm _ _).trans
      ((horder.map Prod.snd).trans (List.mergeSort_perm _ _).symm)
  refine hperm.eq_of_pairwise (fun a b _ _ hab hba => ?_) hindexed.entries_pairwise
    h.entries_pairwise
  exact (String.lt_irrefl _ (String.lt_trans hab hba)).elim

end Rows

/-- A table that was empty once, after some attempts to register entries and after some more. -/
theorem registration_history {ε : Type} [Entry ε] (caseSensitive : Bool) (earlier later : List ε) :
    let t := (empty caseSensitive : Table ε).attemptAll earlier
    let t' := t.attemptAll later
    -- What is found under a name, in any spelling, is what was registered last.
    (∀ name, t.get? name =
      lastNamed? caseSensitive name ((empty caseSensitive).accepted earlier)) ∧
    (∀ name, t.contains name = true → t'.contains name = true) ∧
    (∀ name entry, t.get? name = some entry → Entry.overwritable entry = false →
      t'.get? name = some entry ∧
        ∀ other, t'.key (Entry.name other) = t'.key name → ∃ e, t'.register other = .error e) ∧
    -- An attempt succeeds if nothing forbids it, and tells whether there was an entry before.
    (∀ entry replaced, (∃ next, t.register entry = .ok (replaced, next)) ↔
      Text.isName (Entry.name entry) = true ∧ replaced = t.contains (Entry.name entry) ∧
        ∀ existing, t.get? (Entry.name entry) = some existing →
          Entry.overwritable existing = true ∧ Entry.replacementError? existing entry = none) ∧
    (∀ entry e, t.register entry = .error e → t.attempt entry = t) ∧
    (∀ entry, entry ∈ t.entries ↔ t.get? (Entry.name entry) = some entry) ∧
    t.entries.Pairwise (fun a b => Entry.name a < Entry.name b) ∧
    (∀ order, order.Perm t.rows → ({ t with rows := order } : Table ε).entries = t.entries) ∧
    ∀ (σ : Type) (earlier later : List (Function σ)) name f g,
      ((empty caseSensitive).attemptAll earlier).get? name = some f →
      (((empty caseSensitive).attemptAll earlier).attemptAll later).get? name = some g →
      g.arity = f.arity := by
  intro t t'
  have hindexed : t.Indexed := (indexed_empty caseSensitive).attemptAll earlier
  refine ⟨fun name => ?_, fun name hname => contains_attemptAll hname later,
    fun name entry hget hprotected => ?_, fun entry replaced => register_ok_iff,
    fun entry e hregister => attempt_of_register_error hregister, fun entry => ?_,
    hindexed.entries_pairwise, fun order => hindexed.entries_eq_of_perm,
    fun σ earlier later name f g hf hg => ?_⟩
  · rw [get?_attemptAll]
    exact Option.or_none
  · have hkept : t'.get? name = some entry := get?_attemptAll_of_protected hget hprotected later
    exact ⟨hkept, fun other hother => register_of_protected hkept hprotected hother⟩
  · rw [← hindexed.mem_iff]
    exact (List.mergeSort_perm _ _).mem_iff
  · obtain ⟨g', hg', harity⟩ := exists_get?_attemptAll hf later
    cases hg.symm.trans hg'
    exact harity

end FormulaEngine.Table
