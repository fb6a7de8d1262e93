import FormulaEngine.Table

/-!
Histories of a table. An attempt to register an entry either writes it or leaves the
table as it was. Whatever is attempted later, an entry that may not be overwritten is
found unchanged, and every entry of a table that was once empty has a proper name.
-/
namespace FormulaEngine.Table

variable {ε : Type}

theorem lookup_putRow (key other : String) (entry : ε) (rows : List (String × ε)) :
    (putRow key entry rows).lookup other =
      if other = key then some entry else rows.lookup other := by
  induction rows with
  | nil =>
    by_cases h : other = key
    · simp [putRow, h]
    · simp [putRow, h]
  | cons row rows ih =>
    obtain ⟨first, value⟩ := row
    by_cases hfirst : first = key
    · subst first
      by_cases h : other = key
      · simp [putRow, h]
      · simp [putRow, h, List.lookup_cons, beq_false_of_ne h]
    · simp only [putRow, beq_iff_eq, hfirst, if_false, List.lookup_cons]
      by_cases h : other = first
      · subst other
        simp [hfirst]
      · simp only [beq_false_of_ne h, ih]

theorem mem_of_get? {t : Table ε} {name : String} {entry : ε} (h : t.get? name = some entry) :
    entry ∈ t.rows.map Prod.snd := by
  obtain ⟨rows, rows', hrows, -⟩ := List.lookup_eq_some_iff.mp h
  simp [hrows]

/-- Names with one key are one name. -/
theorem get?_congr {t : Table ε} {name other : String} (h : t.key name = t.key other) :
    t.get? name = t.get? other :=
  congrArg (fun key => t.rows.lookup key) h

variable [Entry ε]

/-- The table after an attempt to register an entry; a refused entry changes nothing. -/
def attempt (t : Table ε) (entry : ε) : Table ε :=
  match t.register entry with
  | .ok (_, next) => next
  | .error _ => t

/-- The table after attempts to register entries one after another. -/
def attemptAll (t : Table ε) (entries : List ε) : Table ε := entries.foldl attempt t

/-- What every attempt keeps holds in the end. -/
theorem attemptAll_induction {P : Table ε → Prop} {t : Table ε} {entries : List ε}
    (hstep : ∀ t, ∀ entry ∈ entries, P t → P (t.attempt entry)) (h : P t) :
    P (t.attemptAll entries) := by
  induction entries generalizing t with
  | nil => exact h
  | cons entry rest ih =>
    exact ih (fun t other hother => hstep t other (List.mem_cons_of_mem entry hother))
      (hstep t entry List.mem_cons_self h)

theorem get?_put (t : Table ε) (entry : ε) (name : String) :
    (t.put entry).get? name =
      if t.key name = t.key (Entry.name entry) then some entry else t.get? name :=
  lookup_putRow _ _ _ _

/-- All that an attempt can do: nothing, or write an entry with a proper name over nothing or over
an entry that allows it. -/
theorem attempt_cases (t : Table ε) (entry : ε) :
    t.attempt entry = t ∨
      (Text.isName (Entry.name entry) = true ∧
        (∀ existing, t.get? (Entry.name entry) = some existing →
          Entry.overwritable existing = true) ∧
        t.attempt entry = t.put entry) := by
  unfold attempt register admission
  by_cases hname : Text.isName (Entry.name entry) = true
  · cases hget : t.get? (Entry.name entry) with
    | none => exact Or.inr (by simp [hname])
    | some existing =>
      by_cases hover : Entry.overwritable existing = true
      · cases herror : Entry.replacementError? existing entry with
        | none => exact Or.inr (by simp [hname, hover, herror])
        | some e => exact Or.inl (by simp [hname, hover, herror])
      · exact Or.inl (by simp [hname, hover])
  · exact Or.inl (by simp [hname])

theorem caseSensitive_attempt (t : Table ε) (entry : ε) :
    (t.attempt entry).caseSensitive = t.caseSensitive := by
  rcases t.attempt_cases entry with hsame | ⟨-, -, hput⟩
  · rw [hsame]
  · rw [hput]
    rfl

theorem caseSensitive_attemptAll (t : Table ε) (entries : List ε) :
    (t.attemptAll entries).caseSensitive = t.caseSensitive :=
  attemptAll_induction (P := fun later => later.caseSensitive = t.caseSensitive)
    (fun later entry _ h => (later.caseSensitive_attempt entry).trans h) rfl

theorem get?_attempt_of_protected {t : Table ε} {name : String} {existing : ε}
    (hget : t.get? name = some existing) (hprotected : Entry.overwritable existing = false)
    (entry : ε) : (t.attempt entry).get? name = some existing := by
  rcases t.attempt_cases entry with hsame | ⟨-, hover, hput⟩
  · rw [hsame, hget]
  · rw [hput, get?_put]
    by_cases hkey : t.key name = t.key (Entry.name entry)
    · -- The same key would find the protected entry, which the attempt did not.
      have hentry : t.get? (Entry.name entry) = some existing := (get?_congr hkey).symm.trans hget
      rw [hover existing hentry] at hprotected
      cases hprotected
    · rw [if_neg hkey, hget]

/-- An entry that may not be overwritten stays for good. -/
theorem get?_attemptAll_of_protected {t : Table ε} {name : String} {existing : ε}
    (hget : t.get? name = some existing) (hprotected : Entry.overwritable existing = false)
    (entries : List ε) : (t.attemptAll entries).get? name = some existing :=
  attemptAll_induction (P := fun t => t.get? name = some existing)
    (fun _ entry _ hget => get?_attempt_of_protected hget hprotected entry) hget

/-- What is found after an attempt was written by it or was there before. -/
theorem get?_attempt_cases {t : Table ε} {entry found : ε} {name : String}
    (h : (t.attempt entry).get? name = some found) :
    (found = entry ∧ Text.isName (Entry.name entry) = true) ∨ t.get? name = some found := by
  rcases t.attempt_cases entry with hsame | ⟨hname, -, hput⟩
  · rw [hsame] at h
    exact Or.inr h
  · rw [hput, get?_put] at h
    split at h
    · cases h
      exact Or.inl ⟨rfl, hname⟩
    · exact Or.inr h

theorem mem_of_get?_attemptAll {t : Table ε} {entries : List ε} {found : ε} {name : String}
    (h : (t.attemptAll entries).get? name = some found) :
    found ∈ entries ∨ t.get? name = some found := by
  induction entries generalizing t with
  | nil => exact Or.inr h
  | cons entry rest ih =>
    rcases ih (t := t.attempt entry) h with hmem | hget
    · exact Or.inl (List.mem_cons_of_mem entry hmem)
    · rcases get?_attempt_cases hget with ⟨rfl, -⟩ | hget
      · exact Or.inl List.mem_cons_self
      · exact Or.inr hget

/-- Every entry that can be found has a proper name. -/
def Named (t : Table ε) : Prop :=
  ∀ name entry, t.get? name = some entry → Text.isName (Entry.name entry) = true

theorem named_empty (caseSensitive : Bool) : (empty caseSensitive : Table ε).Named := by
  intro name entry h
  simp [get?, empty] at h

theorem Named.attempt {t : Table ε} (h : t.Named) (entry : ε) : (t.attempt entry).Named := by
  intro name found hfound
  rcases get?_attempt_cases hfound with ⟨rfl, hname⟩ | hget
  · exact hname
  · exact h name found hget

theorem Named.attemptAll {t : Table ε} (h : t.Named) (entries : List ε) :
    (t.attemptAll entries).Named :=
  attemptAll_induction (fun _ entry _ h => h.attempt entry) h

end FormulaEngine.Table
