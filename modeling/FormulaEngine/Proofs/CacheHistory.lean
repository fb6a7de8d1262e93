import FormulaEngine.Proofs.CacheRecency

/-!
Where the values of a cache come from. A value is given for a key when it is inserted, or when it is
made for a key that is not there, which happens once for each such request. What is found later is
the value that was given last, and the key has been there all the time since then.
-/
namespace FormulaEngine.Cache

variable {ε τ α : Type}

theorem fst_get (c : Cache α) (key : String) : (c.get key).1 = c.entries.lookup key := by
  rw [get]
  cases c.entries.lookup key <;> rfl

theorem contains_eq_isSome (c : Cache α) (key : String) :
    c.contains key = (c.get key).1.isSome := by
  rw [fst_get, contains]

theorem contains_eq_false_iff {c : Cache α} {key : String} :
    c.contains key = false ↔ (c.get key).1 = none := by
  rw [contains_eq_isSome, Option.isSome_eq_false_iff, Option.isNone_iff_eq_none]

theorem lookup_moveToFront_of_ne {key other : String} (h : other ≠ key) (value : α)
    (entries : List (String × α)) :
    (moveToFront key value entries).lookup other = entries.lookup other := by
  rw [moveToFront, List.lookup_cons, beq_false_of_ne h]
  dsimp only
  induction entries with
  | nil => rfl
  | cons entry entries ih =>
    rw [List.lookup_cons]
    by_cases hkey : entry.1 = key
    · rw [List.filter_cons_of_neg (by simp [hkey]), ih, hkey, beq_false_of_ne h]
    · rw [List.filter_cons_of_pos (by simp [hkey]), List.lookup_cons, ih]

theorem get_insert_self (c : Cache α) (key : String) (value : α) :
    ((c.insert key value).get key).1 = some value := by
  rw [fst_get]
  exact List.lookup_cons_self

/-- Nothing is found after the cache was cleared. -/
theorem get_clear (c : Cache α) (key : String) : (c.clear.get key).1 = none := rfl

/-- What is found for another key after an insertion was found before. -/
theorem get_of_get_insert {c : Cache α} {key other : String} {value found : α} (h : other ≠ key)
    (hfound : ((c.insert key value).get other).1 = some found) :
    (c.get other).1 = some found := by
  rw [fst_get, insert, lookup_moveToFront_of_ne h] at hfound
  rw [fst_get]
  split at hfound
  · rw [← List.take_append_drop (c.size - c.evictionCount) c.entries, List.lookup_append, hfound]
    rfl
  · exact hfound

/-- Looking a key up changes no answer. -/
theorem get_get (c : Cache α) (key other : String) :
    ((c.get key).2.get other).1 = (c.get other).1 := by
  cases hlookup : c.entries.lookup key with
  | none =>
    have hget : c.get key = (none, c) := by rw [get, hlookup]
    rw [hget]
  | some value =>
    rw [fst_get, fst_get, get, hlookup]
    by_cases h : other = key
    · rw [h, hlookup]
      exact List.lookup_cons_self
    · exact lookup_moveToFront_of_ne h value c.entries

/-- The value that an operation gives for a key, if it gives one. -/
def Operation.gives? : Operation ε τ α → Cache α → τ → Option (String × α)
  | insert key value, _, _ => some (key, value)
  | getOrCreate key create, c, t =>
    if c.contains key then none else (create t).1.toOption.map fun value => (key, value)
  | get _, _, _ | contains _, _, _ | size, _, _ | clear, _, _ => none

section Requests

variable {c : Cache α} {key : String} {value : α} {e : ε} (create : τ → Except ε α × τ) {t : τ}

/-- What is there is found, and nothing is made. -/
theorem getOrCreate_of_found (h : (c.get key).1 = some value) (t : τ) :
    c.getOrCreate key create t = (.ok value, (c.get key).2, t) := by
  rw [getOrCreate]
  revert h
  rcases c.get key with ⟨found, touched⟩
  rintro (rfl : found = some value)
  rfl

variable {create}

theorem getOrCreate_of_ok (hmissing : (c.get key).1 = none) (hmade : (create t).1 = .ok value) :
    c.getOrCreate key create t = (.ok value, c.insert key value, (create t).2) := by
  rw [getOrCreate]
  revert hmissing hmade
  rcases c.get key with ⟨found, touched⟩
  rcases create t with ⟨made, t'⟩
  rintro (rfl : found = none) (rfl : made = .ok value)
  rfl

theorem getOrCreate_of_error (hmissing : (c.get key).1 = none)
    (hfailed : (create t).1 = .error e) :
    c.getOrCreate key create t = (.error e, c, (create t).2) := by
  rw [getOrCreate]
  revert hmissing hfailed
  rcases c.get key with ⟨found, touched⟩
  rcases create t with ⟨made, t'⟩
  rintro (rfl : found = none) (rfl : made = .error e)
  rfl

end Requests

/-- All that an operation can do to the answers of a cache: it forgets them, it keeps the value that
it gives, or it changes none. -/
theorem Operation.gives_cases (operation : Operation ε τ α) (c : Cache α) (t : τ) :
    (operation = .clear ∧ (operation.run c t).1 = c.clear) ∨
    (∃ key value, operation ≠ .clear ∧ operation.gives? c t = some (key, value) ∧
      (operation.run c t).1 = c.insert key value) ∨
    (operation ≠ .clear ∧ operation.gives? c t = none ∧
      ∀ key, ((operation.run c t).1.get key).1 = (c.get key).1) := by
  cases operation with
  | get key => exact .inr (.inr ⟨by simp, rfl, c.get_get key⟩)
  | contains | size => exact .inr (.inr ⟨by simp, rfl, fun _ => rfl⟩)
  | insert key value => exact .inr (.inl ⟨key, value, by simp, rfl, rfl⟩)
  | clear => exact .inl ⟨rfl, rfl⟩
  | getOrCreate key create =>
    simp only [gives?, run, contains_eq_isSome]
    cases hfound : (c.get key).1 with
    | some value =>
      rw [getOrCreate_of_found create hfound]
      exact .inr (.inr ⟨by simp, rfl, c.get_get key⟩)
    | none =>
      cases hmade : (create t).1 with
      | ok value =>
        rw [getOrCreate_of_ok hfound hmade]
        exact .inr (.inl ⟨key, value, by simp, rfl, rfl⟩)
      | error e =>
        rw [getOrCreate_of_error hfound hmade]
        exact .inr (.inr ⟨by simp, rfl, fun _ => rfl⟩)

namespace Usage

/-- Whether a key is found with the same value all along some operations, none of which clears the
cache or gives the key a value. -/
def Keeps (key : String) (value : α) : Usage τ α → List (Operation ε τ α) → Prop
  | u, [] => (u.cache.get key).1 = some value
  | u, operation :: rest => (u.cache.get key).1 = some value ∧ operation ≠ .clear ∧
      (∀ other, operation.gives? u.cache u.outside ≠ some (key, other)) ∧
      Keeps key value (u.perform operation) rest

theorem Keeps.found {key : String} {value : α} {u : Usage τ α}
    {operations : List (Operation ε τ α)} (h : u.Keeps key value operations) :
    (u.cache.get key).1 = some value := by
  cases operations with
  | nil => exact h
  | cons operation rest => exact h.1

theorem Keeps.found_after {key : String} {value : α} {u : Usage τ α}
    {operations : List (Operation ε τ α)} (h : u.Keeps key value operations) :
    ((u.after operations).cache.get key).1 = some value := by
  induction operations generalizing u with
  | nil => exact h
  | cons operation rest ih => exact ih h.2.2.2

theorem after_append (u : Usage τ α) (before since : List (Operation ε τ α)) :
    u.after (before ++ since) = (u.after before).after since := List.foldl_append

theorem cache_perform (u : Usage τ α) (operation : Operation ε τ α) :
    (u.perform operation).cache = (operation.run u.cache u.outside).1 := rfl

/-- What is found after an operation was given by it, or was there before and was neither cleared
nor given another value. -/
theorem found_cases {u : Usage τ α} {operation : Operation ε τ α} {key : String} {value : α}
    (h : ((u.perform operation).cache.get key).1 = some value) :
    operation.gives? u.cache u.outside = some (key, value) ∨
    ((u.cache.get key).1 = some value ∧ operation ≠ .clear ∧
      ∀ other, operation.gives? u.cache u.outside ≠ some (key, other)) := by
  rw [cache_perform] at h
  rcases operation.gives_cases u.cache u.outside with
    ⟨-, hrun⟩ | ⟨given, x, hclear, hgives, hrun⟩ | ⟨hclear, hgives, hrun⟩
  · rw [hrun, get_clear] at h
    cases h
  · rw [hrun] at h
    rw [hgives]
    by_cases hkey : key = given
    · rw [hkey, get_insert_self] at h
      exact .inl (by rw [hkey, Option.some.inj h])
    · refine .inr ⟨get_of_get_insert hkey h, hclear, fun other heq => ?_⟩
      exact hkey (Prod.mk.inj (Option.some.inj heq)).1.symm
  · rw [hrun] at h
    rw [hgives]
    exact .inr ⟨h, hclear, nofun⟩

/-- What is found in the end was given by one of the operations and kept by those after it, or it
was there from the start and kept by all of them. -/
theorem given_or_keeps {u : Usage τ α} {operations : List (Operation ε τ α)} {key : String}
    {value : α} (h : ((u.after operations).cache.get key).1 = some value) :
    (∃ before operation since, operations = before ++ operation :: since ∧
      operation.gives? (u.after before).cache (u.after before).outside = some (key, value) ∧
      ((u.after before).perform operation).Keeps key value since) ∨
    u.Keeps key value operations := by
  induction operations generalizing u with
  | nil => exact .inr h
  | cons operation rest ih =>
    have hrest : (((u.perform operation).after rest).cache.get key).1 = some value := h
    rcases ih hrest with ⟨before, last, since, rfl, hgives, hkeeps⟩ | hkeeps
    · exact .inl ⟨operation :: before, last, since, rfl, hgives, hkeeps⟩
    · rcases found_cases hkeeps.found with hgives | ⟨hfound, hothers⟩
      · exact .inl ⟨[], operation, rest, rfl, hgives, hkeeps⟩
      · exact .inr ⟨hfound, hothers.1, hothers.2, hkeeps⟩

end Usage

/-- A way to make values that also counts how often it is used. -/
def counted (create : τ → Except ε α × τ) (t : τ × Nat) : Except ε α × τ × Nat :=
  ((create t.1).1, (create t.1).2, t.2 + 1)

theorem runs_counted (c : Cache α) (key : String) (create : τ → Except ε α × τ) (t : τ)
    (runs : Nat) :
    (c.getOrCreate key (counted create) (t, runs)).2.2 =
      if c.contains key then (t, runs) else ((create t).2, runs + 1) := by
  rw [contains_eq_isSome]
  cases hfound : (c.get key).1 with
  | some value =>
    rw [getOrCreate_of_found _ hfound]
    rfl
  | none =>
    cases hmade : (counted create (t, runs)).1 with
    | ok value =>
      rw [getOrCreate_of_ok hfound hmade]
      rfl
    | error e =>
      rw [getOrCreate_of_error hfound hmade]
      rfl

/-- At any time a value that is asked for is made once if the key is missing, and not at all if it
is there. If that fails, the request fails in the same way and leaves the cache as it was, the order
of use included; otherwise the answer is what the cache holds for the key from then on. Nothing is
found after the cache was cleared. What is found for a key is the value that was given for it last,
and since then the key was there all the time and the cache was not cleared. -/
theorem finds_value_given_last (maximum reduction : Nat) (outside : τ)
    (operations : List (Operation ε τ α)) (key : String) :
    let u := (Usage.start maximum reduction outside : Usage τ α).after operations
    (∀ create : τ → Except ε α × τ,
      let request := u.cache.getOrCreate key create u.outside
      (∀ runs, (u.cache.getOrCreate key (counted create) (u.outside, runs)).2.2 =
        if u.cache.contains key then (u.outside, runs) else ((create u.outside).2, runs + 1)) ∧
      (∀ e, u.cache.contains key = false → (create u.outside).1 = .error e →
        request.1 = .error e ∧ request.2.1 = u.cache) ∧
      (∀ value, u.cache.contains key = false → (create u.outside).1 = .ok value →
        request.1 = .ok value ∧ (request.2.1.get key).1 = some value) ∧
      ∀ value, (u.cache.get key).1 = some value →
        request.1 = .ok value ∧ (request.2.1.get key).1 = some value) ∧
    (∀ other, ((u.perform (.clear : Operation ε τ α)).cache.get other).1 = none) ∧
    ∀ value, (u.cache.get key).1 = some value ↔
      ∃ before operation since, operations = before ++ operation :: since ∧
        let v := (Usage.start maximum reduction outside : Usage τ α).after before
        operation.gives? v.cache v.outside = some (key, value) ∧
        (v.perform operation).Keeps key value since := by
  intro u
  refine ⟨fun create => ⟨u.cache.runs_counted key create u.outside, ?_, ?_, ?_⟩,
    u.cache.get_clear, fun value => ⟨fun hfound => ?_, ?_⟩⟩
  · intro e hmissing hfailed
    rw [getOrCreate_of_error (contains_eq_false_iff.mp hmissing) hfailed]
    exact ⟨rfl, rfl⟩
  · intro value hmissing hmade
    rw [getOrCreate_of_ok (contains_eq_false_iff.mp hmissing) hmade]
    exact ⟨rfl, u.cache.get_insert_self key value⟩
  · intro value hfound
    rw [getOrCreate_of_found create hfound]
    exact ⟨rfl, (u.cache.get_get key key).trans hfound⟩
  · rcases Usage.given_or_keeps hfound with hgiven | hkeeps
    · exact hgiven
    · cases hkeeps.found
  · rintro ⟨before, operation, since, rfl, -, hkeeps⟩
    change ((Usage.after _ (before ++ operation :: since)).cache.get key).1 = some value
    rw [Usage.after_append]
    exact hkeeps.found_after

/-- There is room for one value only, so one is made again for a key that had to give way. -/
example :
    let request (key : String) (value : Nat) : Operation Unit Nat Nat :=
      .getOrCreate key fun made => (.ok value, made + 1)
    let u := (Usage.start 1 1 0).after
      [request "x" 1, request "x" 99, request "y" 2, request "x" 3]
    (u.cache.get "x").1 = some 3 ∧ u.outside = 3 := by
  decide

end FormulaEngine.Cache
