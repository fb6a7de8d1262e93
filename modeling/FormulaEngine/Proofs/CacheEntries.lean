import FormulaEngine.Cache
import Mathlib.Data.List.Basic
import Mathlib.Data.List.Forall2

/-!
What a cache holds. Looking a key up and making room lose entries at most; only a value
that was made for its key is added. Which keys a cache holds, and in which order, does not
depend on the values.
-/
namespace FormulaEngine.Cache

variable {α : Type} {c : Cache α} {key : String} {entry : String × α}

theorem mem_of_lookup {entries : List (String × α)} {value : α}
    (h : entries.lookup key = some value) : (key, value) ∈ entries := by
  obtain ⟨before, after, rfl, -⟩ := List.lookup_eq_some_iff.mp h
  exact List.mem_append_right _ List.mem_cons_self

theorem mem_moveToFront {value : α} {entries : List (String × α)}
    (h : entry ∈ moveToFront key value entries) : entry = (key, value) ∨ entry ∈ entries :=
  (List.mem_cons.mp h).imp_right List.mem_of_mem_filter

/-- What is found was there, and everything that is there afterwards. -/
theorem get_some {value : α} {touched : Cache α} (h : c.get key = (some value, touched)) :
    (key, value) ∈ c.entries ∧ ∀ entry ∈ touched.entries, entry ∈ c.entries := by
  unfold get at h
  split at h
  · rename_i hlookup
    cases h
    have hmem := mem_of_lookup hlookup
    refine ⟨hmem, fun entry hentry => ?_⟩
    rcases mem_moveToFront hentry with rfl | hentry
    · exact hmem
    · exact hentry
  · cases h

theorem get_none {touched : Cache α} (h : c.get key = (none, touched)) :
    c.entries.lookup key = none ∧ touched = c := by
  unfold get at h
  split at h
  · cases h
  · rename_i hlookup
    cases h
    exact ⟨hlookup, rfl⟩

theorem mem_insert {value : α} (h : entry ∈ (c.insert key value).entries) :
    entry = (key, value) ∨ entry ∈ c.entries := by
  refine (mem_moveToFront h).imp_right fun hkept => ?_
  split at hkept
  · exact List.mem_of_mem_take hkept
  · exact hkept

variable {ε τ : Type} {create : τ → Except ε α × τ} {t : τ}

/-- A value comes from the cache, or it is made and kept. -/
theorem getOrCreate_cases (c : Cache α) (key : String) (create : τ → Except ε α × τ) (t : τ) :
    (∃ value touched, c.getOrCreate key create t = (.ok value, touched, t) ∧
      (key, value) ∈ c.entries ∧ ∀ entry ∈ touched.entries, entry ∈ c.entries) ∨
    (∃ value t', create t = (.ok value, t') ∧
      c.getOrCreate key create t = (.ok value, c.insert key value, t')) ∨
    ∃ e t', create t = (.error e, t') ∧ c.getOrCreate key create t = (.error e, c, t') := by
  unfold getOrCreate
  rcases hget : c.get key with ⟨_ | value, touched⟩
  · rcases hcreate : create t with ⟨e | value, t'⟩
    · exact .inr (.inr ⟨e, t', rfl, rfl⟩)
    · exact .inr (.inl ⟨value, t', rfl, rfl⟩)
  · exact .inl ⟨value, touched, rfl, get_some hget⟩

section Values

variable {R : α → α → Prop} {c' : Cache α}

/-- Whether two caches have the same keys in the same order, with related values. -/
structure Alike (R : α → α → Prop) (c c' : Cache α) : Prop where
  maximum : c.maximum = c'.maximum
  reduction : c.reduction = c'.reduction
  entries : List.Forall₂ (fun entry entry' => entry.1 = entry'.1 ∧ R entry.2 entry'.2)
    c.entries c'.entries

theorem rel_lookup {entries entries' : List (String × α)}
    (h : List.Forall₂ (fun entry entry' => entry.1 = entry'.1 ∧ R entry.2 entry'.2)
      entries entries') (key : String) :
    Option.Rel R (entries.lookup key) (entries'.lookup key) := by
  induction h with
  | nil => exact .none
  | @cons entry entry' rest rest' hentry _ ih =>
    obtain ⟨found, value⟩ := entry
    obtain ⟨found', value'⟩ := entry'
    obtain ⟨rfl : found = found', hvalue⟩ := hentry
    rw [List.lookup_cons, List.lookup_cons]
    cases key == found with
    | true => exact .some hvalue
    | false => exact ih

theorem rel_moveToFront {entries entries' : List (String × α)}
    (h : List.Forall₂ (fun entry entry' => entry.1 = entry'.1 ∧ R entry.2 entry'.2)
      entries entries') {value value' : α} (hvalue : R value value') (key : String) :
    List.Forall₂ (fun entry entry' => entry.1 = entry'.1 ∧ R entry.2 entry'.2)
      (moveToFront key value entries) (moveToFront key value' entries') := by
  refine .cons ⟨rfl, hvalue⟩ (List.rel_filter (fun entry entry' hentry => ?_) h)
  simp only [hentry.1]

theorem Alike.contains (h : c.Alike R c') (key : String) :
    c.contains key = c'.contains key := by
  have hlookup := rel_lookup h.entries key
  unfold Cache.contains
  generalize c.entries.lookup key = found, c'.entries.lookup key = found' at hlookup
  cases hlookup <;> rfl

theorem Alike.get (h : c.Alike R c') (key : String) :
    Option.Rel R (c.get key).1 (c'.get key).1 ∧ (c.get key).2.Alike R (c'.get key).2 := by
  have hlookup := rel_lookup h.entries key
  unfold Cache.get
  generalize c.entries.lookup key = found, c'.entries.lookup key = found' at hlookup
  cases hlookup with
  | none => exact ⟨.none, h⟩
  | some hvalue =>
    exact ⟨.some hvalue, h.maximum, h.reduction, rel_moveToFront h.entries hvalue key⟩

theorem Alike.insert (h : c.Alike R c') {value value' : α} (hvalue : R value value')
    (key : String) : (c.insert key value).Alike R (c'.insert key value') := by
  have hsize : c.size = c'.size := h.entries.length_eq
  have hfull : c.isFullFor key = c'.isFullFor key := by
    rw [isFullFor, isFullFor, h.contains, h.maximum, hsize]
  have hcount : c.evictionCount = c'.evictionCount := by
    rw [evictionCount, evictionCount, h.reduction, hsize]
  refine ⟨h.maximum, h.reduction, rel_moveToFront ?_ hvalue key⟩
  rw [hfull, hcount, hsize]
  split
  · exact List.forall₂_take _ h.entries
  · exact h.entries

theorem Alike.clear (h : c.Alike R c') : c.clear.Alike R c'.clear := ⟨h.maximum, h.reduction, .nil⟩

theorem Alike.mono {S : α → α → Prop} (hRS : ∀ value value', R value value' → S value value')
    (h : c.Alike R c') : c.Alike S c' :=
  ⟨h.maximum, h.reduction, h.entries.imp fun _ _ hentry => ⟨hentry.1, hRS _ _ hentry.2⟩⟩

end Values

end FormulaEngine.Cache
