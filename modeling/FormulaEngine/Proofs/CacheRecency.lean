import FormulaEngine.Proofs.CacheEntries
import Mathlib.Data.List.Nodup

/-!
Use of a cache over time. A key is used when it is looked up and found, and when a value is kept
for it. A cache holds the keys that were used last since it was cleared, and when it makes room,
those that were used longest ago give way.
-/
namespace FormulaEngine.Cache

variable {ε τ α : Type}

/-- What can be done with a cache. A value that is missing is made by something outside. -/
inductive Operation (ε τ α : Type)
  | get (key : String)
  | contains (key : String)
  | insert (key : String) (value : α)
  | getOrCreate (key : String) (create : τ → Except ε α × τ)
  | size
  | clear

namespace Operation

/-- The cache and what is outside of it after an operation. -/
def run : Operation ε τ α → Cache α → τ → Cache α × τ
  | get key, c, t => ((c.get key).2, t)
  | insert key value, c, t => (c.insert key value, t)
  | getOrCreate key create, c, t => (c.getOrCreate key create t).2
  | clear, c, t => (c.clear, t)
  | contains _, c, t | size, c, t => (c, t)

/-- The key that an operation uses. Nothing is used where nothing is found, unless a value is kept
then. -/
def uses? : Operation ε τ α → Cache α → τ → Option String
  | get key, c, _ => if c.contains key then some key else none
  | insert key _, _, _ => some key
  | getOrCreate key create, c, t =>
    if c.contains key || (create t).1.isOk then some key else none
  | contains _, _, _ | size, _, _ | clear, _, _ => none

end Operation

/-- A cache in use, and what is outside of it. -/
structure Usage (τ α : Type) where
  cache : Cache α
  outside : τ
  /-- The keys used since the cache was last cleared, the latest first. -/
  used : List String

namespace Usage

def start (maximum reduction : Nat) (outside : τ) : Usage τ α :=
  ⟨.empty maximum reduction, outside, []⟩

def perform (u : Usage τ α) (operation : Operation ε τ α) : Usage τ α where
  cache := (operation.run u.cache u.outside).1
  outside := (operation.run u.cache u.outside).2
  used :=
    match operation with
    | .clear => []
    | _ => (operation.uses? u.cache u.outside).toList ++ u.used

def after (u : Usage τ α) (operations : List (Operation ε τ α)) : Usage τ α :=
  operations.foldl perform u

theorem perform_of_ne_clear {u : Usage τ α} {operation : Operation ε τ α}
    (h : operation ≠ .clear) :
    u.perform operation = ⟨(operation.run u.cache u.outside).1,
      (operation.run u.cache u.outside).2,
      (operation.uses? u.cache u.outside).toList ++ u.used⟩ := by
  cases operation with
  | clear => exact (h rfl).elim
  | _ => rfl

/-- Whether a key was used later than another, which may not have been used at all. -/
def UsedAfter (u : Usage τ α) (key other : String) : Prop :=
  u.used.idxOf key < u.used.idxOf other

end Usage

theorem contains_iff {c : Cache α} {key : String} : c.contains key = true ↔ key ∈ c.keys := by
  rw [contains, List.lookup_isSome_iff, keys, List.mem_map]
  constructor
  · rintro ⟨entry, hentry, hkey⟩
    exact ⟨entry, hentry, (beq_iff_eq.mp hkey).symm⟩
  · rintro ⟨entry, hentry, rfl⟩
    exact ⟨entry, hentry, beq_self_eq_true _⟩

theorem length_keys (c : Cache α) : c.keys.length = c.size := List.length_map _

theorem map_fst_moveToFront (key : String) (value : α) (entries : List (String × α)) :
    (moveToFront key value entries).map Prod.fst =
      key :: (entries.map Prod.fst).filter fun other => other != key := by
  rw [moveToFront, List.map_cons, List.filter_map]
  rfl

theorem keys_insert (c : Cache α) (key : String) (value : α) :
    (c.insert key value).keys =
      key :: (if c.isFullFor key then c.keys.take (c.size - c.evictionCount) else c.keys).filter
        fun other => other != key := by
  rw [insert, keys, map_fst_moveToFront]
  split
  · rw [List.map_take]
    rfl
  · rfl

/-- A new key comes to the front of those for which there is room. -/
theorem keys_insert_of_not_mem {c : Cache α} {key : String} (h : key ∉ c.keys) (value : α) :
    (c.insert key value).keys =
      key :: if c.maximum ≤ c.size then c.keys.take (c.size - c.evictionCount) else c.keys := by
  have hfull : c.isFullFor key = decide (c.maximum ≤ c.size) := by
    rw [isFullFor, Bool.eq_false_iff.mpr (mt contains_iff.mp h)]
    rfl
  simp only [keys_insert, hfull, decide_eq_true_eq]
  refine congrArg _ (List.filter_eq_self.mpr fun other hother => bne_iff_ne.mpr ?_)
  rintro rfl
  split at hother
  · exact h (List.mem_of_mem_take hother)
  · exact h hother

/-- A key that is there moves to the front, and none gives way. -/
theorem keys_insert_of_mem {c : Cache α} {key : String} (h : key ∈ c.keys) (value : α) :
    (c.insert key value).keys = key :: c.keys.filter fun other => other != key := by
  have hfull : c.isFullFor key = false := by rw [isFullFor, contains_iff.mpr h]; rfl
  rw [keys_insert, hfull]
  rfl

/-- The keys that stay beside the one that is kept are a front part of those that were there. -/
theorem exists_keys_insert (c : Cache α) (key : String) (value : α) :
    ∃ n, (c.insert key value).keys =
      key :: (c.keys.take n).filter fun other => other != key := by
  rw [keys_insert]
  split
  · exact ⟨_, rfl⟩
  · exact ⟨c.keys.length, by rw [List.take_length]⟩

theorem size_insert_le {c : Cache α} (hmaximum : 0 < c.maximum) (hreduction : 0 < c.reduction)
    (hsize : c.size ≤ c.maximum) (key : String) (value : α) :
    (c.insert key value).size ≤ c.maximum := by
  rw [← length_keys]
  by_cases hmem : key ∈ c.keys
  · have hfewer : (c.keys.filter fun other => other != key).length < c.keys.length :=
      List.length_filter_lt_length_iff_exists.mpr ⟨key, hmem, by simp⟩
    rw [length_keys] at hfewer
    rw [keys_insert_of_mem hmem, List.length_cons]
    omega
  · rw [keys_insert_of_not_mem hmem, List.length_cons]
    split
    · rw [List.length_take, length_keys, evictionCount]
      omega
    · rw [length_keys]
      omega

/-- No key gives way for one that is there, or while there is room. -/
theorem mem_keys_insert {c : Cache α} {key other : String}
    (hroom : key ∈ c.keys ∨ c.size < c.maximum) (hother : other ∈ c.keys) (value : α) :
    other ∈ (c.insert key value).keys := by
  by_cases hmem : key ∈ c.keys
  · rw [keys_insert_of_mem hmem]
    by_cases heq : other = key
    · exact heq ▸ List.mem_cons_self
    · exact List.mem_cons_of_mem _ (List.mem_filter.mpr ⟨hother, bne_iff_ne.mpr heq⟩)
  · have hsize := hroom.resolve_left hmem
    rw [keys_insert_of_not_mem hmem, if_neg (by omega)]
    exact List.mem_cons_of_mem _ hother

/-- All that an operation can do to a cache: empty it, leave it alone, or keep a value for the key
that it uses. Looking up what is there keeps the value that is found. -/
theorem Operation.run_cases (operation : Operation ε τ α) (c : Cache α) (t : τ) :
    (operation = .clear ∧ (operation.run c t).1 = c.clear) ∨
    (operation ≠ .clear ∧ operation.uses? c t = none ∧ (operation.run c t).1 = c) ∨
    ∃ key value, operation ≠ .clear ∧ operation.uses? c t = some key ∧
      (operation.run c t).1 = c.insert key value := by
  have hfound : ∀ key value, c.entries.lookup key = some value →
      c.contains key = true ∧ (c.get key).2 = c.insert key value := by
    intro key value hlookup
    have hcontains : c.contains key = true := by rw [Cache.contains, hlookup]; rfl
    refine ⟨hcontains, ?_⟩
    rw [Cache.get, hlookup, Cache.insert, isFullFor, hcontains]
    rfl
  have hmissing : ∀ key, c.entries.lookup key = none →
      c.contains key = false ∧ c.get key = (none, c) := by
    intro key hlookup
    rw [Cache.contains, Cache.get, hlookup]
    exact ⟨rfl, rfl⟩
  cases operation with
  | get key =>
    simp only [run, uses?]
    cases hlookup : c.entries.lookup key with
    | some value =>
      obtain ⟨hcontains, hget⟩ := hfound key value hlookup
      exact .inr (.inr ⟨key, value, by simp, if_pos hcontains, hget⟩)
    | none =>
      obtain ⟨hcontains, hget⟩ := hmissing key hlookup
      exact .inr (.inl ⟨by simp, if_neg (Bool.eq_false_iff.mp hcontains), by rw [hget]⟩)
  | insert key value => exact .inr (.inr ⟨key, value, by simp, rfl, rfl⟩)
  | getOrCreate key create =>
    simp only [run, uses?, Cache.getOrCreate]
    cases hlookup : c.entries.lookup key with
    | some value =>
      obtain ⟨hcontains, hget⟩ := hfound key value hlookup
      have hresult : c.get key = (some value, c.insert key value) :=
        Prod.ext (by rw [Cache.get, hlookup]) hget
      rw [hcontains, hresult]
      exact .inr (.inr ⟨key, value, by simp, rfl, rfl⟩)
    | none =>
      obtain ⟨hcontains, hget⟩ := hmissing key hlookup
      rw [hcontains, hget]
      rcases create t with ⟨e | value, t'⟩
      · exact .inr (.inl ⟨by simp, rfl, rfl⟩)
      · exact .inr (.inr ⟨key, value, by simp, rfl, rfl⟩)
  | contains | size => exact .inr (.inl ⟨by simp, rfl, rfl⟩)
  | clear => exact .inl ⟨rfl, rfl⟩

/-- What holds of a cache in use at any time. -/
structure Usage.LatestFirst (maximum reduction : Nat) (u : Usage τ α) : Prop where
  maximum_eq : u.cache.maximum = max maximum 1
  reduction_eq : u.cache.reduction = max reduction 1
  size_le : u.cache.size ≤ max maximum 1
  ordered : u.cache.keys.Pairwise u.UsedAfter
  used : ∀ key ∈ u.cache.keys, key ∈ u.used
  latest : ∀ key ∈ u.cache.keys, ∀ other, u.UsedAfter other key → other ∈ u.cache.keys

namespace Usage.LatestFirst

variable {maximum reduction : Nat} {u : Usage τ α}

theorem nodup (h : u.LatestFirst maximum reduction) : u.cache.keys.Nodup := by
  apply h.ordered.imp
  rintro key _ hafter rfl
  exact Nat.lt_irrefl _ hafter

/-- Of the keys that are there, those used last are a front part. -/
theorem mem_take (h : u.LatestFirst maximum reduction) {n : Nat} {key other : String}
    (hkey : key ∈ u.cache.keys.take n) (hafter : u.UsedAfter other key) :
    other ∈ u.cache.keys.take n := by
  have hordered := h.ordered
  have hother := h.latest key (List.mem_of_mem_take hkey) other hafter
  rw [← List.take_append_drop n u.cache.keys] at hordered hother
  rcases List.mem_append.mp hother with hfront | hback
  · exact hfront
  · have hbefore : u.UsedAfter key other := (List.pairwise_append.mp hordered).2.2 key hkey _ hback
    exact (Nat.lt_asymm hafter hbefore).elim

theorem start (maximum reduction : Nat) (outside : τ) :
    (Usage.start maximum reduction outside : Usage τ α).LatestFirst maximum reduction :=
  ⟨rfl, rfl, Nat.zero_le _, .nil, nofun, nofun⟩

private theorem idxOf_use (key other : String) (used : List String) :
    (key :: used).idxOf other = if other = key then 0 else used.idxOf other + 1 := by
  by_cases heq : other = key
  · rw [heq, List.idxOf_cons_self, if_pos rfl]
  · rw [List.idxOf_cons_ne _ (Ne.symm heq), if_neg heq]

/-- Keeping a value makes its key the latest one. -/
theorem insert (h : u.LatestFirst maximum reduction) (key : String) (value : α) (outside : τ) :
    LatestFirst maximum reduction ⟨u.cache.insert key value, outside, key :: u.used⟩ := by
  obtain ⟨n, hkeys⟩ := u.cache.exists_keys_insert key value
  have hkept : ∀ other ∈ (u.cache.keys.take n).filter (fun other => other != key),
      other ∈ u.cache.keys.take n ∧ other ≠ key := by
    intro other hother
    rwa [List.mem_filter, bne_iff_ne] at hother
  constructor
  · exact h.maximum_eq
  · exact h.reduction_eq
  · have hmaximum := h.maximum_eq
    have hreduction := h.reduction_eq
    have hsize := h.size_le
    rw [← hmaximum]
    exact size_insert_le (by omega) (by omega) (by omega) key value
  · simp only [hkeys, List.pairwise_cons]
    constructor
    · intro other hother
      simp only [UsedAfter, idxOf_use, if_true, if_neg (hkept other hother).2]
      omega
    · have hordered := (h.ordered.sublist (List.take_sublist n _)).filter fun other => other != key
      apply hordered.imp_of_mem
      intro other older hother holder hafter
      simp only [UsedAfter, idxOf_use, if_neg (hkept other hother).2, if_neg (hkept older holder).2]
      exact Nat.succ_lt_succ hafter
  · intro other hother
    simp only [hkeys, List.mem_cons] at hother ⊢
    exact hother.imp_right fun hmem => h.used other (List.mem_of_mem_take (hkept other hmem).1)
  · intro other hother later hafter
    simp only [UsedAfter, idxOf_use] at hafter
    simp only [hkeys, List.mem_cons] at hother ⊢
    by_cases hlater : later = key
    · exact Or.inl hlater
    · right
      rcases hother with heq | hmem
      · simp [heq] at hafter
      · obtain ⟨htake, hne⟩ := hkept other hmem
        rw [if_neg hlater, if_neg hne] at hafter
        have hlatest := h.mem_take htake (Nat.lt_of_succ_lt_succ hafter)
        exact List.mem_filter.mpr ⟨hlatest, bne_iff_ne.mpr hlater⟩

/-- A new key that finds the cache full takes the place of those used longest ago. -/
theorem insert_full (h : u.LatestFirst maximum reduction) {key : String}
    (hkey : key ∉ u.cache.keys) (hfull : u.cache.size = max maximum 1) (value : α) :
    ∃ kept evicted, u.cache.keys = kept ++ evicted ∧
      evicted.length = min (max reduction 1) (max maximum 1) ∧
      (u.cache.insert key value).keys = key :: kept ∧
      ∀ other ∈ kept, ∀ gone ∈ evicted, u.UsedAfter other gone := by
  have hmaximum := h.maximum_eq
  have hcount : u.cache.evictionCount = min (max reduction 1) (max maximum 1) := by
    rw [evictionCount, h.reduction_eq, hfull]
  have hsplit := List.take_append_drop (u.cache.size - u.cache.evictionCount) u.cache.keys
  refine ⟨_, _, hsplit.symm, ?_, ?_, ?_⟩
  · rw [List.length_drop, length_keys, hcount]
    omega
  · rw [keys_insert_of_not_mem hkey, if_pos (by omega)]
  · have hordered := h.ordered
    rw [← hsplit] at hordered
    exact (List.pairwise_append.mp hordered).2.2

theorem perform (h : u.LatestFirst maximum reduction) (operation : Operation ε τ α) :
    (u.perform operation).LatestFirst maximum reduction := by
  rcases operation.run_cases u.cache u.outside with
    ⟨rfl, -⟩ | ⟨hclear, huses, hrun⟩ | ⟨key, value, hclear, huses, hrun⟩
  · exact ⟨h.maximum_eq, h.reduction_eq, Nat.zero_le _, .nil, nofun, nofun⟩
  · rw [perform_of_ne_clear hclear, huses, hrun]
    exact ⟨h.maximum_eq, h.reduction_eq, h.size_le, h.ordered, h.used, h.latest⟩
  · rw [perform_of_ne_clear hclear, huses, hrun]
    exact h.insert key value _

theorem after (h : u.LatestFirst maximum reduction) (operations : List (Operation ε τ α)) :
    (u.after operations).LatestFirst maximum reduction := by
  induction operations generalizing u with
  | nil => exact h
  | cons operation operations ih => exact ih (h.perform operation)

end Usage.LatestFirst

/-- Whatever is done with a cache, it holds no more keys than it may, and these are the ones used
last since it was cleared. If a new key finds it full, those used longest ago give way, as many as
give way at once; nothing else but clearing loses a key, and what uses no key changes nothing. -/
theorem holds_latest_used (maximum reduction : Nat) (outside : τ)
    (operations : List (Operation ε τ α)) :
    let u := (Usage.start maximum reduction outside : Usage τ α).after operations
    u.cache.size ≤ max maximum 1 ∧ u.cache.keys.Nodup ∧
    (∀ key ∈ u.cache.keys,
      key ∈ u.used ∧ ∀ other, u.UsedAfter other key → other ∈ u.cache.keys) ∧
    ∀ operation : Operation ε τ α, operation ≠ .clear →
      let next := u.perform operation
      (operation.uses? u.cache u.outside = none → next.cache = u.cache) ∧
      ∀ key, operation.uses? u.cache u.outside = some key →
        (key ∈ u.cache.keys ∨ u.cache.size < max maximum 1 →
          ∀ other ∈ u.cache.keys, other ∈ next.cache.keys) ∧
        (key ∉ u.cache.keys → u.cache.size = max maximum 1 →
          ∃ kept evicted, u.cache.keys = kept ++ evicted ∧
            evicted.length = min (max reduction 1) (max maximum 1) ∧
            next.cache.keys = key :: kept ∧
            ∀ other ∈ kept, ∀ gone ∈ evicted, u.UsedAfter other gone) := by
  intro u
  have h : u.LatestFirst maximum reduction := (Usage.LatestFirst.start _ _ _).after operations
  refine ⟨h.size_le, h.nodup, fun key hkey => ⟨h.used key hkey, h.latest key hkey⟩,
    fun operation hclear => ?_⟩
  rw [Usage.perform_of_ne_clear hclear]
  dsimp only
  rcases operation.run_cases u.cache u.outside with
    ⟨rfl, -⟩ | ⟨-, huses, hrun⟩ | ⟨key, value, -, huses, hrun⟩
  · exact (hclear rfl).elim
  · rw [huses, hrun]
    exact ⟨fun _ => rfl, nofun⟩
  · rw [huses, hrun]
    refine ⟨nofun, fun other hother => ?_⟩
    obtain rfl : key = other := Option.some.inj hother
    constructor
    · intro hroom other hmem
      rw [← h.maximum_eq] at hroom
      exact mem_keys_insert hroom hmem value
    · exact fun hkey hfull => h.insert_full hkey hfull value

/-- The key that was looked up stays; the two used longest ago give way at once. -/
example :
    let operations : List (Operation Unit Unit Nat) :=
      [.insert "a" 1, .insert "b" 2, .insert "c" 3, .get "a", .contains "b",
        .getOrCreate "d" fun t => (.ok 4, t)]
    ((Usage.start 3 2 ()).after operations).cache.keys = ["d", "a"] := by
  decide

end FormulaEngine.Cache
