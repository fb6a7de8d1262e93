/-!
Values kept by key, up to a maximum number. When a new key finds the cache full, a
batch of the least recently used entries gives way to it. Looking a value up counts
as a use; asking whether there is one does not.
-/
namespace FormulaEngine

structure Cache (α : Type) where
  maximum : Nat
  /-- The number of entries that give way at once. -/
  reduction : Nat
  /-- The entries, the most recently used first. -/
  entries : List (String × α)

namespace Cache

variable {α : Type}

/-- An empty cache; sizes of zero count as one. -/
def empty (maximum reduction : Nat) : Cache α := ⟨max maximum 1, max reduction 1, []⟩

def size (c : Cache α) : Nat := c.entries.length

def isEmpty (c : Cache α) : Bool := c.entries.isEmpty

def keys (c : Cache α) : List String := c.entries.map Prod.fst

def contains (c : Cache α) (key : String) : Bool := (c.entries.lookup key).isSome

/-- The entries with one for `key` in front. -/
def moveToFront (key : String) (value : α) (entries : List (String × α)) : List (String × α) :=
  (key, value) :: entries.filter fun entry => entry.1 != key

/-- Looks a key up and makes its entry the most recently used. -/
def get (c : Cache α) (key : String) : Option α × Cache α :=
  match c.entries.lookup key with
  | some value => (some value, { c with entries := moveToFront key value c.entries })
  | none => (none, c)

/-- Whether an entry for `key` needs room to be made. -/
def isFullFor (c : Cache α) (key : String) : Bool :=
  !c.contains key && c.maximum ≤ c.size

/-- The number of entries that give way when a key finds the cache full. -/
def evictionCount (c : Cache α) : Nat := min c.reduction c.size

def insert (c : Cache α) (key : String) (value : α) : Cache α :=
  let kept := if c.isFullFor key then c.entries.take (c.size - c.evictionCount) else c.entries
  { c with entries := moveToFront key value kept }

/-- Looks a key up; without an entry, `create` makes the value and the cache keeps it. If `create`
fails, the cache stays as it was. -/
def getOrCreate {ε τ : Type} (c : Cache α) (key : String) (create : τ → Except ε α × τ) (t : τ) :
    Except ε α × Cache α × τ :=
  match c.get key with
  | (some value, touched) => (.ok value, touched, t)
  | (none, _) =>
    match create t with
    | (.ok value, t) => (.ok value, c.insert key value, t)
    | (.error e, t) => (.error e, c, t)

def clear (c : Cache α) : Cache α := { c with entries := [] }

end Cache

end FormulaEngine
