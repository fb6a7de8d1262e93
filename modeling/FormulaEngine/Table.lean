import FormulaEngine.Registration
import FormulaEngine.Text.Name

/-!
Tables of functions and of constants. An entry is found under every spelling of its
name that has the same key; an entry that may not be overwritten stays for good.
-/
namespace FormulaEngine

structure Table (ε : Type) where
  caseSensitive : Bool
  /-- The entries with their keys, in the order in which the keys were first registered. -/
  rows : List (String × ε)

namespace Table

variable {ε : Type}

def empty (caseSensitive : Bool) : Table ε := ⟨caseSensitive, []⟩

def key (t : Table ε) (name : String) : String := Text.nameKey t.caseSensitive name

def get? (t : Table ε) (name : String) : Option ε := t.rows.lookup (t.key name)

def contains (t : Table ε) (name : String) : Bool := (t.get? name).isSome

def size (t : Table ε) : Nat := t.rows.length

def isEmpty (t : Table ε) : Bool := t.rows.isEmpty

/-- Writes an entry under a key, in the place of the entry that was there. -/
def putRow (key : String) (entry : ε) : List (String × ε) → List (String × ε)
  | [] => [(key, entry)]
  | row :: rows => if row.1 == key then (key, entry) :: rows else row :: putRow key entry rows

variable [Entry ε]

def put (t : Table ε) (entry : ε) : Table ε :=
  { t with rows := putRow (t.key (Entry.name entry)) entry t.rows }

/-- Whether an entry may be registered, and then whether it takes the place of another. -/
def admission (t : Table ε) (entry : ε) : Except RegistrationError Bool :=
  if !Text.isName (Entry.name entry) then .error (.invalidName (Entry.name entry))
  else
    match t.get? (Entry.name entry) with
    | none => .ok false
    | some existing =>
      if !Entry.overwritable existing then .error (.notOverwritable (Entry.name entry))
      else
        match Entry.replacementError? existing entry with
        | some e => .error e
        | none => .ok true

/-- Registers an entry, and tells whether it took the place of another. -/
def register (t : Table ε) (entry : ε) : Except RegistrationError (Bool × Table ε) :=
  match t.admission entry with
  | .error e => .error e
  | .ok replaced => .ok (replaced, t.put entry)

/-- The entries in ascending order of their names. -/
def entries (t : Table ε) : List ε :=
  (t.rows.map Prod.snd).mergeSort fun a b => Entry.name a ≤ Entry.name b

def names (t : Table ε) : List String := t.entries.map Entry.name

end Table

end FormulaEngine
