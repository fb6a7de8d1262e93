import FormulaEngine.Event

/-!
Tables that several holders share. A clone and a read-only view see the table of the
handle they were made from; a snapshot has a table of its own, which starts with the
same entries.
-/
namespace FormulaEngine

structure Handle where
  /-- The number of its table. -/
  table : Nat
  readOnly : Bool
  deriving DecidableEq, Repr

/-- How a handle is made from another. -/
inductive Derivation
  | clone
  | readOnly
  | snapshot
  deriving DecidableEq, Repr

/-- Tables and the handles on them, each in the order in which they were made. -/
structure Shelf (ε : Type) where
  tables : Array (Table ε)
  handles : Array Handle

namespace Shelf

variable {ε : Type}

def empty : Shelf ε := ⟨#[], #[]⟩

/-- Adds a table with a handle of its own, the last one afterwards. -/
def addTable (s : Shelf ε) (table : Table ε) : Shelf ε :=
  ⟨s.tables.push table, s.handles.push ⟨s.tables.size, false⟩⟩

/-- One empty table with one handle. -/
def start (caseSensitive : Bool) : Shelf ε := empty.addTable (.empty caseSensitive)

def table? (s : Shelf ε) (handle : Nat) : Option (Table ε) := do
  s.tables[(← s.handles[handle]?).table]?

/-- Makes a new handle, the last one afterwards. A snapshot of a read-only view could be written
to, so there is none. -/
def derive? (s : Shelf ε) (handle : Nat) (how : Derivation) : Option (Shelf ε) := do
  let h ← s.handles[handle]?
  match how with
  | .clone => pure { s with handles := s.handles.push h }
  | .readOnly => pure { s with handles := s.handles.push { h with readOnly := true } }
  | .snapshot =>
    if h.readOnly then none else pure (s.addTable (← s.tables[h.table]?))

/-- Writes a table back through a handle that allows it. -/
def write? (s : Shelf ε) (handle : Nat) (table : Table ε) : Option (Shelf ε) := do
  let h ← s.handles[handle]?
  if h.readOnly then none else pure { s with tables := s.tables.setIfInBounds h.table table }

variable [Entry ε]

/-- Registers entries through a handle, in order up to the first that is refused. -/
def registerAll? (s : Shelf ε) (handle : Nat) (entries : List ε) :
    Option (List Event × Shelf ε × Except RegistrationError Unit) := do
  let (events, table, result) := (← s.table? handle).registerAll entries
  pure (events, ← s.write? handle table, result)

end Shelf

end FormulaEngine
