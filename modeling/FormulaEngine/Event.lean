import FormulaEngine.Cache
import FormulaEngine.Folding
import FormulaEngine.Options
import FormulaEngine.Tree.Printer

/-!
What tables, caches and engines report while they work, and the records of it.
-/
namespace FormulaEngine

inductive Level
  | warn
  | debug
  | trace
  deriving DecidableEq, Repr

def Level.name : Level → String
  | warn => "WARN"
  | debug => "DEBUG"
  | trace => "TRACE"

inductive Event
  | protectedName (name : String)
  | rejected (name : String) (error : RegistrationError)
  | registered (name : String) (overwritable replaced : Bool)
  | folded (node : Tree) (value : Float)
  | zeroProduct
  | cacheMiss (key : String)
  | evicted (count : Nat)
  | cleared (count : Nat)
  | built (formula : String) (tree : Tree)
  | ready (options : Options) (functions constants : Nat)

namespace Event

def level : Event → Level
  | protectedName _ | rejected _ _ => .warn
  | registered _ _ _ | folded _ _ | zeroProduct => .trace
  | cacheMiss _ | evicted _ | cleared _ | built _ _ | ready _ _ _ => .debug

def text : Event → String
  | protectedName name => "refusing to overwrite protected name " ++ Text.quotedName name
  | rejected name error =>
    "rejected registration of " ++ Text.quotedName name ++ ": " ++ error.message
  | registered name overwritable replaced =>
    "registered " ++ Text.quotedName name ++
      s!" (overwritable: {overwritable}, replaced: {replaced})"
  | folded node value =>
    "folded `" ++ node.text ++ "` to " ++ String.ofList (Decimal.Notation.literal.text value)
  | zeroProduct => "multiplication by zero folded to 0.0"
  | cacheMiss key => "formula cache miss for `" ++ key ++ "`"
  | evicted count => s!"formula cache full, evicted {count} entries"
  | cleared count => s!"clearing {count} cached formulas"
  | built formula tree => "built `" ++ formula ++ "` as `" ++ tree.text ++ "`"
  | ready options functions constants =>
    s!"calculation engine ready: mode={options.executionMode.name} " ++
      s!"cache={options.cacheEnabled} optimizer={options.optimizerEnabled} " ++
      s!"case_sensitive={options.caseSensitive} functions={functions} constants={constants}"

def ofReplacement : Replacement → Event
  | .folded node value => folded node value
  | .zeroProduct => zeroProduct

end Event

namespace Table

variable {ε : Type} [Entry ε]

/-- The report of registering an entry. A name that is none is not reported. -/
def registrationEvents (t : Table ε) (entry : ε) : List Event :=
  match t.admission entry with
  | .ok replaced => [.registered (Entry.name entry) (Entry.overwritable entry) replaced]
  | .error (.invalidName _) => []
  | .error (.notOverwritable name) => [.protectedName name]
  | .error e => [.rejected (Entry.name entry) e]

/-- Registers entries in order up to the first that is refused; those before it stay. -/
def registerAll (t : Table ε) : List ε → List Event × Table ε × Except RegistrationError Unit
  | [] => ([], t, .ok ())
  | entry :: rest =>
    match t.register entry with
    | .error e => (t.registrationEvents entry, t, .error e)
    | .ok (_, next) =>
      let (events, final, result) := next.registerAll rest
      (t.registrationEvents entry ++ events, final, result)

end Table

namespace Cache

variable {α : Type}

def insertionEvents (c : Cache α) (key : String) : List Event :=
  if c.isFullFor key then [.evicted c.evictionCount] else []

def clearingEvents (c : Cache α) : List Event :=
  if c.isEmpty then [] else [.cleared c.size]

end Cache

end FormulaEngine
