import FormulaEngine.Arithmetic.Aggregate
import FormulaEngine.Arithmetic.Rounding
import FormulaEngine.Operator.Value
import FormulaEngine.Table

/-!
The functions and constants that come with the library. None of them can be
overwritten, and all functions but the random one are idempotent.
-/
namespace FormulaEngine.Builtin

open Arithmetic

variable {σ : Type}

/-- The argument at a position; a call that fits the arity of its function has it. -/
def argument (arguments : List Float) (position : Nat) : Float :=
  arguments.getD position Binary64.nan

def unary (f : Float → Float) (arguments : List Float) : Float := f (argument arguments 0)

def cosecant (x : Float) : Float := 1 / x.sin

def secant (x : Float) : Float := 1 / x.cos

def cotangent (x : Float) : Float := 1 / x.tan

def arcCotangent (x : Float) : Float := (1 / x).atan

def logarithm (arguments : List Float) : Float :=
  (argument arguments 0).log / (argument arguments 1).log

def choose (condition : Bool) (arguments : List Float) (position : Nat) : Float :=
  argument arguments (if condition then position else position + 1)

def ifNonzero (a : List Float) : Float := choose (isTrue (argument a 0)) a 1

def ifLess (a : List Float) : Float := choose (argument a 0 < argument a 1) a 2

def ifMore (a : List Float) : Float := choose (argument a 1 < argument a 0) a 2

def ifEqual (a : List Float) : Float := choose (nearlyEqual (argument a 0) (argument a 1)) a 2

/-- The functions with a fixed number of arguments. -/
def fixed : List (String × Nat × (List Float → Float)) :=
  [("sin", 1, unary Float.sin), ("cos", 1, unary Float.cos), ("csc", 1, unary cosecant),
    ("sec", 1, unary secant), ("asin", 1, unary Float.asin), ("acos", 1, unary Float.acos),
    ("tan", 1, unary Float.tan), ("cot", 1, unary cotangent), ("atan", 1, unary Float.atan),
    ("acot", 1, unary arcCotangent), ("loge", 1, unary Float.log),
    ("log10", 1, unary Float.log10), ("logn", 2, logarithm), ("sqrt", 1, unary Float.sqrt),
    ("abs", 1, unary Float.abs), ("if", 3, ifNonzero), ("ifless", 4, ifLess),
    ("ifmore", 4, ifMore), ("ifequal", 4, ifEqual), ("ceiling", 1, unary Rounding.up.apply),
    ("floor", 1, unary Rounding.down.apply), ("truncate", 1, unary Rounding.towardZero.apply),
    ("round", 1, unary Rounding.halfEven.apply)]

/-- The functions of any number of arguments. -/
def variadic : List (String × (List Float → Float)) :=
  [("max", maximum), ("min", minimum), ("avg", average), ("median", median), ("sum", sum)]

def random : Function σ := ⟨⟨"random", some 0, false, false⟩, .random⟩

/-- All functions, in the order in which they are registered. -/
def functions : List (Function σ) :=
  fixed.map (fun (name, arity, compute) => ⟨⟨name, some arity, true, false⟩, .pure compute⟩) ++
    variadic.map (fun (name, compute) => ⟨⟨name, none, true, false⟩, .pure compute⟩) ++ [random]

def e : Float := Float.ofBits 0x4005bf0a8b145769

def pi : Float := Float.ofBits 0x400921fb54442d18

def constants : List Constant := [⟨"e", e, false⟩, ⟨"pi", pi, false⟩]

end FormulaEngine.Builtin
