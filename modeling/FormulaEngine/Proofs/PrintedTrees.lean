import FormulaEngine.Proofs.AbsoluteValue
import FormulaEngine.Proofs.Registrations
import FormulaEngine.Proofs.Spellings
import FormulaEngine.Proofs.TreePasses
import FormulaEngine.Tree.Printer

/-!
Printed trees. The text of a tree is read as the same tree, but for the literals that
have no token of their own: a sign is read as a negation, and a number that is not
finite as the quotient that stands for it.
-/
namespace FormulaEngine

open Decimal

namespace Tree

/-- What the text of an integer is read as. -/
def rereadInteger (value : Int64) : Tree :=
  if 0 ≤ value.toInt then .integer value
  else if value = Int64.minValue then .negate (.float 9223372036854775808)
  else .negate (.integer (-value))

/-- What the text of a double is read as. -/
def rereadFloat (x : Float) : Tree :=
  if x.isNaN then .binary .divide (.float 0.0) (.float 0.0)
  else if x.isInf then
    let quotient := .binary .divide (.float 1.0) (.float 0.0)
    if 0 < x then quotient else .negate quotient
  else if Binary64.isNegative x then .negate (.float x.abs)
  else .float x

mutual

/-- What the text of a tree is read as: the tree with other literals. -/
def reread : Tree → Tree
  | integer value => rereadInteger value
  | float value => rereadFloat value
  | var name => .var name
  | negate argument => .negate argument.reread
  | binary op left right => .binary op left.reread right.reread
  | call name arguments idempotent => .call name (rereadAll arguments) idempotent

def rereadAll : List Tree → List Tree
  | [] => []
  | t :: ts => t.reread :: rereadAll ts

end

theorem rereadAll_eq_map (ts : List Tree) : rereadAll ts = ts.map reread := by
  induction ts with
  | nil => rfl
  | cons t ts ih => rw [rereadAll, ih, List.map_cons]

end Tree

namespace Spells

variable {v : Vocabulary}

theorem rereadInteger (value : Int64) :
    Spells v (Notation.integerText value.toInt) (Tree.rereadInteger value) := by
  have hlow := value.le_toInt
  have hhigh := value.toInt_lt
  have hnatural := @natural v value.toInt.natAbs
  unfold Notation.integerText Tree.rereadInteger
  by_cases hsign : 0 ≤ value.toInt
  · have hsmall : value.toInt.natAbs < 2 ^ 63 := by omega
    have hvalue : Int64.ofNat value.toInt.natAbs = value := by
      apply Int64.toInt_inj.mp
      rw [Int64.toInt_ofNat_of_lt hsmall]
      omega
    rw [if_pos hsmall, hvalue] at hnatural
    rw [if_neg (by omega), if_pos hsign]
    exact hnatural
  · rw [if_pos (by omega), if_neg hsign]
    by_cases hmin : value = Int64.minValue
    · have hvalue : (Numeral.ofNat (2 ^ 63)).floatValue = 9223372036854775808 := by decide +kernel
      have habs : value.toInt.natAbs = 2 ^ 63 := by rw [hmin, Int64.toInt_minValue]; rfl
      rw [habs, if_neg (by decide), hvalue] at hnatural
      rw [habs, if_pos hmin]
      exact hnatural.minus
    · have hne : value.toInt ≠ Int64.minValue.toInt := fun heq => hmin (Int64.toInt_inj.mp heq)
      rw [Int64.toInt_minValue] at hne
      have hsmall : value.toInt.natAbs < 2 ^ 63 := by omega
      have hvalue : Int64.ofNat value.toInt.natAbs = -value := by
        apply Int64.toInt_inj.mp
        rw [Int64.toInt_ofNat_of_lt hsmall, Int64.toInt_neg,
          Int.bmod_eq_of_le (by omega) (by omega)]
        omega
      rw [if_pos hsmall, hvalue] at hnatural
      rw [if_neg hmin]
      exact hnatural.minus

/-- A quotient by zero, as it stands for a number that is not finite. -/
theorem quotient {x : Float} (hfinite : x.isNaN = false ∧ x.isInf = false)
    (hsign : Binary64.isNegative x = false) (h : Notation.ReadsBack x) :
    Spells v ('(' :: Notation.literal.text x ++ " / 0.0)".toList)
      (.binary .divide (.float x) (.float 0.0)) := by
  have hzero : Spells v (Notation.literal.text 0.0) (.float 0.0) :=
    unsigned (by decide +kernel) (by decide +kernel) (by decide +kernel) (by decide +kernel)
  have htext : Notation.literal.text 0.0 = "0.0".toList := by decide +kernel
  have hspelling : BinaryOperator.divide.spelling.toList = ['/'] := rfl
  have hquotient := (unsigned hfinite.1 hfinite.2 hsign h).binary .divide hzero
  rw [htext, hspelling] at hquotient
  simpa using hquotient

theorem rereadFloat {x : Float}
    (h : x.isNaN = false → x.isInf = false → Notation.ReadsBack x.abs) :
    Spells v (floatText x) (Tree.rereadFloat x) := by
  unfold floatText Tree.rereadFloat
  by_cases hnan : x.isNaN = true
  · rw [if_pos hnan, if_pos hnan]
    exact @quotient v 0.0 (by decide +kernel) (by decide +kernel) (by decide +kernel)
  rw [if_neg hnan, if_neg hnan]
  by_cases hinf : x.isInf = true
  · have hinfinity : Spells v "(1.0 / 0.0)".toList (.binary .divide (.float 1.0) (.float 0.0)) :=
      @quotient v 1.0 (by decide +kernel) (by decide +kernel) (by decide +kernel)
    rw [if_pos hinf, if_pos hinf]
    by_cases hpositive : 0 < x
    · rw [if_pos hpositive, if_pos hpositive]
      exact hinfinity
    · rw [if_neg hpositive, if_neg hpositive]
      exact hinfinity.minus
  rw [if_neg hinf, if_neg hinf]
  rw [Bool.not_eq_true] at hnan hinf
  have habs := Binary64.finite_abs hnan hinf
  have hunsigned : Spells v (Notation.literal.text x.abs) (.float x.abs) :=
    unsigned habs.1 habs.2 (Binary64.isNegative_abs hnan hinf) (h hnan hinf)
  rw [Binary64.text_eq_text_abs hnan hinf]
  by_cases hsign : Binary64.isNegative x = true
  · rw [if_pos hsign, if_pos hsign]
    exact hunsigned.minus
  · rw [if_neg hsign, if_neg hsign]
    rw [Bool.not_eq_true] at hsign
    rw [Binary64.abs_eq_self hnan hinf hsign] at hunsigned ⊢
    exact hunsigned

end Spells

/-- Whether the name of a node is read as what it is: that of a variable names nothing registered,
and that of a call the function that is called. -/
def Node.IsKnown (v : Vocabulary) : Node → Prop
  | var name => Text.isName name = true ∧ v.variableName name = name ∧
      v.function? name = none ∧ v.constant? name = none
  | call name argumentCount idempotent => ∃ callee, v.function? name = some callee ∧
      callee.name = name ∧ callee.idempotent = idempotent ∧ callee.accepts argumentCount = true
  | _ => True

/-- Whether a node is no literal, or one with a token of its own: finite and without a sign. -/
def Node.isPlain : Node → Bool
  | integer value => decide (0 ≤ value.toInt)
  | float x => !x.isNaN && !x.isInf && !Binary64.isNegative x
  | _ => true

namespace Tree

mutual

theorem print_eq_append : ∀ (t : Tree) (rest : List Char), t.print rest = t.print [] ++ rest
  | integer _, rest => by simp [print]
  | float _, rest => by simp [print]
  | var _, rest => by simp [print]
  | negate argument, rest => by
    rw [print, print, print_eq_append argument (')' :: rest), print_eq_append argument [')']]
    simp
  | binary op left right, rest => by
    rw [print, print, print_eq_append right (')' :: rest), print_eq_append right [')'],
      print_eq_append left (_ ++ _ :: (_ ++ _ :: rest)), print_eq_append left (_ ++ _)]
    simp
  | call name arguments _, rest => by
    rw [print, print, printArguments_eq_append arguments (')' :: rest),
      printArguments_eq_append arguments [')']]
    simp

theorem printArguments_eq_append : ∀ (ts : List Tree) (rest : List Char),
    printArguments ts rest = printArguments ts [] ++ rest
  | [], rest => by simp [printArguments]
  | [t], rest => by
    rw [printArguments, printArguments]
    exact print_eq_append t rest
  | t :: u :: ts, rest => by
    have hnext : ∀ rest, printArguments (t :: u :: ts) rest =
        t.print (',' :: ' ' :: printArguments (u :: ts) rest) := fun _ => rfl
    rw [hnext, hnext, printArguments_eq_append (u :: ts) rest,
      print_eq_append t (_ :: _ :: (_ ++ rest)), print_eq_append t (_ :: _)]
    simp

end

/-- What reading the text of a tree relies on: its names are known, registered names are proper, and
the numerals of its finite doubles have these doubles as their values. -/
structure Readable (v : Vocabulary) (t : Tree) : Prop where
  known : ∀ node ∈ t.postorder, node.IsKnown v
  named : ∀ name callee, v.function? name = some callee → Text.isName callee.name = true
  numbers : ∀ x, Node.float x ∈ t.postorder → x.isNaN = false → x.isInf = false →
    Notation.ReadsBack x.abs

theorem Readable.child {v : Vocabulary} {t child : Tree} (h : t.Readable v)
    (hchild : child ∈ t.children) : child.Readable v where
  known node hnode := h.known node ((postorder_sublist_of_child hchild).subset hnode)
  named := h.named
  numbers x hx := h.numbers x ((postorder_sublist_of_child hchild).subset hx)

private theorem spells_printArguments {v : Vocabulary} {ts : List Tree}
    (h : ∀ t ∈ ts, Spells v (t.print []) t.reread) :
    SpellsArguments v (printArguments ts []) (rereadAll ts) := by
  induction ts with
  | nil => exact .none
  | cons t ts ih =>
    have hfirst := h t List.mem_cons_self
    cases ts with
    | nil => exact .last hfirst
    | cons u ts =>
      have hrest := ih fun s hs => h s (List.mem_cons_of_mem t hs)
      have hprint : printArguments (t :: u :: ts) [] =
          t.print [] ++ ',' :: ' ' :: printArguments (u :: ts) [] := print_eq_append t _
      rw [hprint]
      exact .next hfirst hrest

/-- By induction on the tree: what is printed between brackets, after a sign or in a list of
arguments is read back as a whole. -/
theorem spells_print {v : Vocabulary} {t : Tree} (h : t.Readable v) :
    Spells v (t.print []) t.reread := by
  induction t using children_induction with
  | step t ih =>
    have hroot := h.known t.root t.root_mem_postorder
    have hchildren : ∀ child ∈ t.children, Spells v (child.print []) child.reread :=
      fun child hchild => ih child hchild (h.child hchild)
    cases t with
    | integer value =>
      rw [print, List.append_nil]
      exact .rereadInteger value
    | float value =>
      rw [print, List.append_nil]
      exact .rereadFloat (h.numbers value (root_mem_postorder (.float value)))
    | var name =>
      obtain ⟨hname, hkey, hfunction, hconstant⟩ := hroot
      have hvar := Spells.var hname hfunction hconstant
      rw [hkey] at hvar
      rw [print, List.append_nil]
      exact hvar
    | negate argument =>
      have hargument := hchildren argument List.mem_cons_self
      rw [print, print_eq_append]
      exact hargument.bracketed.minus
    | binary op left right =>
      have hleft := hchildren left List.mem_cons_self
      have hright := hchildren right (List.mem_cons_of_mem left List.mem_cons_self)
      have hbinary := hleft.binary op hright
      rw [reread, print, print_eq_append right [')'], print_eq_append left (_ ++ _)]
      simpa using hbinary
    | call name arguments idempotent =>
      obtain ⟨callee, hfunction, rfl, rfl, haccepts⟩ := hroot
      have harguments : SpellsArguments v (printArguments arguments []) (rereadAll arguments) :=
        spells_printArguments hchildren
      have hlength : (rereadAll arguments).length = arguments.length := by
        rw [rereadAll_eq_map, List.length_map]
      have hcall := Spells.call (h.named _ _ hfunction) hfunction (hlength ▸ haccepts) harguments
      rw [reread, print, printArguments_eq_append]
      simpa using hcall

/-- A tree whose literals have tokens of their own is read as it is. -/
theorem reread_eq_self {t : Tree} (h : ∀ node ∈ t.postorder, node.isPlain = true) :
    t.reread = t := by
  induction t using children_induction with
  | step t ih =>
    have hroot := h t.root t.root_mem_postorder
    have hchildren : ∀ child ∈ t.children, child.reread = child := fun child hchild =>
      ih child hchild fun node hnode => h node ((postorder_sublist_of_child hchild).subset hnode)
    cases t with
    | integer value =>
      have hsign : 0 ≤ value.toInt := of_decide_eq_true hroot
      rw [reread, rereadInteger, if_pos hsign]
    | float value =>
      simp only [root, Node.isPlain, Bool.and_eq_true, Bool.not_eq_true'] at hroot
      obtain ⟨⟨hnan, hinf⟩, hsign⟩ := hroot
      simp only [reread, rereadFloat, hnan, hinf, hsign, Bool.false_eq_true, if_false]
    | var name => rfl
    | negate argument => rw [reread, hchildren argument List.mem_cons_self]
    | binary op left right =>
      rw [reread, hchildren left List.mem_cons_self,
        hchildren right (List.mem_cons_of_mem left List.mem_cons_self)]
    | call name arguments idempotent =>
      have harguments : arguments.map reread = arguments.map id := List.map_congr_left hchildren
      rw [reread, rereadAll_eq_map, harguments, List.map_id]

/-- With whatever functions were registered and whatever constants there are, a printed tree is read
as the tree itself, but for the literals that have no token of their own. -/
theorem parse_text {σ : Type} (caseSensitive caseSensitiveTable : Bool)
    (registrations : List (Function σ)) (constants : Table Constant) (t : Tree) :
    let functions := (Table.empty caseSensitiveTable).attemptAll registrations
    let v := Vocabulary.ofTables functions constants caseSensitive
    (∀ node ∈ t.postorder, node.IsKnown v) →
    (∀ x, Node.float x ∈ t.postorder → x.isNaN = false → x.isInf = false →
      Notation.ReadsBack x.abs) →
    parse .enUs v t.text = .ok t.reread ∧
      ((∀ node ∈ t.postorder, node.isPlain = true) → parse .enUs v t.text = .ok t) := by
  intro functions v hknown hnumbers
  have hnamed : ∀ name callee, v.function? name = some callee →
      Text.isName callee.name = true := by
    intro name callee hcallee
    obtain ⟨f, hget, rfl⟩ := Option.map_eq_some_iff.mp hcallee
    exact (Table.named_empty caseSensitiveTable).attemptAll registrations name f hget
  have hparse : parse .enUs v t.text = .ok t.reread :=
    (spells_print ⟨hknown, hnamed, hnumbers⟩).parse
  refine ⟨hparse, fun hplain => ?_⟩
  rw [hparse, reread_eq_self hplain]

/-- The text `(Max(-3, 1.5e-7, -0.0) ^ -(x))`. -/
theorem parse_text_max :
    let max : Function Unit := ⟨⟨"Max", none, true, true⟩, .pure fun _ => 0⟩
    let functions := (Table.empty false).attemptAll [max]
    let v := Vocabulary.ofTables functions (.empty false) false
    let t : Tree := .binary .power (.call "Max" [.integer (-3), .float 1.5e-7, .float (-0.0)] true)
      (.negate (.var "x"))
    (∀ node ∈ t.postorder, node.IsKnown v) ∧
      (∀ x, Node.float x ∈ t.postorder → x.isNaN = false → x.isInf = false →
        Notation.ReadsBack x.abs) ∧
      parse .enUs v t.text = .ok (.binary .power
        (.call "Max" [.negate (.integer 3), .float 1.5e-7, .negate (.float 0.0)] true)
        (.negate (.var "x"))) := by
  intro max functions v t
  have hknown : ∀ node ∈ t.postorder, node.IsKnown v := by
    intro node hnode
    simp only [t, postorder, emit, emitAll, List.mem_cons, List.not_mem_nil, or_false] at hnode
    rcases hnode with rfl | rfl | rfl | rfl | rfl | rfl | rfl
    case inr.inr.inr.inl => exact ⟨max.toSignature, by decide +kernel, rfl, rfl, rfl⟩
    case inr.inr.inr.inr.inl =>
      exact ⟨by decide +kernel, by decide +kernel, by decide +kernel, rfl⟩
    all_goals trivial
  have hnumbers : ∀ x, Node.float x ∈ t.postorder → x.isNaN = false → x.isInf = false →
      Notation.ReadsBack x.abs := by
    intro x hx _ _
    simp only [t, postorder, emit, emitAll, List.mem_cons, List.not_mem_nil, or_false,
      Node.float.injEq, reduceCtorEq, false_or] at hx
    rcases hx with rfl | rfl <;> decide +kernel
  refine ⟨hknown, hnumbers, ?_⟩
  have hinteger : rereadInteger (-3) = .negate (.integer 3) := rfl
  have hfloat : rereadFloat 1.5e-7 = .float 1.5e-7 := by
    rw [rereadFloat, if_neg (by decide +kernel), if_neg (by decide +kernel),
      if_neg (by decide +kernel)]
  have hzero : rereadFloat (-0.0) = .negate (.float 0.0) := by
    have habs : Float.abs (-0.0) = 0.0 := by decide +kernel
    rw [rereadFloat, if_neg (by decide +kernel), if_neg (by decide +kernel),
      if_pos (by decide +kernel), habs]
  rw [(parse_text false false [max] (.empty false) t hknown hnumbers).1]
  simp only [t, reread, rereadAll, hinteger, hfloat, hzero]

end Tree

end FormulaEngine
