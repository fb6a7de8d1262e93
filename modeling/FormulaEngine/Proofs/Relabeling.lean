import FormulaEngine.Proofs.AssemblySteps
import FormulaEngine.Proofs.TreePasses

/-!
Relabeling of calls. A call in a tree carries the name and the idempotence that its function had
when the tree was made; relabeling it gives it those that the function has now. A tree is
assembled without regard to these labels, so a formula that is read again, after functions were
replaced, is the relabeled tree.
-/
namespace FormulaEngine

/-- The functions as they are now, by name. A name that is not among them keeps its labels. -/
abbrev Labels := String → Option Signature

namespace Labels

def name (now : Labels) (name : String) : String := (now name).elim name Signature.name

def idempotent (now : Labels) (name : String) (idempotent : Bool) : Bool :=
  (now name).elim idempotent Signature.idempotent

end Labels

/-- A function as it is now; as many arguments are expected as before. -/
def Signature.relabel (now : Labels) (f : Signature) : Signature :=
  (now f.name).elim f fun present => { present with arity := f.arity }

def Node.relabel (now : Labels) : Node → Node
  | call name argumentCount idempotent =>
    call (now.name name) argumentCount (now.idempotent name idempotent)
  | node => node

namespace Tree

mutual

def relabel (now : Labels) : Tree → Tree
  | integer value => integer value
  | float value => float value
  | var name => var name
  | negate argument => negate (argument.relabel now)
  | binary op left right => binary op (left.relabel now) (right.relabel now)
  | call name arguments idempotent =>
    call (now.name name) (relabelAll now arguments) (now.idempotent name idempotent)

def relabelAll (now : Labels) : List Tree → List Tree
  | [] => []
  | t :: ts => t.relabel now :: relabelAll now ts

end

end Tree

variable {now : Labels}

@[simp]
theorem Signature.relabel_name (f : Signature) : (f.relabel now).name = now.name f.name := by
  unfold relabel Labels.name
  cases now f.name <;> rfl

@[simp]
theorem Signature.relabel_arity (f : Signature) : (f.relabel now).arity = f.arity := by
  unfold relabel
  cases now f.name <;> rfl

@[simp]
theorem Signature.relabel_idempotent (f : Signature) :
    (f.relabel now).idempotent = now.idempotent f.name f.idempotent := by
  unfold relabel Labels.idempotent
  cases now f.name <;> rfl

@[simp]
theorem Node.relabel_arity (node : Node) : (node.relabel now).arity = node.arity := by
  cases node <;> rfl

namespace Tree

theorem relabelAll_eq_map (ts : List Tree) : relabelAll now ts = ts.map (relabel now) := by
  induction ts with
  | nil => rfl
  | cons t ts ih => rw [relabelAll, ih, List.map_cons]

theorem relabel_call (name : String) (arguments : List Tree) (idempotent : Bool) :
    (call name arguments idempotent).relabel now =
      call (now.name name) (arguments.map (relabel now)) (now.idempotent name idempotent) := by
  rw [relabel, relabelAll_eq_map]

theorem root_relabel (t : Tree) : (t.relabel now).root = t.root.relabel now := by
  cases t with
  | call name arguments idempotent =>
    rw [relabel_call, root, List.length_map]
    rfl
  | _ => rfl

theorem children_relabel (t : Tree) :
    (t.relabel now).children = t.children.map (relabel now) := by
  cases t with
  | call name arguments idempotent => rw [relabel_call, children, children]
  | _ => rfl

theorem literal?_relabel (t : Tree) : (t.relabel now).literal? = t.literal? := by
  cases t <;> rfl

theorem postorder_relabel (t : Tree) :
    (t.relabel now).postorder = t.postorder.map (Node.relabel now) := by
  induction t using children_induction with
  | step t ih =>
    rw [postorder_eq, postorder_eq t, root_relabel, children_relabel, List.map_append,
      List.flatMap_map, List.map_flatMap]
    congr 1
    exact List.flatMap_congr ih

/-- Without labels of its own nothing changes. -/
theorem relabel_none (t : Tree) : t.relabel (fun _ => none) = t := by
  induction t using children_induction with
  | step t ih =>
    cases t with
    | negate argument => rw [relabel, ih argument List.mem_cons_self]
    | binary op left right =>
      rw [relabel, ih left List.mem_cons_self, ih right (List.mem_cons_of_mem _ List.mem_cons_self)]
    | call name arguments idempotent =>
      have harguments : arguments.map (relabel fun _ => none) = arguments :=
        (List.map_congr_left ih).trans (List.map_id' arguments)
      rw [relabel_call, harguments]
      rfl
    | _ => rfl

end Tree

def Operand.relabel (now : Labels) (operand : Operand) : Operand :=
  { operand with tree := operand.tree.relabel now }

namespace Operands

def relabel (now : Labels) (s : Operands) : Operands :=
  ⟨s.items.map (Operand.relabel now), s.count, by simp [s.count_eq]⟩

theorem relabel_pushAll (s : Operands) (operands : List Operand) :
    (s.pushAll operands).relabel now =
      (s.relabel now).pushAll (operands.map (Operand.relabel now)) := by
  apply ext
  change (s.pushAll operands).items.map (Operand.relabel now) = _
  rw [items_pushAll, items_pushAll, List.map_append, List.map_reverse]
  rfl

end Operands

def Waiting.relabel (now : Labels) : Waiting → Waiting
  | function callee span => function (callee.relabel now) span
  | item => item

theorem Waiting.yieldsTo_relabel (op : Operator) (item : Waiting) :
    (item.relabel now).yieldsTo op = item.yieldsTo op := by
  cases item <;> rfl

theorem Waiting.inGroup_relabel (item : Waiting) : (item.relabel now).inGroup = item.inGroup := by
  cases item <;> rfl

/-- The names that a formula may use, with the functions as they are now. -/
def Vocabulary.relabel (now : Labels) (v : Vocabulary) : Vocabulary :=
  { v with function? := fun name => (v.function? name).map (Signature.relabel now) }

namespace Assembly

def relabel (now : Labels) (a : Assembly) : Assembly :=
  ⟨a.waiting.map (Waiting.relabel now), a.operands.relabel now, a.calls⟩

variable {a b : Assembly}

theorem Reduction.relabel (h : Reduction a b) : Reduction (a.relabel now) (b.relabel now) := by
  cases h with
  | negate argument minus waiting operands calls =>
    exact .negate (argument.relabel now) minus (waiting.map (Waiting.relabel now))
      (operands.relabel now) calls
  | binary op left right middle waiting operands calls =>
    exact .binary op (left.relabel now) (right.relabel now) middle
      (waiting.map (Waiting.relabel now)) (operands.relabel now) calls
  | @call callee arguments haccepts name waiting operands calls =>
    have hcount : (arguments.map (Operand.relabel now)).length = arguments.length :=
      List.length_map _
    have hfit : (callee.relabel now).accepts (arguments.map (Operand.relabel now)).length =
        true := by
      rw [hcount, Signature.accepts, Signature.relabel_arity]
      exact haccepts
    have htree :
        (Tree.call callee.name (arguments.map Operand.tree) callee.idempotent).relabel now = .call
          (callee.relabel now).name ((arguments.map (Operand.relabel now)).map Operand.tree)
          (callee.relabel now).idempotent := by
      rw [Tree.relabel_call, List.map_map, List.map_map, Signature.relabel_name,
        Signature.relabel_idempotent]
      rfl
    have hcall := Reduction.call hfit name (waiting.map (Waiting.relabel now))
      (operands.relabel now) calls
    rw [hcount, ← Operands.relabel_pushAll, ← htree, List.foldl_map] at hcall
    exact hcall

theorem Reductions.relabel {ready : Waiting → Bool}
    (hready : ∀ item : Waiting, ready (item.relabel now) = ready item)
    (h : Reductions ready a b) : Reductions ready (a.relabel now) (b.relabel now) := by
  induction h with
  | @stop a h =>
    refine .stop fun item hitem => ?_
    have hhead : (a.waiting.map (Waiting.relabel now)).head? = some item := hitem
    rw [List.head?_map, Option.map_eq_some_iff] at hhead
    obtain ⟨before, hbefore, rfl⟩ := hhead
    rw [hready]
    exact h before hbefore
  | step hitem h _ ih => exact .step ((hready _).trans hitem) h.relabel ih

theorem Intake.relabel {v : Vocabulary} {afterLeftBracket beforeLeftBracket : Bool} {span : Span}
    {kind : TokenKind} (h : Intake v afterLeftBracket beforeLeftBracket span kind a b) :
    Intake (v.relabel now) afterLeftBracket beforeLeftBracket span kind (a.relabel now)
      (b.relabel now) := by
  have hnone : ∀ {name}, v.function? name = none → (v.relabel now).function? name = none :=
    fun h => congrArg (Option.map (Signature.relabel now)) h
  cases h with
  | integer value => exact .integer value _
  | float value => exact .float value _
  | constant hfunction hconstant => exact .constant (hnone hfunction) hconstant _
  | var hfunction hconstant => exact .var (v := v.relabel now) (hnone hfunction) hconstant _
  | function hfunction hbefore =>
    have hpresent := congrArg (Option.map (Signature.relabel now)) hfunction
    exact .function (v := v.relabel now) hpresent hbefore _
  | operator op h => exact .operator op (h.relabel fun item => item.yieldsTo_relabel op)
  | leftBracket => exact .leftBracket _
  | emptyList hafter opened name callee waiting operands call calls =>
    exact .emptyList hafter opened name (callee.relabel now) (waiting.map (Waiting.relabel now))
      (operands.relabel now) call calls
  | rightBracket hafter h => exact .rightBracket hafter (h.relabel Waiting.inGroup_relabel)
  | separator h => exact .separator (h.relabel Waiting.inGroup_relabel)

theorem addAll_relabel {v : Vocabulary} {afterLeftBracket : Bool} {tokens : List Token}
    (h : addAll v afterLeftBracket tokens a = .ok b) :
    addAll (v.relabel now) afterLeftBracket tokens (a.relabel now) = .ok (b.relabel now) := by
  induction tokens generalizing a afterLeftBracket with
  | nil =>
    cases h
    rfl
  | cons token rest ih =>
    obtain ⟨c, hintake, hrest⟩ := addAll_cases h
    exact (addAll_cons hintake.relabel.add).trans (ih hrest)

end Assembly

/-- What is read while the functions are the old ones is read with the present ones as well, and is
the same tree but for the labels of its calls. -/
theorem Tree.parse_relabel {locale : Locale} {v : Vocabulary} {text : String} {t : Tree}
    (h : parse locale v text = .ok t) :
    parse locale (v.relabel now) text = .ok (t.relabel now) := by
  unfold parse readFormula at h ⊢
  revert h
  rcases Token.scan locale text.toList with e | _ | ⟨token, tokens⟩ <;> intro h
  · cases h
  · cases h
  · obtain ⟨a, span, calls, hread, hreductions⟩ := ofTokens_cases h
    have hread' : Assembly.addAll (v.relabel now) false (token :: tokens) .empty =
        .ok (a.relabel now) := Assembly.addAll_relabel hread
    dsimp only
    rw [readTokens, hread']
    exact (hreductions.relabel Waiting.inGroup_relabel).finish

end FormulaEngine
