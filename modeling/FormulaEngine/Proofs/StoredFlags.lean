import FormulaEngine.Operation
import FormulaEngine.Proofs.AssemblyImages
import FormulaEngine.Proofs.DerivedFlags
import FormulaEngine.Proofs.Evaluations

/-!
What the nodes of operations store. An operation is up to date if it is the one that its bare tree
is made as, node by node. Reading a formula and folding know nothing of flags, so they do the same
with operations as with bare trees; and whatever they leave was made by the constructors, which keep
operations up to date. The flags that an up-to-date operation stores are those of its bare tree.
-/
namespace FormulaEngine

namespace Tree

variable {τ : Type} [TreeForm τ]

theorem made_eq (t : Tree) :
    (t.made : τ) = (t.root.build? (t.children.map made)).getD (TreeForm.float 0) := by
  have hpass (s : Tree) : (s.made : τ) = (s.passM (m := Id) fun node arguments =>
      pure ((node.build? arguments).getD (TreeForm.float 0))).run := by
    rw [made, runNodes_postorder]
    rfl
  rw [hpass, passM_eq, Id.run_bind, List.idRun_mapM, Id.run_pure, funext hpass]

@[simp]
theorem made_integer (value : Int64) : ((integer value).made : τ) = TreeForm.integer value :=
  made_eq _

@[simp]
theorem made_float (value : Float) : ((float value).made : τ) = TreeForm.float value := made_eq _

@[simp]
theorem made_var (name : String) : ((var name).made : τ) = TreeForm.var name := made_eq _

@[simp]
theorem made_negate (argument : Tree) :
    ((negate argument).made : τ) = TreeForm.negate argument.made := made_eq _

@[simp]
theorem made_binary (op : BinaryOperator) (left right : Tree) :
    ((binary op left right).made : τ) = TreeForm.binary op left.made right.made := made_eq _

@[simp]
theorem made_call (name : String) (arguments : List Tree) (idempotent : Bool) :
    ((call name arguments idempotent).made : τ) =
      TreeForm.call name (arguments.map made) idempotent := by
  rw [made_eq]
  simp [root, children, Node.build?]

variable {m : Type → Type} [Monad m] [LawfulMonad m] {α β : Type}

/-- Results may be changed before a step or after it, if it makes no difference to any step. -/
theorem runNodes_map {step : Node → List α → m α} {step' : Node → List β → m β} {f : α → β}
    (h : ∀ node arguments, step' node (arguments.map f) = f <$> step node arguments)
    (nodes : List Node) (stack : List α) :
    runNodes step' nodes (stack.map f) = List.map f <$> runNodes step nodes stack := by
  induction nodes generalizing stack with
  | nil => simp [runNodes]
  | cons node nodes ih =>
    rw [runNodes, runNodes, ← List.map_take, ← List.map_reverse, h, bind_map_left, map_bind]
    refine congrArg _ (funext fun x => ?_)
    rw [← ih, List.map_cons, List.map_drop]

end Tree

namespace Image.KeepsLeaves

variable {τ τ' : Type} [TreeForm τ] [TreeForm τ'] {f : Image τ τ'} (hf : f.KeepsLeaves)
include hf

theorem build? (node : Node) (arguments : List τ) :
    node.build? (arguments.map f.tree) = (node.build? arguments).map f.tree := by
  unfold Node.build?
  cases node with
  | integer value => cases arguments <;> simp [hf.integer]
  | float value => cases arguments <;> simp [hf.float]
  | var name => cases arguments <;> simp [hf.var]
  | negate => rcases arguments with _ | ⟨argument, _ | ⟨other, rest⟩⟩ <;> simp [f.negate]
  | binary op =>
    rcases arguments with _ | ⟨left, _ | ⟨right, _ | ⟨other, rest⟩⟩⟩ <;> simp [f.binary]
  | call name argumentCount idempotent =>
    by_cases hcount : arguments.length = argumentCount <;> simp [hcount, f.call]

variable {σ : Type} (mode : ExecutionMode) (functions : Table (Function σ))
  (constants : Table Constant)

theorem foldNode (node : Node) (arguments : List τ) :
    TreeForm.foldNode mode functions constants node (arguments.map f.tree) =
      f.tree <$> TreeForm.foldNode mode functions constants node arguments := by
  have hmade : (node.build? (arguments.map f.tree)).getD (TreeForm.float Binary64.nan) =
      f.tree ((node.build? arguments).getD (TreeForm.float Binary64.nan)) := by
    rw [hf.build?]
    cases node.build? arguments with
    | none => exact (hf.float _).symm
    | some t => rfl
  unfold TreeForm.foldNode
  dsimp only
  rw [hmade, hf.bare]
  split
  · simp [hf.float]
  · split
    · simp [hf.float]
    · simp

/-- Folding does the same with what becomes of a tree as with the tree. -/
theorem fold (t : τ) :
    TreeForm.fold mode functions constants (f.tree t) =
      f.tree <$> TreeForm.fold mode functions constants t := by
  unfold TreeForm.fold
  rw [hf.bare, ← List.map_nil,
    Tree.runNodes_map (hf.foldNode mode functions constants) (TreeForm.bare t).postorder [],
    bind_map_left, map_bind]
  refine congrArg _ (funext fun stack => ?_)
  cases stack with
  | nil => simp [hf.float]
  | cons u stack => simp

end Image.KeepsLeaves

namespace Operation

theorem bareAll_eq_map (os : List Operation) : bareAll os = os.map bare := by
  induction os with
  | nil => rfl
  | cons o os ih => rw [bareAll, ih, List.map_cons]

@[simp]
theorem bare_integer (value : Int64) :
    (TreeForm.integer value : Operation).bare = .integer value := rfl

@[simp]
theorem bare_float (value : Float) : (TreeForm.float value : Operation).bare = .float value := rfl

@[simp]
theorem bare_var (name : String) : (TreeForm.var name : Operation).bare = .var name := rfl

@[simp]
theorem bare_negate (argument : Operation) :
    (TreeForm.negate argument).bare = .negate argument.bare := rfl

@[simp]
theorem bare_binary (op : BinaryOperator) (left right : Operation) :
    (TreeForm.binary op left right).bare = .binary op left.bare right.bare := rfl

@[simp]
theorem bare_call (name : String) (arguments : List Operation) (idempotent : Bool) :
    (TreeForm.call name arguments idempotent).bare = .call name (arguments.map bare) idempotent :=
  congrArg (Tree.call name · idempotent) (bareAll_eq_map arguments)

theorem bare_made (t : Tree) : (t.made : Operation).bare = t := by
  induction t using Tree.children_induction with
  | step t ih =>
    cases t with
    | integer | float | var => simp
    | negate argument => simp [ih argument (by simp [Tree.children])]
    | binary op left right =>
      simp [ih left (by simp [Tree.children]), ih right (by simp [Tree.children])]
    | call name arguments idempotent =>
      have harguments : arguments.map (bare ∘ Tree.made) = arguments :=
        (List.map_congr_left ih).trans (List.map_id arguments)
      rw [Tree.made_call, bare_call, List.map_map, harguments]

end Operation

namespace Image

/-- What a bare tree is made as. -/
def storing : Image Tree Operation where
  tree := Tree.made
  span := id
  negate := Tree.made_negate
  binary := Tree.made_binary
  call := Tree.made_call
  cover := id_cover

theorem keepsLeaves_storing : storing.KeepsLeaves :=
  ⟨rfl, Tree.made_integer, Tree.made_float, Tree.made_var, Operation.bare_made⟩

end Image

namespace Operation

/-- A formula is read as the operation that its tree is made as. -/
theorem parse_eq (locale : Locale) (v : Vocabulary) (text : String) :
    parse locale v text = (Tree.parse locale v text).map Tree.made := by
  unfold parse Tree.parse readFormula
  split
  · rfl
  · rfl
  · rename_i tokens hne hscan
    have hread := Image.keepsLeaves_storing.readTokens v tokens
    rw [List.map_id'' (f := Image.storing.token) fun _ => rfl] at hread
    rw [hread]
    cases readTokens Tree v tokens <;> rfl

variable {σ : Type}

/-- Folding leaves the operation that the folded tree is made as, whatever the nodes stored. -/
theorem fold_eq (mode : ExecutionMode) (functions : Table (Function σ)) (constants : Table Constant)
    (o : Operation) :
    o.fold mode functions constants = Tree.made <$> o.bare.fold mode functions constants := by
  have hsame : o.fold mode functions constants =
      TreeForm.fold mode functions constants (o.bare.made : Operation) := by
    unfold fold TreeForm.fold
    rw [show TreeForm.bare (o.bare.made : Operation) = TreeForm.bare o from bare_made o.bare]
  exact hsame.trans (Image.keepsLeaves_storing.fold mode functions constants o.bare)

theorem children_bare (o : Operation) : o.bare.children = o.children.map bare := by
  cases o with
  | call flags name arguments idempotent => exact bareAll_eq_map arguments
  | _ => rfl

/-- Whether every node stores the flags that come from those of its arguments. -/
def UpToDate (o : Operation) : Prop := o.bare.made = o

theorem upToDate_made (t : Tree) : (t.made : Operation).UpToDate :=
  congrArg Tree.made (bare_made t)

theorem upToDate_all {os : List Operation} :
    (os.map bare).map Tree.made = os ↔ ∀ o ∈ os, o.UpToDate := by
  rw [List.map_map]
  nth_rewrite 2 [← List.map_id os]
  exact List.map_inj_left

namespace UpToDate

theorem negate {argument : Operation} (h : argument.UpToDate) :
    (TreeForm.negate argument : Operation).UpToDate := by
  rw [UpToDate, bare_negate, Tree.made_negate, h]

theorem binary (op : BinaryOperator) {left right : Operation} (hleft : left.UpToDate)
    (hright : right.UpToDate) : (TreeForm.binary op left right : Operation).UpToDate := by
  rw [UpToDate, bare_binary, Tree.made_binary, hleft, hright]

theorem call (name : String) {arguments : List Operation} (h : ∀ o ∈ arguments, o.UpToDate)
    (idempotent : Bool) : (TreeForm.call name arguments idempotent : Operation).UpToDate := by
  rw [UpToDate, bare_call, Tree.made_call, upToDate_all.mpr h]

theorem of_mem_children {o child : Operation} (h : o.UpToDate) (hchild : child ∈ o.children) :
    child.UpToDate := by
  unfold UpToDate at h
  cases o with
  | integer | float | var => cases hchild
  | negate flags argument =>
    cases List.mem_singleton.mp hchild
    rw [bare, Tree.made_negate] at h
    injection h
  | binary flags op left right =>
    rw [bare, Tree.made_binary] at h
    injection h with hflags hop hleft hright
    rcases List.mem_pair.mp hchild with rfl | rfl
    · exact hleft
    · exact hright
  | call flags name arguments idempotent =>
    rw [bare, bareAll_eq_map, Tree.made_call] at h
    injection h with _ _ harguments
    exact upToDate_all.mp harguments child hchild

end UpToDate

/-- The operations that can be had: what the constructors make, what formulas are read as, what is
left by folding, and the arguments of any of these. -/
inductive Obtained : Operation → Prop
  | integer (value : Int64) : Obtained (TreeForm.integer value)
  | float (value : Float) : Obtained (TreeForm.float value)
  | var (name : String) : Obtained (TreeForm.var name)
  | negate {argument : Operation} (h : Obtained argument) : Obtained (TreeForm.negate argument)
  | binary (op : BinaryOperator) {left right : Operation} (hleft : Obtained left)
      (hright : Obtained right) : Obtained (TreeForm.binary op left right)
  | call (name : String) {arguments : List Operation} (h : ∀ o ∈ arguments, Obtained o)
      (idempotent : Bool) : Obtained (TreeForm.call name arguments idempotent)
  | child {o child : Operation} (h : Obtained o) (hchild : child ∈ o.children) : Obtained child
  | parsed {locale : Locale} {v : Vocabulary} {text : String} {o : Operation}
      (h : parse locale v text = .ok o) : Obtained o
  | folded {σ : Type} {mode : ExecutionMode} {functions : Table (Function σ)}
      {constants : Table Constant} {o o' : Operation} {s s' : FoldingState σ} (h : Obtained o)
      (hfold : o.fold mode functions constants s = (.ok o', s')) : Obtained o'

theorem Obtained.upToDate {o : Operation} (h : o.Obtained) : o.UpToDate := by
  induction h with
  | integer value => exact upToDate_made (.integer value)
  | float value => exact upToDate_made (.float value)
  | var name => exact upToDate_made (.var name)
  | negate _ ih => exact ih.negate
  | binary op _ _ hleft hright => exact hleft.binary op hright
  | call name _ idempotent ih => exact .call name ih idempotent
  | child _ hchild ih => exact ih.of_mem_children hchild
  | parsed h =>
    rename_i locale v text o
    rw [parse_eq] at h
    cases hparse : Tree.parse locale v text with
    | error e => rw [hparse] at h; cases h
    | ok t =>
      rw [hparse] at h
      cases h
      exact upToDate_made t
  | folded _ hfold ih =>
    rename_i mode functions constants o o' s s'
    rw [fold_eq, map_eq_pure_bind, Evaluation.bind_apply] at hfold
    split at hfold
    · cases hfold
      exact upToDate_made _
    · cases hfold

theorem flags_made (t : Tree) : (t.made : Operation).flags = t.flags := by
  induction t using Tree.children_induction with
  | step t ih =>
    have harguments : (t.children.map Tree.made).map flags = t.children.map Tree.flags := by
      rw [List.map_map]
      exact List.map_congr_left ih
    rw [Tree.flags_eq, ← harguments]
    cases t with
    | integer value => rw [Tree.made_integer]; rfl
    | float value => rw [Tree.made_float]; rfl
    | var name => rw [Tree.made_var]; rfl
    | negate argument => rw [Tree.made_negate]; rfl
    | binary op left right => rw [Tree.made_binary]; rfl
    | call name arguments idempotent =>
      rw [Tree.made_call, Tree.root, ← List.length_map (Tree.made : Tree → Operation)]
      rfl

theorem foldl_noteUse (uses : List String) : uses.foldl noteUse [] = uses.eraseDups := by
  induction uses using List.reverseRecOn with
  | nil => rfl
  | append_singleton uses name ih =>
    rw [List.foldl_append, ih, List.eraseDups_append]
    by_cases hmem : name ∈ uses
    · simp [noteUse, hmem, List.removeAll]
    · simp [noteUse, hmem, List.removeAll, List.eraseDups_cons]

/-- An operation that is not a variable has the uses of its arguments. -/
theorem uses_bare {o : Operation} (h : ∀ flags name, o = var flags name → False) :
    o.bare.uses = o.children.flatMap fun child => child.bare.uses := by
  rw [Tree.uses_eq, children_bare, List.flatMap_map]
  cases o with
  | var flags name => exact (h flags name rfl).elim
  | _ => exact List.append_nil _

/-- The walk with a stack comes by the uses of variables from left to right. -/
theorem walk_eq (stack : List Operation) (names : List String) :
    walk stack names = (stack.flatMap fun o => o.bare.uses).foldl noteUse names := by
  fun_induction walk stack names with
  | case1 names => rfl
  | case2 rest names flags name ih => rw [ih]; rfl
  | case3 o rest names hvar ih => rw [ih, List.flatMap_append, List.flatMap_cons, uses_bare hvar]

theorem variableNames_eq (o : Operation) : o.variableNames = o.bare.uses.eraseDups := by
  rw [variableNames, walk_eq, List.flatMap_singleton, foldl_noteUse]

theorem children_made (t : Tree) : (t.made : Operation).children = t.children.map Tree.made := by
  cases t with
  | integer value => rw [Tree.made_integer]; rfl
  | float value => rw [Tree.made_float]; rfl
  | var name => rw [Tree.made_var]; rfl
  | negate argument => rw [Tree.made_negate]; rfl
  | binary op left right => rw [Tree.made_binary]; rfl
  | call name arguments idempotent => rw [Tree.made_call]; rfl

theorem emit_eq (o : Operation) (rest : List (Node × Flags)) :
    o.emit rest = emitAll o.children ((o.bare.root, o.flags) :: rest) := by
  cases o with
  | call flags name arguments idempotent =>
    rw [bare, Tree.root, bareAll_eq_map, List.length_map]
    rfl
  | _ => rfl

theorem emitAll_made {ts : List Tree}
    (hts : ∀ t ∈ ts, ∀ rest, (t.made : Operation).emit rest = t.subtrees.map Tree.flagged ++ rest)
    (rest : List (Node × Flags)) :
    emitAll (ts.map Tree.made) rest = (ts.flatMap Tree.subtrees).map Tree.flagged ++ rest := by
  induction ts with
  | nil => rfl
  | cons t ts ih =>
    rw [List.forall_mem_cons] at hts
    rw [List.map_cons, emitAll, hts.1, ih hts.2, List.flatMap_cons, List.map_append,
      List.append_assoc]

theorem emit_made (t : Tree) (rest : List (Node × Flags)) :
    (t.made : Operation).emit rest = t.subtrees.map Tree.flagged ++ rest := by
  induction t using Tree.children_induction generalizing rest with
  | step t ih =>
    rw [emit_eq, children_made, emitAll_made ih, bare_made, flags_made, Tree.subtrees_eq,
      List.map_append, List.append_assoc]
    rfl

theorem UpToDate.flags_eq {o : Operation} (h : o.UpToDate) : o.flags = o.bare.flags := by
  rw [← flags_made, h]

theorem UpToDate.flaggedNodes_eq {o : Operation} (h : o.UpToDate) :
    o.flaggedNodes = o.bare.subtrees.map Tree.flagged := by
  rw [← List.append_nil (List.map _ _), ← emit_made, h]
  rfl

/-- However an operation was come by, what its nodes store is true of the whole tree below them. The
walk finds the uses of variables from left to right without the later repeats; there are any if the
operation depends on variables; it is idempotent if no call in it is marked otherwise, and its kind
is that of an integer if it is computed from integers alone or is a truth value. Every node stores
the flags that are gathered from the tree below it. -/
theorem flags_tell_truth {o : Operation} (h : o.Obtained) :
    o.variableNames = o.bare.uses.eraseDups ∧
      (o.flags.dependsOnVariables = true ↔ o.variableNames ≠ []) ∧
      (o.flags.idempotent = true ↔
        ∀ name arguments, .call name arguments false ∉ o.bare.subtrees) ∧
      (o.flags.kind = .integer ↔ o.bare.IsInteger) ∧
      o.flaggedNodes = o.bare.subtrees.map Tree.flagged := by
  have hnames : o.variableNames = o.bare.variableNames :=
    o.variableNames_eq.trans o.bare.variableNames_eq.symm
  have hflags := h.upToDate.flags_eq
  refine ⟨o.variableNames_eq, ?_, ?_, ?_, h.upToDate.flaggedNodes_eq⟩
  · rw [hflags, hnames]
    exact o.bare.dependsOnVariables_iff
  · rw [hflags]
    exact o.bare.idempotent_iff
  · rw [hflags]
    exact o.bare.kind_eq_integer_iff

/-- A sum of integers is folded to a double, and the flags of what is left say so. -/
theorem flags_tell_truth_folded :
    let functions : Table (Function Unit) := .empty false
    let v : Vocabulary := .ofTables functions (.empty false) false
    ∃ (o o' : Operation) (s' : FoldingState Unit),
      parse .enUs v "1+2+x" = .ok o ∧
      o.fold .interpreted functions (.empty false) ⟨⟨(), ⟨[], 0⟩, []⟩, []⟩ = (.ok o', s') ∧
      o.flaggedNodes.map (fun node => node.2.kind) = [.integer, .integer, .integer, .float, .float] ∧
      o'.flaggedNodes.map (fun node => node.2.kind) = [.float, .float, .float] ∧
      o'.variableNames = o'.bare.uses.eraseDups ∧
      (o'.flags.dependsOnVariables = true ↔ o'.variableNames ≠ []) ∧
      (o'.flags.idempotent = true ↔
        ∀ name arguments, .call name arguments false ∉ o'.bare.subtrees) ∧
      (o'.flags.kind = .integer ↔ o'.bare.IsInteger) ∧
      o'.flaggedNodes = o'.bare.subtrees.map Tree.flagged := by
  intro functions v
  have hrun : (match parse .enUs v "1+2+x" with
      | .ok o =>
        match o.fold .interpreted functions (.empty false) ⟨⟨(), ⟨[], 0⟩, []⟩, []⟩ with
        | (.ok o', _) => decide (o.flaggedNodes.map (fun node => node.2.kind) =
              [.integer, .integer, .integer, .float, .float] ∧
            o'.flaggedNodes.map (fun node => node.2.kind) = [.float, .float, .float])
        | _ => false
      | .error _ => false) = true := by decide +kernel
  split at hrun
  · rename_i o hparse
    split at hrun
    · rename_i o' s' hfold
      obtain ⟨hkinds, hkinds'⟩ := of_decide_eq_true hrun
      exact ⟨o, o', s', hparse, hfold, hkinds, hkinds',
        flags_tell_truth (.folded (.parsed hparse) hfold)⟩
    · cases hrun
  · cases hrun

end Operation

namespace Tree

/-- The listed nodes of a tree come with the flags of their subtrees. -/
theorem flaggedNodes_eq (t : Tree) : t.flaggedNodes = t.subtrees.map flagged := by
  have hnodes := (Operation.upToDate_made t).flaggedNodes_eq
  rwa [Operation.bare_made] at hnodes

end Tree

end FormulaEngine
