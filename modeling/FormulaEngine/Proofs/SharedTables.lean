import FormulaEngine.Proofs.RegistrationHistory
import FormulaEngine.Table.Handles
import Mathlib.Data.List.Induction
import Mathlib.Logic.Relation

/-!
Tables that handles share. Clones and read-only views are links between handles, and snapshots are
not: a snapshot starts a family of its own. Linked handles have one table. What is registered
through a handle is seen through all that are linked to it, and nothing of it through any other.
-/
namespace FormulaEngine

theorem Table.register_eq_notOverwritable {ε : Type} [Entry ε] {t : Table ε} {existing entry : ε}
    (hname : Text.isName (Entry.name entry) = true)
    (hget : t.get? (Entry.name entry) = some existing)
    (hprotected : Entry.overwritable existing = false) :
    t.register entry = .error (.notOverwritable (Entry.name entry)) := by
  simp [register, admission, hname, hget, hprotected]

namespace Shelf

variable {ε : Type}

/-- What can be done with a shelf. Handles are numbered in the order in which they are made. -/
inductive Step (ε : Type)
  | create (caseSensitive : Bool)
  | derive (handle : Nat) (how : Derivation)
  | register (handle : Nat) (entry : ε)

namespace Step

def makesHandle : Step ε → Bool
  | create _ | derive _ _ => true
  | register _ _ => false

/-- The entry that is registered through one of some handles. -/
def entry? (through : Nat → Bool) : Step ε → Option ε
  | register handle entry => if through handle then some entry else none
  | create _ | derive _ _ => none

end Step

/-- The number of handles made in some steps, which is the number of the next one. -/
def made (steps : List (Step ε)) : Nat := steps.countP Step.makesHandle

theorem made_singleton {step : Step ε} (h : step.makesHandle = true) : made [step] = 1 := by
  rw [made, List.countP_singleton, if_pos h]

/-- Whether a handle was made from another as a clone or a read-only view of it. -/
def Views (steps : List (Step ε)) (handle view : Nat) : Prop :=
  ∃ before how rest, steps = before ++ .derive handle how :: rest ∧ how ≠ .snapshot ∧
    view = made before

/-- Whether handles are connected by clones and read-only views. -/
def Linked (steps : List (Step ε)) : Nat → Nat → Prop := Relation.EqvGen (Views steps)

/-- The number of families so far, and the families of the handles. -/
structure Families where
  count : Nat
  members : List Nat

namespace Families

/-- A new handle starts a family, unless it is a view of another. -/
def after (families : Families) : Step ε → Families
  | .create _ | .derive _ .snapshot => ⟨families.count + 1, families.members ++ [families.count]⟩
  | .derive handle .clone | .derive handle .readOnly =>
    { families with members := families.members ++ [families.members.getD handle 0] }
  | .register _ _ => families

def afterAll (families : Families) (steps : List (Step ε)) : Families := steps.foldl after families

/-- Whether two handles are of one family. -/
def kin (families : Families) (i j : Nat) : Bool := families.members[i]? == families.members[j]?

end Families

/-- The families that some steps make. -/
def families (steps : List (Step ε)) : Families := Families.afterAll ⟨0, []⟩ steps

/-- The entries that are registered in later steps through a handle or one of its family. -/
def registered (steps : List (Step ε)) (handle : Nat) (later : List (Step ε)) : List ε :=
  later.filterMap (Step.entry? ((families steps).kin handle))

section Families

variable (families : Families) (step : Step ε)

theorem members_prefix_after : families.members <+: (families.after step).members := by
  rcases step with _ | ⟨_, _ | _ | _⟩ | _
  case register => exact List.prefix_refl _
  all_goals exact List.prefix_append _ _

theorem length_members_after :
    (families.after step).members.length = families.members.length + made [step] := by
  rcases step with _ | ⟨_, _ | _ | _⟩ | _
  case register => rfl
  all_goals exact List.length_append

variable (steps : List (Step ε))

theorem members_prefix_afterAll : families.members <+: (families.afterAll steps).members := by
  induction steps generalizing families with
  | nil => exact List.prefix_refl _
  | cons step steps ih => exact (members_prefix_after families step).trans (ih _)

theorem length_members_afterAll :
    (families.afterAll steps).members.length = families.members.length + made steps := by
  induction steps generalizing families with
  | nil => rfl
  | cons step steps ih =>
    have hmade : made ([step] ++ steps) = made [step] + made steps := List.countP_append
    change ((families.after step).afterAll steps).members.length = _
    rw [ih, length_members_after, Nat.add_assoc, ← hmade]
    rfl

theorem length_members : (Shelf.families steps).members.length = made steps := by
  rw [Shelf.families, length_members_afterAll]
  exact Nat.zero_add _

theorem families_append (before rest : List (Step ε)) :
    Shelf.families (before ++ rest) = (Shelf.families before).afterAll rest := by
  rw [Shelf.families, Families.afterAll, List.foldl_append]
  rfl

/-- A handle stays in its family. -/
theorem getElem?_members {families later : Families} (h : families.members <+: later.members)
    {i : Nat} (hi : i < families.members.length) : later.members[i]? = families.members[i]? := by
  obtain ⟨rest, hrest⟩ := h
  rw [← hrest, List.getElem?_append_left hi]

end Families

/-- Whether there is a table for every family, and every handle has the table of its family. -/
structure Housed (families : Families) (s : Shelf ε) : Prop where
  count : s.tables.size = families.count
  members : s.handles.toList.map Handle.table = families.members
  lt : ∀ family ∈ families.members, family < families.count

namespace Housed

variable {families : Families} {s : Shelf ε} (h : Housed families s)
include h

theorem member_of_handle {i : Nat} {handle : Handle} (hhandle : s.handles[i]? = some handle) :
    families.members[i]? = some handle.table := by
  rw [← h.members, List.getElem?_map, Array.getElem?_toList, hhandle]
  rfl

theorem table?_eq (i : Nat) : s.table? i = families.members[i]?.bind (s.tables[·]?) := by
  rw [← h.members, List.getElem?_map, Array.getElem?_toList, Option.bind_map]
  rfl

theorem length : families.members.length = s.handles.size := by
  rw [← h.members, List.length_map, Array.length_toList]

theorem table?_addTable (t : Table ε) :
    (s.addTable t).table? families.members.length = some t := by
  rw [h.length, Shelf.addTable, Shelf.table?, Array.getElem?_push_size]
  exact Array.getElem?_push_size

/-- Every handle has a table. -/
theorem exists_table {i : Nat} (hi : i < families.members.length) :
    ∃ family t, families.members[i]? = some family ∧ s.tables[family]? = some t ∧
      s.table? i = some t := by
  have hfamily := h.lt _ (List.getElem_mem hi)
  rw [← h.count] at hfamily
  have hmember := List.getElem?_eq_getElem hi
  have htable := Array.getElem?_eq_getElem hfamily
  refine ⟨_, _, hmember, htable, ?_⟩
  rw [h.table?_eq, hmember]
  exact htable

theorem addTable {step : Step ε} (hstep : families.after step =
      ⟨families.count + 1, families.members ++ [families.count]⟩) (t : Table ε) :
    Housed (families.after step) (s.addTable t) := by
  rw [hstep]
  refine ⟨?_, ?_, fun family hfamily => ?_⟩
  · rw [Shelf.addTable, Array.size_push, h.count]
  · rw [Shelf.addTable, Array.toList_push, List.map_append, h.members, h.count]
    rfl
  · rcases List.mem_append.mp hfamily with hfamily | hfamily
    · exact Nat.lt_succ_of_lt (h.lt family hfamily)
    · rw [List.mem_singleton.mp hfamily]
      exact Nat.lt_succ_self _

end Housed

section Moves

variable [Entry ε]

/-- Takes a step, if it can be taken: the handle is there, and it may be used that way. -/
def take? (s : Shelf ε) : Step ε → Option (Shelf ε)
  | .create caseSensitive => some (s.addTable (.empty caseSensitive))
  | .derive handle how => s.derive? handle how
  | .register handle entry => (s.registerAll? handle [entry]).map fun result => result.2.1

def after? (s : Shelf ε) (steps : List (Step ε)) : Option (Shelf ε) := steps.foldlM take? s

/-- Whether the handle of a step is there, and can be written to if the step asks for that. -/
def Allows (s : Shelf ε) : Step ε → Prop
  | .create _ => True
  | .derive handle how => ∃ h, s.handles[handle]? = some h ∧ (how = .snapshot → h.readOnly = false)
  | .register handle _ => ∃ h, s.handles[handle]? = some h ∧ h.readOnly = false

/-- All that a step can do. -/
inductive Move (s : Shelf ε) : Step ε → Shelf ε → Prop
  | create (caseSensitive : Bool) :
      Move s (.create caseSensitive) (s.addTable (.empty caseSensitive))
  | view {handle : Nat} {how : Derivation} {h : Handle} (hhow : how ≠ .snapshot)
      (hhandle : s.handles[handle]? = some h) (readOnly : Bool) :
      Move s (.derive handle how) { s with handles := s.handles.push ⟨h.table, readOnly⟩ }
  | snapshot {handle : Nat} {h : Handle} {t : Table ε} (hhandle : s.handles[handle]? = some h)
      (hwritable : h.readOnly = false) (htable : s.tables[h.table]? = some t) :
      Move s (.derive handle .snapshot) (s.addTable t)
  | register {handle : Nat} (entry : ε) {h : Handle} {t : Table ε}
      (hhandle : s.handles[handle]? = some h) (hwritable : h.readOnly = false)
      (htable : s.tables[h.table]? = some t) :
      Move s (.register handle entry)
        { s with tables := s.tables.setIfInBounds h.table (t.attempt entry) }

theorem registerAll_singleton (t : Table ε) (entry : ε) :
    (t.registerAll [entry]).2.1 = t.attempt entry := by
  unfold Table.registerAll Table.attempt
  cases t.register entry <;> rfl

theorem move_of_take? {s s' : Shelf ε} {step : Step ε} (h : s.take? step = some s') :
    Move s step s' := by
  cases step with
  | create caseSensitive =>
    cases h
    exact .create caseSensitive
  | derive handle how =>
    obtain ⟨h, hhandle, hderive⟩ := Option.bind_eq_some_iff.mp h
    cases how with
    | clone =>
      cases hderive
      exact .view Derivation.noConfusion hhandle _
    | readOnly =>
      cases hderive
      exact .view Derivation.noConfusion hhandle true
    | snapshot =>
      dsimp only at hderive
      split at hderive
      · cases hderive
      · rename_i hwritable
        obtain ⟨t, htable, heq⟩ := Option.bind_eq_some_iff.mp hderive
        cases heq
        exact .snapshot hhandle (Bool.eq_false_iff.mpr hwritable) htable
  | register handle entry =>
    obtain ⟨result, hresult, rfl⟩ := Option.map_eq_some_iff.mp h
    obtain ⟨t, htable, hresult⟩ := Option.bind_eq_some_iff.mp hresult
    have hattempt := registerAll_singleton t entry
    generalize t.registerAll [entry] = outcome at hattempt hresult
    obtain ⟨events, table, outcome⟩ := outcome
    obtain rfl : table = t.attempt entry := hattempt
    obtain ⟨next, hwrite, heq⟩ := Option.bind_eq_some_iff.mp hresult
    cases heq
    obtain ⟨h, hhandle, hwrite⟩ := Option.bind_eq_some_iff.mp hwrite
    have htable : s.tables[h.table]? = some t := by
      rw [table?, hhandle] at htable
      exact htable
    split at hwrite
    · cases hwrite
    · rename_i hwritable
      cases hwrite
      exact .register entry hhandle (Bool.eq_false_iff.mpr hwritable) htable

namespace Housed

variable {families : Families} {s s' : Shelf ε} (h : Housed families s)
include h

theorem move {step : Step ε} (hmove : Move s step s') : Housed (families.after step) s' := by
  cases hmove with
  | create => exact h.addTable rfl _
  | snapshot => exact h.addTable rfl _
  | @view handle how found hhow hhandle readOnly =>
    have hfamily := h.member_of_handle hhandle
    have hafter : families.after (.derive handle how : Step ε) =
        { families with members := families.members ++ [found.table] } := by
      cases how with
      | snapshot => exact (hhow rfl).elim
      | _ => rw [Families.after, List.getD_eq_getElem?_getD, hfamily, Option.getD_some]
    rw [hafter]
    refine ⟨h.count, ?_, fun family hmem => ?_⟩
    · rw [Array.toList_push, List.map_append, h.members]
      rfl
    · rcases List.mem_append.mp hmem with hmem | hmem
      · exact h.lt family hmem
      · rw [List.mem_singleton.mp hmem]
        exact h.lt _ (List.mem_of_getElem? hfamily)
  | register => exact ⟨Array.size_setIfInBounds.trans h.count, h.members, h.lt⟩

theorem isSome_take?_iff {step : Step ε} : (s.take? step).isSome = true ↔ s.Allows step := by
  have htables : ∀ {handle : Nat} {found : Handle}, s.handles[handle]? = some found →
      ∃ t, s.tables[found.table]? = some t := by
    intro handle found hhandle
    have hlt := h.lt _ (List.mem_of_getElem? (h.member_of_handle hhandle))
    exact ⟨_, Array.getElem?_eq_getElem (h.count.symm ▸ hlt)⟩
  constructor
  · intro hsome
    obtain ⟨next, hnext⟩ := Option.isSome_iff_exists.mp hsome
    cases move_of_take? hnext with
    | create => trivial
    | view hhow hhandle => exact ⟨_, hhandle, fun heq => absurd heq hhow⟩
    | snapshot hhandle hwritable => exact ⟨_, hhandle, fun _ => hwritable⟩
    | register entry hhandle hwritable => exact ⟨_, hhandle, hwritable⟩
  · intro hallows
    cases step with
    | create => rfl
    | derive handle how =>
      obtain ⟨found, hhandle, hwritable⟩ := hallows
      obtain ⟨t, htable⟩ := htables hhandle
      cases how with
      | clone | readOnly => simp [take?, derive?, hhandle]
      | snapshot => simp [take?, derive?, hhandle, hwritable rfl, htable]
    | register handle entry =>
      obtain ⟨found, hhandle, hwritable⟩ := hallows
      obtain ⟨t, htable⟩ := htables hhandle
      simp [take?, registerAll?, write?, table?, hhandle, hwritable, htable]

/-- A step changes what a handle sees only if something is registered through its family. -/
theorem table?_move {step : Step ε} (hmove : Move s step s') {through : Nat → Bool} {i : Nat}
    (hi : i < families.members.length)
    (hthrough : ∀ j < families.members.length, through j = families.kin i j) :
    ∃ t, s.table? i = some t ∧
      s'.table? i = some (t.attemptAll (step.entry? through).toList) := by
  obtain ⟨family, t, hfamily, htable, hsee⟩ := h.exists_table hi
  refine ⟨t, hsee, ?_⟩
  have hfamily' : (families.after step).members[i]? = some family := by
    rw [getElem?_members (members_prefix_after families step) hi, hfamily]
  rw [(h.move hmove).table?_eq, hfamily', Option.bind_some]
  obtain ⟨hlt, rfl⟩ := Array.getElem?_eq_some_iff.mp htable
  cases hmove with
  | create | snapshot => exact Array.getElem?_push_lt hlt
  | view => exact htable
  | @register handle entry found other hhandle hwritable hother =>
    have hmember := h.member_of_handle hhandle
    have hj : handle < families.members.length := (List.getElem?_eq_some_iff.mp hmember).1
    rw [Step.entry?, hthrough handle hj, Families.kin, hfamily, hmember]
    by_cases hsame : family = found.table
    · subst hsame
      cases htable.symm.trans hother
      rw [if_pos (beq_self_eq_true _)]
      exact Array.getElem?_setIfInBounds_self_of_lt hlt
    · rw [if_neg (by simpa using hsame)]
      exact (Array.getElem?_setIfInBounds_ne (Ne.symm hsame)).trans htable

end Housed

omit [Entry ε] in
theorem housed_empty : Housed ⟨0, []⟩ (empty : Shelf ε) := ⟨rfl, rfl, nofun⟩

theorem after?_cons {s s' : Shelf ε} {step : Step ε} {steps : List (Step ε)}
    (h : s.after? (step :: steps) = some s') :
    ∃ next, Move s step next ∧ next.after? steps = some s' := by
  obtain ⟨next, hnext, hrest⟩ := Option.bind_eq_some_iff.mp h
  exact ⟨next, move_of_take? hnext, hrest⟩

theorem after?_append {s s' : Shelf ε} {before rest : List (Step ε)}
    (h : s.after? (before ++ rest) = some s') :
    ∃ next, s.after? before = some next ∧ next.after? rest = some s' := by
  rw [after?, List.foldlM_append] at h
  exact Option.bind_eq_some_iff.mp h

theorem Housed.after {families : Families} {s s' : Shelf ε} {steps : List (Step ε)}
    (h : Housed families s) (hrun : s.after? steps = some s') :
    Housed (families.afterAll steps) s' := by
  induction steps generalizing families s with
  | nil =>
    cases hrun
    exact h
  | cons step steps ih =>
    obtain ⟨next, hmove, hrest⟩ := after?_cons hrun
    exact ih (h.move hmove) hrest

/-- Whatever is done, a handle sees its table with what was registered through its family. -/
theorem Housed.table?_after {families later : Families} {s s' : Shelf ε} {steps : List (Step ε)}
    (h : Housed families s) (hrun : s.after? steps = some s')
    (hlater : later = families.afterAll steps) {i : Nat} (hi : i < families.members.length) :
    ∃ t, s.table? i = some t ∧
      s'.table? i = some (t.attemptAll (steps.filterMap (Step.entry? (later.kin i)))) := by
  induction steps generalizing families s with
  | nil =>
    cases hrun
    obtain ⟨family, t, hfamily, htable, hsee⟩ := h.exists_table hi
    exact ⟨t, hsee, hsee⟩
  | cons step steps ih =>
    obtain ⟨next, hmove, hrest⟩ := after?_cons hrun
    have hprefix := members_prefix_after families step
    have hthrough : ∀ j < families.members.length, later.kin i j = families.kin i j := by
      intro j hj
      have hall : families.members <+: later.members :=
        hlater ▸ members_prefix_afterAll families (step :: steps)
      rw [Families.kin, Families.kin, getElem?_members hall hi, getElem?_members hall hj]
    obtain ⟨t, hsee, hnext⟩ := h.table?_move hmove hi hthrough
    obtain ⟨t', hsee', hafter⟩ := ih (h.move hmove) hrest hlater
      (Nat.lt_of_lt_of_le hi hprefix.length_le)
    cases hnext.symm.trans hsee'
    refine ⟨t, hsee, ?_⟩
    rw [hafter, Table.attemptAll, Table.attemptAll, Table.attemptAll, ← List.foldl_append]
    cases hentry : step.entry? (later.kin i) with
    | none => rw [List.filterMap_cons_none hentry]; rfl
    | some entry => rw [List.filterMap_cons_some hentry]; rfl

section Runs

variable {steps before rest : List (Step ε)} {step : Step ε} {s : Shelf ε}

theorem housed_of_after? (h : empty.after? steps = some s) : Housed (families steps) s :=
  housed_empty.after h

/-- What a run was like when one of its steps was taken. -/
theorem after?_split (h : empty.after? (before ++ step :: rest) = some s) :
    ∃ earlier next, empty.after? before = some earlier ∧ Housed (families before) earlier ∧
      Move earlier step next ∧ next.after? rest = some s := by
  obtain ⟨earlier, hearlier, hafter⟩ := after?_append h
  obtain ⟨next, hmove, hrest⟩ := after?_cons hafter
  exact ⟨earlier, next, hearlier, housed_of_after? hearlier, hmove, hrest⟩

omit [Entry ε] in
theorem families_split :
    families (before ++ step :: rest) = ((families before).after step).afterAll rest :=
  families_append before (step :: rest)

/-- A new handle on a table that is there sees what the other sees. -/
theorem Housed.table?_derive {families : Families} {next : Shelf ε} (h : Housed families s)
    {i : Nat} {how : Derivation} (hmove : Move s (.derive i how) next) :
    ∃ t, s.table? i = some t ∧ next.table? families.members.length = some t := by
  cases hmove with
  | @view _ _ found hhow hhandle readOnly =>
    have hmember := h.member_of_handle hhandle
    have hi := (List.getElem?_eq_some_iff.mp hmember).1
    obtain ⟨family, t, hfamily, htable, hsee⟩ := h.exists_table hi
    cases hmember.symm.trans hfamily
    refine ⟨t, hsee, ?_⟩
    rw [h.length, Shelf.table?, Array.getElem?_push_size]
    exact htable
  | snapshot hhandle hwritable htable =>
    refine ⟨_, ?_, h.table?_addTable _⟩
    rw [Shelf.table?, hhandle]
    exact htable

/-- What a new handle sees later is what it saw at first with what was registered through its
family. -/
theorem table?_of_new {next : Shelf ε} {t : Table ε} (hhoused : Housed (families before) s)
    (hmove : Move s step next) (hmakes : step.makesHandle = true)
    (hnew : next.table? (made before) = some t) {later : Shelf ε}
    (hrest : next.after? rest = some later) :
    later.table? (made before) =
      some (t.attemptAll (registered (before ++ step :: rest) (made before) rest)) := by
  have hlt : made before < ((families before).after step).members.length := by
    rw [length_members_after, length_members, made_singleton hmakes]
    exact Nat.lt_succ_self _
  obtain ⟨t', hnew', hlater⟩ :=
    (hhoused.move hmove).table?_after hrest families_split hlt
  cases hnew.symm.trans hnew'
  exact hlater

end Runs

section Links

variable {steps : List (Step ε)} {s : Shelf ε} {i j : Nat}

omit [Entry ε] in
theorem Linked.append (h : Linked steps i j) (rest : List (Step ε)) :
    Linked (steps ++ rest) i j := by
  refine Relation.EqvGen.mono ?_ i j h
  rintro handle view ⟨before, how, after, rfl, hhow, hview⟩
  exact ⟨before, how, after ++ rest, by simp, hhow, hview⟩

/-- A view is of the family of the handle that it was made from. -/
theorem Housed.members_view {families : Families} {next : Shelf ε} (h : Housed families s)
    {how : Derivation} (hhow : how ≠ .snapshot) (hmove : Move s (.derive i how) next) :
    i < families.members.length ∧
      (families.after (.derive i how : Step ε)).members[families.members.length]? =
        families.members[i]? := by
  cases hmove with
  | snapshot => exact (hhow rfl).elim
  | @view _ _ found _ hhandle readOnly =>
    have hmember := h.member_of_handle hhandle
    refine ⟨(List.getElem?_eq_some_iff.mp hmember).1, ?_⟩
    have hafter : (families.after (.derive i how : Step ε)).members =
        families.members ++ [families.members.getD i 0] := by
      cases how with
      | snapshot => exact (hhow rfl).elim
      | clone | readOnly => rfl
    rw [hafter, List.getElem?_concat_length, List.getD_eq_getElem?_getD, hmember]
    rfl

omit [Entry ε] in
/-- A handle that is no view starts a family of its own. -/
theorem Housed.members_new {families : Families} {step : Step ε} (h : Housed families s)
    (hstep : families.after step = ⟨families.count + 1, families.members ++ [families.count]⟩)
    (hi : i < families.members.length) :
    (families.after step).members[i]? ≠ (families.after step).members[families.members.length]? := by
  rw [hstep, List.getElem?_concat_length, List.getElem?_append_left hi,
    List.getElem?_eq_getElem hi]
  exact fun heq => Nat.ne_of_lt (h.lt _ (List.getElem_mem hi)) (Option.some.inj heq)

/-- Linked handles are of one family. -/
theorem Linked.kin (h : Linked steps i j) (hrun : empty.after? steps = some s) :
    (families steps).members[i]? = (families steps).members[j]? := by
  induction h with
  | refl => rfl
  | symm _ _ _ ih => exact ih.symm
  | trans _ _ _ _ _ ih ih' => exact ih.trans ih'
  | rel handle view hviews =>
    obtain ⟨before, how, rest, rfl, hhow, rfl⟩ := hviews
    obtain ⟨earlier, next, -, hhoused, hmove, -⟩ := after?_split hrun
    obtain ⟨hhandle, hmember⟩ := hhoused.members_view hhow hmove
    have hstep := members_prefix_after (families before) (.derive handle how : Step ε)
    have hrest := members_prefix_afterAll
      ((families before).after (.derive handle how : Step ε)) rest
    have hview : made before <
        ((families before).after (.derive handle how : Step ε)).members.length := by
      rw [length_members_after, length_members, made_singleton rfl]
      exact Nat.lt_succ_self _
    rw [families_split, getElem?_members (hstep.trans hrest) hhandle, getElem?_members hrest hview,
      ← length_members, hmember]

/-- Handles of one family are linked. -/
theorem linked_of_kin (hrun : empty.after? steps = some s) (hi : i < made steps)
    (hj : j < made steps)
    (hkin : (families steps).members[i]? = (families steps).members[j]?) : Linked steps i j := by
  induction steps using List.reverseRecOn generalizing s i j with
  | nil => cases hi
  | append_singleton before step ih =>
    obtain ⟨earlier, next, hearlier, hhoused, hmove, -⟩ := after?_split hrun
    rw [families_split] at hkin
    change ((families before).after step).members[i]? =
      ((families before).after step).members[j]? at hkin
    have hkept : ∀ {k}, k < made before →
        ((families before).after step).members[k]? = (families before).members[k]? :=
      fun hk => getElem?_members (members_prefix_after _ step) (length_members before ▸ hk)
    have hold : ∀ {i j}, i < made before → j < made before →
        ((families before).after step).members[i]? =
          ((families before).after step).members[j]? → Linked (before ++ [step]) i j := by
      intro i j hi hj hkin
      rw [hkept hi, hkept hj] at hkin
      exact (ih hearlier hi hj hkin).append [step]
    -- A new handle is of a family that is there only if it is a view of a handle in it.
    have hnew : ∀ {k}, k < made before →
        ((families before).after step).members[k]? =
          ((families before).after step).members[made before]? →
        step.makesHandle = true → Linked (before ++ [step]) k (made before) := by
      intro k hk hnewkin hmakes
      have hlength : k < (families before).members.length := length_members before ▸ hk
      rw [← length_members] at hnewkin
      cases hmove with
      | create | snapshot => exact (hhoused.members_new rfl hlength hnewkin).elim
      | register => cases hmakes
      | @view handle how found hhow hhandle readOnly =>
        obtain ⟨hlt, hmember⟩ := hhoused.members_view hhow (.view hhow hhandle readOnly)
        rw [length_members] at hlt
        rw [hmember, ← hkept hlt] at hnewkin
        exact (hold hk hlt hnewkin).trans _ _ _ (.rel _ _ ⟨before, how, [], rfl, hhow, rfl⟩)
    have hmade : made (before ++ [step]) = made before + made [step] := List.countP_append
    by_cases hmakes : step.makesHandle = true
    · rw [hmade, made_singleton hmakes] at hi hj
      rcases Nat.lt_succ_iff_lt_or_eq.mp hi with hi | rfl
      · rcases Nat.lt_succ_iff_lt_or_eq.mp hj with hj | rfl
        · exact hold hi hj hkin
        · exact hnew hi hkin hmakes
      · rcases Nat.lt_succ_iff_lt_or_eq.mp hj with hj | rfl
        · exact (hnew hj hkin.symm hmakes).symm _ _
        · exact .refl _
    · have hnone : made [step] = 0 := by
        rw [made, List.countP_singleton, if_neg hmakes]
      rw [hmade, hnone] at hi hj
      exact hold hi hj hkin

end Links

omit [Entry ε] in
/-- A handle of the family of another sees the same table. -/
theorem Housed.table?_congr {families : Families} {s : Shelf ε} (h : Housed families s) {i j : Nat}
    (hkin : families.members[i]? = families.members[j]?) : s.table? i = s.table? j := by
  rw [h.table?_eq, h.table?_eq, hkin]

/-- In whatever order handles are made and used, those that clones and read-only views connect see
one table, and a snapshot shares only what was there when it was taken. -/
theorem handles_share_or_isolate {steps : List (Step ε)} {s : Shelf ε}
    (hrun : empty.after? steps = some s) :
    (∀ step, (s.take? step).isSome = true ↔ s.Allows step) ∧
    (∀ i j, i < made steps → j < made steps →
      (Linked steps i j ↔ (families steps).kin i j = true)) ∧
    (∀ i j, Linked steps i j → s.table? i = s.table? j) ∧
    -- At any time, what a handle sees later is what it sees with what its family registers.
    (∀ before rest, steps = before ++ rest → ∃ earlier, empty.after? before = some earlier ∧
      ∀ i < made before, ∃ t, earlier.table? i = some t ∧
        s.table? i = some (t.attemptAll (registered steps i rest))) ∧
    (∀ before caseSensitive rest, steps = before ++ .create caseSensitive :: rest →
      s.table? (made before) = some ((Table.empty caseSensitive).attemptAll
        (registered steps (made before) rest))) ∧
    -- A derived handle starts with what the other one sees.
    ∀ before i how rest, steps = before ++ .derive i how :: rest →
      ∃ earlier t t', empty.after? before = some earlier ∧ earlier.table? i = some t ∧
        s.table? (made before) = some t' ∧
        t' = t.attemptAll (registered steps (made before) rest) ∧
        t'.caseSensitive = t.caseSensitive ∧
        (how = .snapshot → ∀ j < made before, ¬Linked steps (made before) j) ∧
        (∀ name, t'.get? name = (Table.lastNamed? t.caseSensitive name
          (t.accepted (registered steps (made before) rest))).or (t.get? name)) ∧
        ∀ name existing, t.get? name = some existing → Entry.overwritable existing = false →
          t'.get? name = some existing ∧
            ∀ entry, Text.isName (Entry.name entry) = true →
              t'.key (Entry.name entry) = t'.key name →
              t'.register entry = .error (.notOverwritable (Entry.name entry)) := by
  refine ⟨fun step => (housed_of_after? hrun).isSome_take?_iff, fun i j hi hj => ?_,
    fun i j hlinked => ?_, ?_, ?_, ?_⟩
  · rw [Families.kin, beq_iff_eq]
    exact ⟨fun hlinked => hlinked.kin hrun, linked_of_kin hrun hi hj⟩
  · exact (housed_of_after? hrun).table?_congr (hlinked.kin hrun)
  · rintro before rest rfl
    obtain ⟨earlier, hearlier, hrest⟩ := after?_append hrun
    refine ⟨earlier, hearlier, fun i hi => ?_⟩
    exact (housed_of_after? hearlier).table?_after hrest (families_append before rest)
      (length_members before ▸ hi)
  · rintro before caseSensitive rest rfl
    obtain ⟨earlier, next, -, hhoused, hmove, hrest⟩ := after?_split hrun
    refine table?_of_new hhoused hmove rfl ?_ hrest
    cases hmove with
    | create =>
      rw [← length_members]
      exact hhoused.table?_addTable _
  · rintro before i how rest rfl
    obtain ⟨earlier, next, hearlier, hhoused, hmove, hrest⟩ := after?_split hrun
    obtain ⟨t, hsee, hnew⟩ := hhoused.table?_derive hmove
    rw [length_members] at hnew
    refine ⟨earlier, t, _, hearlier, hsee, table?_of_new hhoused hmove rfl hnew hrest, rfl,
      t.caseSensitive_attemptAll _, ?_, t.get?_attemptAll _, fun name existing hget hprotected => ?_⟩
    · rintro rfl j hj hlinked
      have hprefix := members_prefix_afterAll
        ((families before).after (.derive i .snapshot : Step ε)) rest
      have hold : j < (families before).members.length := length_members before ▸ hj
      have hlength := length_members_after (families before) (.derive i .snapshot : Step ε)
      have hkin := hlinked.kin hrun
      rw [families_split, ← length_members,
        getElem?_members hprefix (by rw [hlength, made_singleton rfl]; exact Nat.lt_succ_self _),
        getElem?_members hprefix (by rw [hlength]; exact Nat.lt_add_right _ hold)] at hkin
      exact hhoused.members_new rfl hold hkin.symm
    · have hkept := Table.get?_attemptAll_of_protected hget hprotected
        (registered (before ++ .derive i how :: rest) (made before) rest)
      refine ⟨hkept, fun entry hname hkey => ?_⟩
      exact Table.register_eq_notOverwritable hname ((Table.get?_congr hkey).trans hkept) hprotected

/-- Two handles on one table and two on a snapshot of it, which keeps the constant of the table that
may not be overwritten. -/
theorem handles_share_or_isolate_constants :
    let before : List (Step Constant) :=
      [.create true, .register 0 ⟨"pi", 3, false⟩, .derive 0 .clone]
    let rest : List (Step Constant) := [.derive 2 .readOnly, .register 1 ⟨"tau", 6, true⟩,
      .register 2 ⟨"phi", 2, true⟩]
    let shared : Table Constant := (Table.empty true).attemptAll [⟨"pi", 3, false⟩]
    ∃ s, empty.after? (before ++ .derive 1 .snapshot :: rest) = some s ∧
      s.table? 0 = s.table? 1 ∧ s.table? 1 = some (shared.attemptAll [⟨"tau", 6, true⟩]) ∧
      s.table? 3 = s.table? 2 ∧ s.table? 2 = some (shared.attemptAll [⟨"phi", 2, true⟩]) := by
  intro before rest shared
  obtain ⟨s, hrun⟩ : ∃ s, empty.after? (before ++ .derive 1 .snapshot :: rest) = some s := ⟨_, rfl⟩
  obtain ⟨-, hlinked, hsame, -, hcreated, hderived⟩ := handles_share_or_isolate hrun
  obtain ⟨earlier, t, t', hearlier, hsee, hsnapshot, ht', -⟩ :=
    hderived before 1 .snapshot rest rfl
  have h01 := hsame 0 1 ((hlinked 0 1 (by decide) (by decide)).mpr rfl)
  have h32 := hsame 3 2 ((hlinked 3 2 (by decide) (by decide)).mpr rfl)
  have hshared : t = shared := by
    obtain ⟨-, hlinked, hsame, -, hcreated, -⟩ := handles_share_or_isolate hearlier
    have hcreated := hcreated [] true _ rfl
    rw [hsame 1 0 ((hlinked 1 0 (by decide) (by decide)).mpr rfl)] at hsee
    exact Option.some.inj (hsee.symm.trans hcreated)
  refine ⟨s, hrun, h01, h01.symm.trans (hcreated [] true _ rfl), h32, ?_⟩
  subst hshared ht'
  exact hsnapshot

end Moves

end Shelf

end FormulaEngine
