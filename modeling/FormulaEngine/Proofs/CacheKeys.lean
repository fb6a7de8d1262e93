import FormulaEngine.Engine
import FormulaEngine.Proofs.NumeralText
import Mathlib.Data.List.Basic

/-!
Keys of the cache. A formula without constants of its own is kept under its text, any other under
its text with the names and values of its constants. Two formulas have one key only if they are
made from the same, as long as no text that stands alone has the mark in it that comes before the
constants, and values with the same text are the same.
-/
namespace FormulaEngine

/-- A character that stands between two texts decides where the first one ends. -/
theorem eq_of_append_cons_eq {c : Char} {before before' after after' : List Char}
    (hbefore : c ∉ before) (hbefore' : c ∉ before')
    (h : before ++ c :: after = before' ++ c :: after') : before = before' ∧ after = after' := by
  induction before generalizing before' with
  | nil =>
    cases before' with
    | nil => exact ⟨rfl, (List.cons.inj h).2⟩
    | cons d before' =>
      obtain ⟨rfl, -⟩ := List.cons.inj h
      exact (hbefore' List.mem_cons_self).elim
  | cons d before ih =>
    cases before' with
    | nil =>
      obtain ⟨rfl, -⟩ := List.cons.inj h
      exact (hbefore List.mem_cons_self).elim
    | cons d' before' =>
      obtain ⟨rfl, hrest⟩ := List.cons.inj h
      obtain ⟨rfl, rfl⟩ := ih (fun hc => hbefore (List.mem_cons_of_mem d hc))
        (fun hc => hbefore' (List.mem_cons_of_mem d hc)) hrest
      exact ⟨rfl, rfl⟩

/-- The last of a character divides a text if none comes after it. -/
theorem eq_of_append_cons_eq_last {c : Char} {before before' after after' : List Char}
    (hafter : c ∉ after) (hafter' : c ∉ after')
    (h : before ++ c :: after = before' ++ c :: after') : before = before' ∧ after = after' := by
  have hreverse := congrArg List.reverse h
  simp only [List.reverse_append, List.reverse_cons, List.append_assoc,
    List.singleton_append] at hreverse
  obtain ⟨hlast, hfirst⟩ := eq_of_append_cons_eq (by simpa using hafter) (by simpa using hafter')
    hreverse
  exact ⟨List.reverse_inj.mp hfirst, List.reverse_inj.mp hlast⟩

theorem not_mem_intercalate {c separator : Char} (hc : c ≠ separator) {texts : List (List Char)}
    (h : ∀ text ∈ texts, c ∉ text) : c ∉ [separator].intercalate texts := by
  induction texts with
  | nil => exact List.not_mem_nil
  | cons text texts ih =>
    rw [List.forall_mem_cons] at h
    cases texts with
    | nil => simpa using h.1
    | cons next texts =>
      rw [List.intercalate_cons_cons]
      simpa [hc, h.1] using ih h.2

/-- Texts that are not empty can be told apart where they are joined. -/
theorem eq_of_intercalate_eq {separator : Char} {texts texts' : List (List Char)}
    (h : ∀ text ∈ texts, separator ∉ text ∧ text ≠ [])
    (h' : ∀ text ∈ texts', separator ∉ text ∧ text ≠ [])
    (heq : [separator].intercalate texts = [separator].intercalate texts') : texts = texts' := by
  have hsplit : ∀ {texts : List (List Char)}, (∀ text ∈ texts, separator ∉ text ∧ text ≠ []) →
      texts ≠ [] → ([separator].intercalate texts).splitOn separator = texts :=
    fun h hne => List.splitOn_intercalate separator (fun text htext => (h text htext).1) hne
  have hempty : ∀ {texts : List (List Char)}, (∀ text ∈ texts, separator ∉ text ∧ text ≠ []) →
      [separator].intercalate texts = [] → texts = [] := by
    intro texts h hnone
    refine Decidable.byContradiction fun hne => ?_
    have hsingle := hsplit h hne
    rw [hnone, List.splitOn_nil] at hsingle
    exact (h [] (hsingle ▸ List.mem_singleton_self [])).2 rfl
  by_cases hne : texts = []
  · subst hne
    exact (hempty h' heq.symm).symm
  · have hne' : texts' ≠ [] := fun hnone => hne (hempty h (by rw [heq, hnone]; rfl))
    rw [← hsplit h hne, heq, hsplit h' hne']

namespace Decimal.Notation

/-- The characters of plain texts. -/
def IsPlain (c : Char) : Prop := c.isDigit = true ∨ c ∈ ['.', '-', 'N', 'a', 'i', 'n', 'f']

theorem isPlain_positional (d : Decimal) : ∀ c ∈ plain.positionalText d, IsPlain c := by
  have hdigits : ∀ c ∈ Nat.toDigits 10 d.significand, IsPlain c :=
    fun c hc => .inl (isDigit_of_mem_toDigits hc)
  have hzeros : ∀ count, ∀ c ∈ zeros count, IsPlain c :=
    fun count c hc => .inl (isDigit_of_mem_zeros count c hc)
  unfold positionalText
  dsimp only
  split
  · rw [plain, List.append_nil, List.forall_mem_append]
    exact ⟨hdigits, hzeros _⟩
  split
  · rw [List.forall_mem_append, List.forall_mem_cons]
    exact ⟨fun c hc => hdigits c (List.mem_of_mem_take hc), .inr (by decide),
      fun c hc => hdigits c (List.mem_of_mem_drop hc)⟩
  · rw [List.forall_mem_append, List.forall_mem_append]
    have hzero : IsPlain '0' := .inl (by decide)
    have hpoint : IsPlain '.' := .inr (by decide)
    exact ⟨⟨List.forall_mem_cons.mpr ⟨hzero, List.forall_mem_singleton.mpr hpoint⟩, hzeros _⟩,
      hdigits⟩

theorem isPlain_text (x : Float) : ∀ c ∈ plain.text x, IsPlain c := by
  have hletter : ∀ c ∈ ['.', '-', 'N', 'a', 'i', 'n', 'f'], IsPlain c := fun c hc => .inr hc
  have hunsigned : ∀ c ∈ plain.unsignedText x, IsPlain c := by
    unfold unsignedText
    dsimp only
    split
    · exact List.forall_mem_singleton.mpr (.inl (by decide))
    · exact isPlain_positional _
  have hsize : ∀ c ∈ (if x.isInf then ['i', 'n', 'f'] else plain.unsignedText x), IsPlain c := by
    split
    · exact fun c hc => hletter c (List.mem_of_mem_drop (i := 4) hc)
    · exact hunsigned
  unfold text
  split
  · have hN := hletter 'N' (by decide)
    have ha := hletter 'a' (by decide)
    exact List.forall_mem_cons.mpr ⟨hN,
      List.forall_mem_cons.mpr ⟨ha, List.forall_mem_singleton.mpr hN⟩⟩
  · dsimp only
    split
    · exact List.forall_mem_cons.mpr ⟨hletter '-' (by decide), hsize⟩
    · exact hsize

end Decimal.Notation

/-- What a formula is made from: its text, and constants of its own if it has any. -/
inductive Source
  | plain (formula : String)
  | withConstants (formula : String) (constants : Bindings)

namespace Source

open Decimal

/-- The key under which the formula is kept. -/
def key : Source → String
  | plain formula => formula
  | withConstants formula constants => Engine.constantsKey formula constants

/-- Whether the key can be read back. The values of constants are among the given ones. -/
def Readable (values : List Float) : Source → Prop
  | plain formula => '@' ∉ formula.toList
  | withConstants _ constants =>
    ∀ constant ∈ constants, Text.isName constant.1 = true ∧ constant.2 ∈ values

/-- A constant as it is written in a key. -/
def constantText (constant : String × Float) : List Char :=
  constant.1.toList ++ ':' :: Notation.plain.text constant.2

theorem toList_constantsKey (formula : String) (constants : Bindings) :
    (Engine.constantsKey formula constants).toList =
      formula.toList ++ '@' :: [','].intercalate (constants.map constantText) := by
  have hconstant : ∀ constant : String × Float,
      (constant.1 ++ ":" ++ String.ofList (Notation.plain.text constant.2)).toList =
        constantText constant := by
    intro constant
    simp [constantText]
  simp only [Engine.constantsKey, String.toList_append, String.toList_intercalate, List.map_map]
  rw [List.append_assoc]
  exact congrArg (fun texts => formula.toList ++ '@' :: [','].intercalate texts)
    (List.map_congr_left fun constant _ => hconstant constant)

/-- The marks between the parts of a key are not in the text of a constant with a proper name, nor
is a bracket. -/
theorem not_mem_constantText {constant : String × Float} (h : Text.isName constant.1 = true)
    {c : Char} (hc : c = '@' ∨ c = ',' ∨ c = ')') : c ∉ constantText constant := by
  rw [constantText, List.mem_append, List.mem_cons]
  rintro (hname | hcolon | hvalue)
  · have hpart := Text.isNamePart_of_isName h c hname
    rcases hc with rfl | rfl | rfl <;> revert hpart <;> decide
  · rcases hc with rfl | rfl | rfl <;> revert hcolon <;> decide
  · have hplain := Notation.isPlain_text _ c hvalue
    rcases hc with rfl | rfl | rfl <;> revert hplain <;> simp [Notation.IsPlain]

/-- The text of a constant with a proper name tells its name, and how its value is written. -/
theorem eq_of_constantText_eq {constant constant' : String × Float}
    (h : Text.isName constant.1 = true) (h' : Text.isName constant'.1 = true)
    (heq : constantText constant = constantText constant') :
    constant.1 = constant'.1 ∧
      Notation.plain.text constant.2 = Notation.plain.text constant'.2 := by
  have hcolon : ∀ {name : String}, Text.isName name = true → ':' ∉ name.toList := by
    intro name hname hmem
    have hpart := Text.isNamePart_of_isName hname ':' hmem
    revert hpart
    decide
  exact (eq_of_append_cons_eq (hcolon h) (hcolon h') heq).imp_left String.toList_injective

/-- Keys with constants that have proper names tell the formula and the texts of the constants. -/
theorem eq_of_constantsKey_eq {formula formula' : String} {constants constants' : Bindings}
    (h : ∀ constant ∈ constants, Text.isName constant.1 = true)
    (h' : ∀ constant ∈ constants', Text.isName constant.1 = true)
    (hkey : Engine.constantsKey formula constants = Engine.constantsKey formula' constants') :
    formula = formula' ∧ constants.map constantText = constants'.map constantText := by
  have htexts : ∀ {constants : Bindings},
      (∀ constant ∈ constants, Text.isName constant.1 = true) →
      (∀ text ∈ constants.map constantText, '@' ∉ text) ∧
        ∀ text ∈ constants.map constantText, ',' ∉ text ∧ text ≠ [] := by
    intro constants h
    constructor <;> intro text htext <;>
      obtain ⟨constant, hconstant, rfl⟩ := List.mem_map.mp htext
    · exact not_mem_constantText (h constant hconstant) (.inl rfl)
    · exact ⟨not_mem_constantText (h constant hconstant) (.inr (.inl rfl)), by simp [constantText]⟩
  have heq := congrArg String.toList hkey
  rw [toList_constantsKey, toList_constantsKey] at heq
  obtain ⟨hformula, hconstants⟩ := eq_of_append_cons_eq_last
    (not_mem_intercalate (by decide) (htexts h).1)
    (not_mem_intercalate (by decide) (htexts h').1) heq
  exact ⟨String.toList_injective hformula,
    eq_of_intercalate_eq (htexts h).2 (htexts h').2 hconstants⟩

variable {values : List Float}
  (hvalues : ∀ x ∈ values, ∀ y ∈ values, Notation.plain.text x = Notation.plain.text y → x = y)
include hvalues

theorem eq_of_map_constantText_eq {constants constants' : Bindings}
    (h : ∀ constant ∈ constants, Text.isName constant.1 = true ∧ constant.2 ∈ values)
    (h' : ∀ constant ∈ constants', Text.isName constant.1 = true ∧ constant.2 ∈ values)
    (heq : constants.map constantText = constants'.map constantText) : constants = constants' := by
  induction constants generalizing constants' with
  | nil => exact (List.map_eq_nil_iff.mp heq.symm).symm
  | cons constant constants ih =>
    obtain ⟨constant', rest', rfl, hfirst, hrest⟩ := List.map_eq_cons_iff.mp heq.symm
    rw [List.forall_mem_cons] at h h'
    obtain ⟨hname, hvalue⟩ := eq_of_constantText_eq h.1.1 h'.1.1 hfirst.symm
    have hconstant : constant = constant' := Prod.ext hname (hvalues _ h.1.2 _ h'.1.2 hvalue)
    rw [hconstant, ih h.2 h'.2 hrest.symm]

/-- Sources whose keys can be read back are told apart by their keys. -/
theorem eq_of_key_eq {source source' : Source} (h : source.Readable values)
    (h' : source'.Readable values) (hkey : source.key = source'.key) : source = source' := by
  have hmark : ∀ formula constants, '@' ∈ (Engine.constantsKey formula constants).toList := by
    intro formula constants
    rw [toList_constantsKey]
    exact List.mem_append_right _ List.mem_cons_self
  cases source with
  | plain formula =>
    cases source' with
    | plain formula' => exact congrArg plain hkey
    | withConstants formula' constants' =>
      have hkey' : formula = Engine.constantsKey formula' constants' := hkey
      exact (h (hkey' ▸ hmark formula' constants')).elim
  | withConstants formula constants =>
    cases source' with
    | plain formula' =>
      have hkey' : Engine.constantsKey formula constants = formula' := hkey
      exact (h' (hkey' ▸ hmark formula constants)).elim
    | withConstants formula' constants' =>
      obtain ⟨rfl, hconstants⟩ := eq_of_constantsKey_eq (fun constant hmem => (h constant hmem).1)
        (fun constant hmem => (h' constant hmem).1) hkey
      rw [eq_of_map_constantText_eq hvalues h h' hconstants]

end Source

end FormulaEngine
