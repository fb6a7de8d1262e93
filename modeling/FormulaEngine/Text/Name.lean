/-!
Names of functions, constants and variables. A registered name is an ASCII
letter followed by ASCII letters, digits and underscores; where letter case does
not matter, names are compared by their lower-case form.
-/
namespace FormulaEngine.Text

def isNameStart (c : Char) : Bool := c.isAlpha

def isNamePart (c : Char) : Bool := c.isAlphanum || c == '_'

def isName (name : String) : Bool :=
  match name.toList with
  | [] => false
  | c :: rest => isNameStart c && rest.all isNamePart

theorem isNamePart_of_isNameStart {c : Char} (h : isNameStart c = true) : isNamePart c = true := by
  have hletter : c.isAlpha = true := h
  rw [isNamePart, Char.isAlphanum, hletter]
  rfl

theorem isNamePart_of_isName {name : String} (h : isName name = true) :
    ∀ c ∈ name.toList, isNamePart c = true := by
  unfold isName at h
  cases hname : name.toList with
  | nil => nofun
  | cons c rest =>
    rw [hname] at h
    obtain ⟨hstart, hrest⟩ := Bool.and_eq_true_iff.mp h
    exact List.forall_mem_cons.mpr
      ⟨isNamePart_of_isNameStart hstart, List.all_eq_true.mp hrest⟩

/-- The lower-case form of a character. Only forms inside ASCII are needed, since every name that
can be looked up is ASCII: these are the forms of the ASCII capitals and of the Kelvin sign. -/
def lowerChar (c : Char) : Char :=
  if c = '\u212a' then 'k' else c.toLower

def lower (name : String) : String := name.map lowerChar

/-- The form under which a name is stored and looked up. -/
def nameKey (caseSensitive : Bool) (name : String) : String :=
  if caseSensitive then name else lower name

private theorem toLower_eq_or (c : Char) :
    c.toLower = c ∨ (97 ≤ c.toLower.toNat ∧ c.toLower.toNat ≤ 122) := by
  unfold Char.toLower
  split
  · rename_i h
    have hA : 'A'.val.toNat = 65 := rfl
    have hZ : 'Z'.val.toNat = 90 := rfl
    have hstep : ('a'.val - 'A'.val).toNat = 32 := rfl
    simp only [ge_iff_le, UInt32.le_iff_toNat_le] at h
    have hsum : (c.val + ('a'.val - 'A'.val)).toNat = c.val.toNat + 32 := by
      rw [UInt32.toNat_add]
      omega
    right
    simp only [Char.toNat]
    omega
  · exact Or.inl rfl

private theorem toLower_of_lower (c : Char) (h : 97 ≤ c.toNat ∧ c.toNat ≤ 122) :
    c.toLower = c := by
  have hZ : 'Z'.val.toNat = 90 := rfl
  unfold Char.toLower
  rw [dif_neg]
  simp only [Char.toNat] at h
  simp only [ge_iff_le, UInt32.le_iff_toNat_le]
  omega

theorem lowerChar_lowerChar (c : Char) : lowerChar (lowerChar c) = lowerChar c := by
  unfold lowerChar
  by_cases h : c = '\u212a'
  · subst h; decide
  · rcases toLower_eq_or c with hl | hl
    · simp [h, hl]
    · have hk : c.toLower ≠ '\u212a' := by
        intro hc
        rw [hc] at hl
        exact absurd hl (by decide)
      simp [h, hk, toLower_of_lower _ hl]

theorem lower_lower (name : String) : lower (lower name) = lower name := by
  apply String.toList_injective
  simp [lower, lowerChar_lowerChar]

theorem nameKey_nameKey (caseSensitive : Bool) (name : String) :
    nameKey caseSensitive (nameKey caseSensitive name) = nameKey caseSensitive name := by
  cases caseSensitive
  · exact lower_lower name
  · rfl

end FormulaEngine.Text
