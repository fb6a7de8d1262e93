import FormulaEngine.Proofs.TokenConservation

/-!
The size of what is parsed. Every node of a tree comes from a token of its own, and every
token takes a character of its own, so a tree has no more nodes than its formula has
characters.
-/
namespace FormulaEngine

/-- Every node is either a leaf or an inner node. -/
theorem Node.length_filter_add_length_filterMap (nodes : List Node) :
    (nodes.filter Node.isLeaf).length + (nodes.filterMap Node.inner?).length = nodes.length := by
  induction nodes with
  | nil => rfl
  | cons node nodes ih =>
    cases node <;>
      simp [Node.isLeaf, Node.inner?, List.filter_cons, List.filterMap_cons] <;> omega

/-- No token stands for a leaf and an inner node. -/
theorem TokenKind.length_filterMap_add_length_filterMap_le (v : Vocabulary)
    (kinds : List TokenKind) :
    (kinds.filterMap (TokenKind.leaf? v)).length + (kinds.filterMap (TokenKind.inner? v)).length ≤
      kinds.length := by
  induction kinds with
  | nil => exact Nat.le_refl 0
  | cons kind kinds ih =>
    have hkind : kind.leaf? v = none ∨ kind.inner? v = none := by
      cases kind with
      | name text => cases h : v.function? text <;> simp [leaf?, inner?, h]
      | operator | leftBracket | rightBracket | separator => exact .inl rfl
      | integer | float => exact .inr rfl
    have hleaf := List.length_filterMap_le (TokenKind.leaf? v) [kind]
    have hinner := List.length_filterMap_le (TokenKind.inner? v) [kind]
    rcases hkind with hnone | hnone
    · rw [List.filterMap_cons_none hnone, ← List.singleton_append, List.filterMap_append]
      simp only [List.length_append, List.length_singleton] at hinner ⊢
      omega
    · rw [List.filterMap_cons_none hnone, ← List.singleton_append, List.filterMap_append]
      simp only [List.length_append, List.length_singleton] at hleaf ⊢
      omega

theorem Token.length_scanFrom_le {locale : Locale} {position : Nat} {operandExpected : Bool}
    {done tokens : List Token} {text : List Char}
    (h : scanFrom locale position operandExpected done text = .ok tokens) :
    tokens.length ≤ done.length + text.length := by
  fun_induction scanFrom locale position operandExpected done text with
  | case1 position operandExpected done =>
    cases h
    simp
  | case2 position operandExpected done c rest hblank ih =>
    have := ih h
    simp only [List.length_cons]
    omega
  | case3 => cases h
  | case4 position operandExpected done c rest hblank kind length hscan ih =>
    have := ih h
    simp only [List.length_cons, List.length_drop] at this ⊢
    omega

/-- A parsed tree has no more nodes than its formula has characters. -/
theorem Tree.length_postorder_le_of_parse {locale : Locale} {v : Vocabulary} {text : String}
    {t : Tree} (h : parse locale v text = .ok t) : t.postorder.length ≤ text.length := by
  obtain ⟨tokens, hscan, htokens⟩ := parse_cases h
  obtain ⟨hleaves, hinners⟩ := leaves_and_inners_of_ofTokens htokens
  calc t.postorder.length
      = t.leaves.length + t.inners.length := (Node.length_filter_add_length_filterMap _).symm
    _ = ((tokens.map Token.kind).filterMap (TokenKind.leaf? v)).length +
          ((tokens.map Token.kind).filterMap (TokenKind.inner? v)).length := by
        rw [hleaves, hinners.length_eq]
    _ ≤ (tokens.map Token.kind).length := TokenKind.length_filterMap_add_length_filterMap_le v _
    _ = tokens.length := List.length_map _
    _ ≤ text.toList.length := by simpa using Token.length_scanFrom_le hscan
    _ = text.length := String.length_toList

end FormulaEngine
