import FormulaEngine.Proofs.AssemblySteps
import FormulaEngine.Proofs.CacheKeys
import FormulaEngine.Proofs.Punctuation
import FormulaEngine.Proofs.TokenCoverage

/-!
Keys that are no formulas. The key of a formula with constants of its own has two marks in it that
no operator and no name has. Only one of them can be the decimal separator. The other would have to
separate arguments, but then a right bracket comes after it, and the names and values of constants
have none.
-/
namespace FormulaEngine

namespace Assembly

variable {v : Vocabulary} {a b : Assembly}

/-- Whether a left bracket waits for its right bracket. -/
def HasOpenBracket (a : Assembly) : Prop := ∃ span, .leftBracket span ∈ a.waiting

theorem Reduction.hasOpenBracket (h : Reduction a b) (ha : a.HasOpenBracket) :
    b.HasOpenBracket := by
  obtain ⟨span, hspan⟩ := ha
  refine ⟨span, ?_⟩
  cases h <;> exact (List.mem_cons.mp hspan).resolve_left nofun

/-- A bracket stays open until a right bracket comes, and a separator needs an open one. -/
theorem Intake.hasOpenBracket {afterLeftBracket beforeLeftBracket : Bool} {span : Span}
    {kind : TokenKind} (h : Intake v afterLeftBracket beforeLeftBracket span kind a b)
    (ha : kind = .separator ∨ kind ≠ .rightBracket ∧ a.HasOpenBracket) : b.HasOpenBracket := by
  cases h with
  | separator => exact ⟨_, List.mem_cons_self⟩
  | emptyList | rightBracket => exact (ha.resolve_left nofun).1.elim rfl
  | leftBracket => exact ⟨_, List.mem_cons_self⟩
  | integer | float | constant | var => exact (ha.resolve_left nofun).2
  | function =>
    obtain ⟨opened, hopened⟩ := (ha.resolve_left nofun).2
    exact ⟨opened, List.mem_cons_of_mem _ hopened⟩
  | operator op hreductions =>
    obtain ⟨opened, hopened⟩ := hreductions.keeps Reduction.hasOpenBracket
      (ha.resolve_left nofun).2
    exact ⟨opened, List.mem_cons_of_mem _ hopened⟩

/-- After a separator a bracket is open as long as no right bracket has come. -/
theorem hasOpenBracket_of_addAll {tokens : List Token} (h : addAll v false tokens .empty = .ok a)
    {before after : List TokenKind}
    (htokens : tokens.map Token.kind = before ++ .separator :: after)
    (hafter : .rightBracket ∉ after) : a.HasOpenBracket := by
  have hfirst : addAll v (endsWithLeftBracket []) tokens .empty = .ok a := h
  have hread := addAll_keeps (P := fun read _ a => ∀ before after,
    read = before ++ .separator :: after → .rightBracket ∉ after → a.HasOpenBracket)
    (fun {read rest span kind a b} hintake ha before after hsplit hafter => ?_) hfirst
    (fun before after hsplit => absurd hsplit (by simp))
  · exact hread before after htokens hafter
  · rcases List.eq_nil_or_concat after with rfl | ⟨after, last, rfl⟩
    · obtain ⟨-, hkind⟩ := List.append_inj' hsplit rfl
      exact hintake.hasOpenBracket (.inl (List.cons.inj hkind).1)
    · rw [List.concat_eq_append, ← List.cons_append, ← List.append_assoc] at hsplit
      obtain ⟨hread, hkind⟩ := List.append_inj' hsplit rfl
      obtain rfl := (List.cons.inj hkind).1
      simp only [List.concat_eq_append, List.mem_append, List.mem_singleton, not_or] at hafter
      exact hintake.hasOpenBracket
        (.inr ⟨fun h => hafter.2 h.symm, ha before after hread hafter.1⟩)

end Assembly

/-- In a formula every separator comes before some right bracket. -/
theorem Tree.rightBracket_of_separator {v : Vocabulary} {tokens : List Token} {t : Tree}
    (h : ofTokens v tokens = .ok t) {before after : List TokenKind}
    (htokens : tokens.map Token.kind = before ++ .separator :: after) : .rightBracket ∈ after := by
  by_contra hafter
  obtain ⟨a, span, calls, hread, hreductions⟩ := ofTokens_cases h
  obtain ⟨opened, hopened⟩ := hreductions.keeps Assembly.Reduction.hasOpenBracket
    (Assembly.hasOpenBracket_of_addAll hread htokens hafter)
  cases hopened

theorem Span.mem_cut {span : Span} {position : Nat} {text : List Char} {c : Char}
    (h : span.Holds position) (hc : text[position]? = some c) : c ∈ span.cut text := by
  refine List.mem_of_getElem? (i := position - span.start) ?_
  rw [cut, List.getElem?_take_of_lt (Nat.sub_lt_sub_right h.1 h.2), List.getElem?_drop,
    Nat.add_sub_cancel' h.1, hc]

/-- A mark that no name has belongs to a number, as its decimal separator, or separates
arguments. -/
theorem TokenKind.Spelled.outside_cases {locale : Locale} {kind : TokenKind} {lexeme : List Char}
    (h : kind.Spelled locale lexeme) {c : Char} (hc : c ∈ lexeme) (houtside : Locale.IsOutside c) :
    c = locale.decimalSeparator ∨ kind = .separator ∧ c = locale.argumentSeparator := by
  have hsymbol : ∀ {d : Char}, isSymbol d = true → c ≠ d := by
    rintro d hd rfl
    exact absurd hd (Bool.eq_false_iff.mp houtside.1.isSymbol)
  have hnumber : Decimal.Numeral.IsCharacter locale.decimalSeparator c →
      c = locale.decimalSeparator := by
    rintro (hdigit | hmark | hexponent | rfl | rfl)
    · exact absurd hdigit (Bool.eq_false_iff.mp houtside.isDigit)
    · exact hmark
    · exact absurd hexponent (Bool.eq_false_iff.mp houtside.isExponentMark)
    · exact (hsymbol (by decide) rfl).elim
    · exact (hsymbol (by decide) rfl).elim
  cases kind with
  | integer value => exact .inl (hnumber (h c hc))
  | float value => exact .inl (hnumber (h c hc))
  | name text => exact absurd (h.2 c hc) (Bool.eq_false_iff.mp houtside.isNamePart)
  | separator =>
    rw [show lexeme = _ from h] at hc
    exact .inr ⟨rfl, List.mem_singleton.mp hc⟩
  | leftBracket =>
    rw [show lexeme = _ from h] at hc
    exact (hsymbol (by decide) (List.mem_singleton.mp hc)).elim
  | rightBracket =>
    rw [show lexeme = _ from h] at hc
    exact (hsymbol (by decide) (List.mem_singleton.mp hc)).elim
  | operator op =>
    refine (hsymbol (d := c) ?_ rfl).elim
    cases op with
    | unaryMinus =>
      rw [show lexeme = _ from h] at hc
      obtain rfl := List.mem_singleton.mp hc
      decide
    | binary op =>
      have hmem : c ∈ op.symbol :: op.spelling.toList := by
        rcases h with rfl | rfl
        · exact List.mem_cons.mpr (.inl (List.mem_singleton.mp hc))
        · exact List.mem_cons_of_mem _ hc
      exact List.contains_iff_mem.mpr (List.mem_cons_of_mem _ (List.mem_cons_of_mem _
        (List.mem_flatMap.mpr ⟨op, op.mem_all, hmem⟩)))

/-- Where a mark that no name has stands in a formula, it is one of the two separators. If it
separates arguments, a right bracket comes after it. -/
theorem Tree.outside_cases_of_parse {locale : Locale} {v : Vocabulary} {text : String} {t : Tree}
    (h : parse locale v text = .ok t) {c : Char} (houtside : Locale.IsOutside c)
    {before after : List Char} (htext : text.toList = before ++ c :: after) :
    c = locale.decimalSeparator ∨ c = locale.argumentSeparator ∧ ')' ∈ after := by
  obtain ⟨tokens, hscan, htokens⟩ := parse_cases h
  have hcover := Token.cover_of_scan hscan
  have hposition : text.toList[before.length]? = some c := by
    rw [htext, List.getElem?_append_right (Nat.le_refl _), Nat.sub_self]
    rfl
  obtain ⟨token, htoken, hholds⟩ := hcover.exists_holds hposition houtside.1.isBlank
  refine ((hcover.spelled token htoken).outside_cases (Span.mem_cut hholds hposition)
    houtside).imp_right fun ⟨hkind, hseparator⟩ => ⟨hseparator, ?_⟩
  obtain ⟨front, back, rfl⟩ := List.append_of_mem htoken
  have hkinds : (front ++ token :: back).map Token.kind =
      front.map Token.kind ++ .separator :: back.map Token.kind := by
    rw [List.map_append, List.map_cons, hkind]
  obtain ⟨bracket, hmem, hright⟩ := List.mem_map.mp (rightBracket_of_separator htokens hkinds)
  have hlater : token.span.stop ≤ bracket.span.start :=
    (List.pairwise_cons.mp (List.pairwise_append.mp hcover.apart).2.1).1 bracket hmem
  have hspelled := hcover.spelled bracket (by simp [hmem])
  rw [hright] at hspelled
  -- The right bracket stands behind the separator, so it is in the rest of the text.
  have hstart : (before ++ [c]).length ≤ bracket.span.start := by
    rw [List.length_append, List.length_singleton]
    exact Nat.le_trans hholds.2 hlater
  have hcut : bracket.span.cut text.toList = [')'] := hspelled
  rw [Span.cut, htext, List.append_cons, List.drop_append, List.drop_eq_nil_of_le hstart,
    List.nil_append] at hcut
  exact List.mem_of_mem_drop (List.mem_of_mem_take (hcut ▸ List.mem_singleton_self _))

/-- No formula is spelled like the key of another one with constants of its own. -/
theorem Source.parse_constantsKey_ne_ok {constants : Bindings} (hne : constants ≠ [])
    (hnames : ∀ constant ∈ constants, Text.isName constant.1 = true) (locale : Locale)
    (v : Vocabulary) (formula : String) (t : Tree) :
    Tree.parse locale v (Engine.constantsKey formula constants) ≠ .ok t := by
  intro h
  obtain ⟨constant, rest, rfl⟩ := List.exists_cons_of_ne_nil hne
  obtain ⟨further, hjoined⟩ : ∃ further,
      [','].intercalate ((constant :: rest).map constantText) =
        constant.1.toList ++ ':' :: further := by
    rw [List.map_cons]
    cases rest.map constantText with
    | nil => exact ⟨Decimal.Notation.plain.text constant.2, by simp [constantText]⟩
    | cons next texts =>
      rw [List.intercalate_cons_cons, constantText, List.append_assoc, List.append_assoc]
      exact ⟨_, rfl⟩
  have hbracket : ')' ∉ [','].intercalate ((constant :: rest).map constantText) := by
    refine not_mem_intercalate (by decide) fun text htext => ?_
    obtain ⟨other, hother, rfl⟩ := List.mem_map.mp htext
    exact not_mem_constantText (hnames other hother) (.inr (.inr rfl))
  have hkey := toList_constantsKey formula (constant :: rest)
  rw [hjoined] at hkey hbracket
  have hat : '@' = locale.decimalSeparator :=
    (Tree.outside_cases_of_parse h ⟨by decide, by decide⟩ hkey).resolve_right
      fun hseparator => hbracket hseparator.2
  have hcolon : ':' = locale.decimalSeparator := by
    rw [← List.cons_append, ← List.append_assoc] at hkey
    refine (Tree.outside_cases_of_parse h ⟨by decide, by decide⟩ hkey).resolve_right
      fun hseparator => hbracket ?_
    exact List.mem_append_right _ (List.mem_cons_of_mem _ hseparator.2)
  exact absurd (hat.trans hcolon.symm) (by decide)

end FormulaEngine
