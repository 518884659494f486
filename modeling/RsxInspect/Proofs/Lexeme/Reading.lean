import RsxInspect.Lexeme
import RsxInspect.Proofs.Text.Measure
import RsxInspect.Proofs.Text.NameChar

/-!
# Which lexeme stands ahead

What `lex` reads at the start of a given construct, whatever comes behind it. A rule tries its marks
in order, so to know which one it takes is to know that the ones before do not stand ahead
(`not_isPrefixOf_of_head`, `not_isPrefixOf_of_isNamePart`). Behind opening braces a directive
keyword is tried before an expression (`inDirective_of_start`, `inDirective_of_no_keyword`).
-/

namespace RsxInspect

namespace Lexeme

/-! ### What does not stand ahead -/

/-- A mark that starts with another character does not stand ahead, whatever comes behind. -/
theorem not_isPrefixOf_of_head {mark cs : List Char} {c : Char} (hmark : mark ≠ [])
    (h : mark.head? ≠ some c) : ¬ mark.isPrefixOf (c :: cs) = true := by
  cases mark with
  | nil => exact absurd rfl hmark
  | cons d mark =>
    intro hleads
    rw [List.isPrefixOf_cons_cons, Bool.and_eq_true, beq_iff_eq] at hleads
    exact h (by rw [hleads.1]; rfl)

theorem not_blanks {c : Char} {cs : List Char} (h : isBlank c = false) :
    ¬ Text.blanks (c :: cs) > 0 := by
  rw [Text.blanks, Text.countWhile_cons, h]
  exact Nat.lt_irrefl 0

/-- A mark of the grammar, one of `markStarts`, does not stand ahead of a name. -/
theorem not_isPrefixOf_of_isNamePart {mark cs : List Char} {c : Char}
    (hmark : mark.head?.any markStarts.contains = true) (h : isNamePart c = true) :
    ¬ mark.isPrefixOf (c :: cs) = true := by
  refine not_isPrefixOf_of_head (by rintro rfl; cases hmark) fun hhead => ?_
  rw [hhead, Option.any_some, List.contains_iff_mem] at hmark
  rw [not_isNamePart_of_markStart hmark] at h
  cases h

theorem not_blanks_of_isNamePart {c : Char} {cs : List Char} (h : isNamePart c = true) :
    ¬ Text.blanks (c :: cs) > 0 := by
  refine not_blanks ?_
  by_contra hblank
  rw [Bool.not_eq_false] at hblank
  rw [not_isNamePart_of_isBlank hblank] at h
  cases h

theorem find?_operator_of_isNamePart {c : Char} {cs : List Char} (h : isNamePart c = true) :
    Vocabulary.operators.find? (·.1.isPrefixOf (c :: cs)) = none := by
  have hall : ∀ op ∈ Vocabulary.operators, op.1.head?.any markStarts.contains = true := by decide
  exact List.find?_eq_none.mpr fun op hop => not_isPrefixOf_of_isNamePart (hall op hop) h

/-! ### Words -/

/-- A word in an expression, a keyword of expressions or a name
(`Vocabulary.expressionKeyword?`). -/
theorem inExpression_of_isNameStart {c : Char} {cs : List Char} (h : isNameStart c = true) :
    inExpression (c :: cs)
      = ⟨(Vocabulary.expressionKeyword? ((c :: cs).takeWhile isNamePart)).getD .identifier,
          Text.countWhile isNamePart (c :: cs), .interpolation⟩ := by
  have hpart := isNamePart_of_isNameStart h
  -- a name character is no quote, no digit at the start and no operator, so the rule for names is
  -- the one reached
  have hquote : ¬ isQuote c = true := by
    intro hquote
    have hmark : c ∈ markStarts := by
      simp only [isQuote, Bool.or_eq_true, beq_iff_eq] at hquote
      rcases hquote with rfl | rfl <;> decide
    rw [not_isNamePart_of_markStart hmark] at hpart
    cases hpart
  have hdigit : ¬ c.isDigit = true := by
    rw [not_isDigit_of_isNameStart h]
    decide
  unfold inExpression templateCloseOr blanksOr
  rw [if_neg (not_isPrefixOf_of_isNamePart (by decide) hpart),
    if_neg (not_blanks_of_isNamePart hpart),
    if_neg (not_isPrefixOf_of_isNamePart (by decide) hpart), find?_operator_of_isNamePart hpart]
  simp only
  rw [if_neg hquote, if_neg hdigit, if_pos h]
  rfl

/-- Blanks in an expression: `Text.blanks` of them are one token. -/
theorem inExpression_of_isBlank {c : Char} {cs : List Char} (h : isBlank c = true) :
    inExpression (c :: cs) = ⟨.whitespace, Text.blanks (c :: cs), .interpolation⟩ := by
  have hclose : ¬ Delimiter.templateClose.isPrefixOf (c :: cs) = true := by
    refine not_isPrefixOf_of_head (by decide) fun heq => ?_
    cases heq
    exact absurd h (by decide)
  unfold inExpression templateCloseOr blanksOr
  rw [if_neg hclose, if_pos (by rw [Text.blanks, Text.countWhile_cons, if_pos h]; omega)]

/-! ### Directives

Where a keyword is the beginning of another one, the word goes on behind it. So at most one of them
stands ahead as a word, and the order of the list does not matter (`keyword_length_lt`). -/

/-- What a directive keyword starts with: the characters that `modeInBraces` looks for. -/
def directiveStarts : List Char := ['@', ':', '/']

/-- A keyword of `Vocabulary.directiveKeywords` is a mark (`directiveStarts`) and a word. -/
theorem keyword_eq {keyword : List Char} {kind : TokenKind}
    (h : (keyword, kind) ∈ Vocabulary.directiveKeywords) :
    ∃ d c word, keyword = d :: c :: word ∧ d ∈ directiveStarts ∧ isNameStart c = true ∧
      ∀ x ∈ c :: word, isNamePart x = true := by
  have hall : ∀ p ∈ Vocabulary.directiveKeywords, p.1.head?.any (directiveStarts.contains ·) = true ∧
      p.1.tail.head?.any isNameStart = true ∧ p.1.tail.all isNamePart = true := by decide +kernel
  obtain ⟨hd, hc, hword⟩ := hall _ h
  match keyword, hd, hc, hword with
  | d :: c :: word, hd, hc, hword =>
    refine ⟨d, c, word, rfl, by simpa using hd, by simpa using hc, ?_⟩
    exact List.all_eq_true.mp hword

/-- A keyword that stands ahead as a word is longer than one that goes on as a longer word, so at
most one is a word. -/
theorem keyword_length_lt {p q : List Char × TokenKind} {cs : List Char}
    (hp : p ∈ Vocabulary.directiveKeywords) (hq : q ∈ Vocabulary.directiveKeywords)
    (hleads : p.1.isPrefixOf cs = true) (hlonger : Text.startsWithWord p.1 cs = false)
    (hstands : Text.startsWithWord q.1 cs = true) : p.1.length < q.1.length := by
  -- behind a keyword that starts another one, the word goes on
  have hclash : ∀ p ∈ Vocabulary.directiveKeywords, ∀ q ∈ Vocabulary.directiveKeywords,
      q.1.isPrefixOf p.1 = true →
      q.1 = p.1 ∨ (p.1.drop q.1.length).head?.any isNamePart = true := by decide +kernel
  by_contra hge
  have hends := hstands
  unfold Text.startsWithWord at hends
  rw [Bool.and_eq_true] at hends
  obtain ⟨hother, hends⟩ := hends
  obtain ⟨tail, rfl⟩ := List.isPrefixOf_iff_prefix.mp hleads
  have hpart : q.1 <+: p.1 :=
    List.prefix_of_prefix_length_le (List.isPrefixOf_iff_prefix.mp hother)
      (List.prefix_append _ _) (Nat.le_of_not_lt hge)
  rcases hclash p hp q hq (List.isPrefixOf_iff_prefix.mpr hpart) with hsame | hmore
  · rw [hsame, hlonger] at hstands
    cases hstands
  · rw [List.drop_append_of_le_length (Nat.le_of_not_lt hge)] at hends
    cases hdrop : p.1.drop q.1.length with
    | nil =>
      rw [hdrop] at hmore
      cases hmore
    | cons x more =>
      rw [hdrop] at hmore hends
      simp only [List.head?_cons, Option.any_some, List.cons_append] at hmore hends
      rw [hmore] at hends
      cases hends

/-- The rules of `inDirective` where a keyword may stand, since none of the rules before them
applies to its mark. -/
theorem inDirective_of_start {d : Char} {cs : List Char} (hd : d ∈ directiveStarts) :
    inDirective (d :: cs) =
      match elseIfLength? (d :: cs) with
      | some length => ⟨.elseIf, length, .interpolation⟩
      | none =>
        match Vocabulary.directiveKeywords.find? (Text.startsWithWord ·.1 (d :: cs)) with
        | some (keyword, kind) => ⟨kind, keyword.length, .interpolation⟩
        | none => inExpression (d :: cs) := by
  simp only [directiveStarts, List.mem_cons, List.not_mem_nil, or_false] at hd
  rcases hd with rfl | rfl | rfl <;> rfl

/-- `:else` and a blank, where no `if` follows. -/
theorem inDirective_of_else {b : Char} {cs : List Char} (hb : isBlank b = true)
    (helse : elseIfLength? ([':', 'e', 'l', 's', 'e'] ++ b :: cs) = none) :
    inDirective ([':', 'e', 'l', 's', 'e'] ++ b :: cs) = ⟨.elseBranch, 5, .interpolation⟩ := by
  have hfind : Vocabulary.directiveKeywords.find?
      (Text.startsWithWord ·.1 ([':', 'e', 'l', 's', 'e'] ++ b :: cs))
      = some ([':', 'e', 'l', 's', 'e'], .elseBranch) := by
    have hpart := not_isNamePart_of_isBlank hb
    have hi : ¬ 'i' = b := by
      rintro rfl
      exact absurd hb (by decide)
    simp [Vocabulary.directiveKeywords, Text.startsWithWord, hpart, hi]
  have hrules := @inDirective_of_start ':' (['e', 'l', 's', 'e'] ++ b :: cs) (by decide)
  rw [List.cons_append] at helse hfind ⊢
  rw [hrules, helse, hfind]
  rfl

/-- Where no directive keyword stands, its first character is read for itself. -/
theorem inDirective_of_no_keyword {d : Char} {cs : List Char} (hd : d ∈ directiveStarts)
    (helse : elseIfLength? (d :: cs) = none)
    (hfind : Vocabulary.directiveKeywords.find? (Text.startsWithWord ·.1 (d :: cs)) = none) :
    (inDirective (d :: cs)).length = 1 ∧ (inDirective (d :: cs)).mode = .interpolation := by
  have hsame : inDirective (d :: cs) = inExpression (d :: cs) := by
    rw [inDirective_of_start hd, helse, hfind]
  rw [hsame]
  simp only [directiveStarts, List.mem_cons, List.not_mem_nil, or_false] at hd
  rcases hd with rfl | rfl | rfl <;> exact ⟨rfl, rfl⟩

end Lexeme

end RsxInspect
