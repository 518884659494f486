import RsxInspect.Proofs.Text.Measure
import RsxInspect.Proofs.Text.NameChar

/-!
# Progress

A lexeme takes at least one character, with one exception: inside a tag a `$` starts a name
(`isNameStart`) but is no part of one (`isTagNamePart`), so the name read there is empty.
`lex_length_eq_zero_iff` says that this is the only exception, and `lex_of_standsStill` that nothing
ever leads away from it.

There is one lemma `takes_…` for each rule. Those of tags ask for no `$` ahead; all others hold
wherever a character is.
-/

namespace RsxInspect

namespace Lexeme

/-- A lexeme that takes characters, so that the scanner gets on. -/
def Takes (x : Lexeme) : Prop := 0 < x.length

theorem takes_bad (m : Mode) : Takes (bad m) := Nat.one_pos

theorem takes_blanksOr {m : Mode} {cs : List Char} {other : Lexeme} (h : Takes other) :
    Takes (blanksOr m cs other) := by
  unfold blanksOr
  split
  · assumption
  · exact h

theorem takes_templateCloseOr {cs : List Char} {other : Lexeme} (h : Takes other) :
    Takes (templateCloseOr cs other) := by
  unfold templateCloseOr
  split
  · exact Nat.succ_pos _
  · exact h

theorem takes_sectionOpen {tag cs : List Char} (kind : TokenKind) (m : Mode) (h : tag ≠ []) :
    Takes (sectionOpen tag kind m cs) :=
  Nat.add_pos_left (List.length_pos_iff.mpr h) _

theorem takes_betweenSections (cs : List Char) : Takes (betweenSections cs) := by
  unfold betweenSections
  split
  · exact Nat.succ_pos _
  · split
    · exact takes_sectionOpen _ _ (by decide)
    · split
      · exact takes_sectionOpen _ _ (by decide)
      · split
        · exact takes_sectionOpen _ _ (by decide)
        · exact takes_blanksOr (takes_bad _)

theorem takes_inFrontMatter {before : Option Char} {cs : List Char} (h : cs ≠ []) :
    Takes (inFrontMatter before cs) := by
  unfold inFrontMatter
  split
  · exact Nat.succ_pos _
  · exact FrontMatter.codeLength_pos h ‹_›

theorem takes_inCode {close cs : List Char} {closeKind code : TokenKind} {m : Mode}
    (hcs : cs ≠ []) (hclose : close ≠ []) : Takes (inCode close closeKind code m cs) := by
  unfold inCode
  split
  · exact List.length_pos_iff.mpr hclose
  · exact Text.upTo_length_pos hcs ‹_›

/-- Text goes on up to a `<`, a blank or opening braces, so there is some where none of them
stands. -/
theorem textFrom_pos {c : Char} {cs : List Char} (hlt : ¬ ['<'].isPrefixOf (c :: cs) = true)
    (hblank : ¬ Text.blanks (c :: cs) > 0)
    (hbraces : ¬ Delimiter.openBraces.isPrefixOf (c :: cs) = true) :
    0 < textFrom 0 (c :: cs) := by
  have hc : ¬ c = '<' := by
    rintro rfl
    exact hlt rfl
  have hb : ¬ isBlank c = true := fun h => hblank (by simp [Text.blanks, Text.countWhile, h])
  rw [textFrom_cons, if_neg (by simp [hc, hb, hbraces])]
  exact Nat.succ_pos _

theorem takes_inTemplate {cs : List Char} (h : cs ≠ []) : Takes (inTemplate cs) := by
  refine takes_templateCloseOr ?_
  split
  · exact Nat.add_pos_left (by decide) _
  · split
    · exact Nat.succ_pos _
    · split
      · exact Nat.one_pos
      · split
        · exact Nat.succ_pos _
        · rename_i hlt hbraces
          unfold blanksOr
          split
          · assumption
          · rename_i hblank
            cases cs with
            | nil => exact absurd rfl h
            | cons c cs => exact textFrom_pos hlt hblank hbraces

/-- A name that does not start with `$` takes characters: every other `isNameStart` is part of a
name in a tag. -/
theorem countWhile_tagName_pos {c : Char} {cs : List Char} (h : isNameStart c = true)
    (hc : c ≠ '$') : 0 < Text.countWhile isTagNamePart (c :: cs) := by
  rw [Text.countWhile_cons, if_pos (isTagNamePart_of_isNameStart h hc)]
  exact Nat.succ_pos _

theorem takes_inStartTag {last : Option TokenKind} {cs : List Char} (hcs : cs.head? ≠ some '$') :
    Takes (inStartTag last cs) := by
  refine takes_templateCloseOr (takes_blanksOr ?_)
  split
  · exact Nat.succ_pos _
  · cases cs with
    | nil => exact takes_bad _
    -- a `$` passes the test for a name and then takes no character, so it is the one character left
    -- out
    | cons c cs =>
      have hc : c ≠ '$' := fun h => hcs (by rw [List.head?_cons, h])
      simp only
      split
      · exact Nat.one_pos
      · split
        · exact Nat.one_pos
        · split
          · exact Quoted.extent_length_pos (List.cons_ne_nil c cs)
          · split
            · rename_i hname
              exact countWhile_tagName_pos hname hc
            · exact takes_bad _

theorem takes_inEndTag {cs : List Char} (hcs : cs.head? ≠ some '$') : Takes (inEndTag cs) := by
  refine takes_templateCloseOr (takes_blanksOr ?_)
  cases cs with
  | nil => exact takes_bad _
  | cons c cs =>
    have hc : c ≠ '$' := fun h => hcs (by rw [List.head?_cons, h])
    simp only
    split
    · exact Nat.one_pos
    · split
      · rename_i hname
        exact countWhile_tagName_pos hname hc
      · exact takes_bad _

/-- A `$` is a value without quotes, so only the end of the tag is left to its own rule. -/
theorem takes_inAttributeValue {last : Option TokenKind} {cs : List Char} (h : cs ≠ []) :
    Takes (inAttributeValue last cs) := by
  refine takes_templateCloseOr (takes_blanksOr ?_)
  cases cs with
  | nil => exact absurd rfl h
  | cons c cs =>
    simp only
    split
    · exact Quoted.extent_length_pos h
    · split
      · exact Text.past_length_pos h (by decide)
      · split
        · rename_i hbare
          refine takes_inStartTag fun hdollar => ?_
          obtain rfl : c = '$' := by simpa using hdollar
          rw [bareValueFrom_cons, if_neg (by simp [isBlank_dollar, Delimiter.selfClose])] at hbare
          exact absurd hbare (Nat.succ_ne_zero _)
        · exact Nat.pos_of_ne_zero ‹_›

theorem takes_numberLength {c : Char} {cs : List Char} (h : c.isDigit = true) :
    0 < numberLength (c :: cs) := by
  have hwhole : 0 < Text.countWhile Char.isDigit (c :: cs) := by
    rw [Text.countWhile_cons, if_pos h]
    exact Nat.succ_pos _
  unfold numberLength
  simp only
  split
  · split
    · omega
    · exact hwhole
  · exact hwhole

theorem operator_ne_nil {cs op : List Char} {kind : TokenKind}
    (h : Vocabulary.operators.find? (·.1.isPrefixOf cs) = some (op, kind)) : op ≠ [] := by
  have hall : ∀ p ∈ Vocabulary.operators, p.1 ≠ [] := by decide
  exact hall _ (List.mem_of_find?_eq_some h)

theorem takes_inExpression (cs : List Char) : Takes (inExpression cs) := by
  refine takes_templateCloseOr (takes_blanksOr ?_)
  split
  · exact Nat.succ_pos _
  -- in the order of the rules: operators, strings, numbers, names, and the bad character
  · split
    · rename_i hop
      exact List.length_pos_iff.mpr (operator_ne_nil hop)
    · cases cs with
      | nil => exact takes_bad _
      | cons c cs =>
        simp only
        split
        · exact Quoted.extent_length_pos (List.cons_ne_nil c cs)
        · split
          · rename_i hdigit
            exact takes_numberLength hdigit
          · split
            · rename_i hname
              unfold Takes
              rw [List.takeWhile_cons, if_pos (isNamePart_of_isNameStart hname)]
              exact Nat.succ_pos _
            · exact takes_bad _

theorem keyword_ne_nil {cs keyword : List Char} {kind : TokenKind}
    (h : Vocabulary.directiveKeywords.find? (Text.startsWithWord ·.1 cs) = some (keyword, kind)) :
    keyword ≠ [] := by
  have hall : ∀ p ∈ Vocabulary.directiveKeywords, p.1 ≠ [] := by decide
  exact hall _ (List.mem_of_find?_eq_some h)

theorem elseIfLength_pos {cs : List Char} {n : Nat} (h : elseIfLength? cs = some n) : 0 < n := by
  unfold elseIfLength? at h
  simp only at h
  split at h
  · cases h
    omega
  · cases h

theorem takes_inDirective (cs : List Char) : Takes (inDirective cs) := by
  refine takes_templateCloseOr (takes_blanksOr ?_)
  split
  · exact Nat.succ_pos _
  · split
    · rename_i helse
      exact elseIfLength_pos helse
    · split
      · rename_i hkeyword
        exact List.length_pos_iff.mpr (keyword_ne_nil hkeyword)
      · exact takes_inExpression cs

end Lexeme

/-- A scan stands still where a `$` stands in a tag: in the modes of start tags and end tags. -/
def StandsStill (state : LexState) (cs : List Char) : Prop :=
  (state.mode = .tagOpen ∨ state.mode = .tagClose) ∧ cs.head? = some '$'

/-- Where a scan `StandsStill`, it reads an empty lexeme and stays in its mode, so the next call
finds the same. -/
theorem lex_of_standsStill {state : LexState} {before : Option Char} {cs : List Char}
    (h : StandsStill state cs) :
    (lex state before cs).length = 0 ∧ (lex state before cs).mode = state.mode := by
  obtain ⟨mode, last⟩ := state
  obtain ⟨hmode, hcs⟩ := h
  obtain ⟨cs, rfl⟩ : ∃ rest, cs = '$' :: rest := by
    cases cs with
    | nil => simp at hcs
    | cons c rest =>
      obtain rfl : c = '$' := by simpa using hcs
      exact ⟨rest, rfl⟩
  -- none of the rules before the name applies to `$`, and the name it starts is empty
  have hblank : ¬ Text.blanks ('$' :: cs) > 0 := by
    rw [Text.blanks, Text.countWhile_cons, isBlank_dollar]
    simp
  have hname : Text.countWhile isTagNamePart ('$' :: cs) = 0 := by
    rw [Text.countWhile_cons, isTagNamePart_dollar]
    rfl
  have hstart : isNameStart '$' = true := by simp [isNameStart]
  have hclose : ¬ Delimiter.templateClose.isPrefixOf ('$' :: cs) = true := by
    simp [Delimiter.templateClose]
  have hself : ¬ Delimiter.selfClose.isPrefixOf ('$' :: cs) = true := by
    simp [Delimiter.selfClose]
  have hquote : ¬ isQuote '$' = true := by decide
  rcases hmode with hmode | hmode
  · obtain rfl : mode = .tagOpen := hmode
    show (Lexeme.inStartTag last ('$' :: cs)).length = 0
      ∧ (Lexeme.inStartTag last ('$' :: cs)).mode = .tagOpen
    unfold Lexeme.inStartTag Lexeme.templateCloseOr Lexeme.blanksOr
    rw [if_neg hclose, if_neg hblank, if_neg hself]
    simp only [hstart, hname, if_neg hquote]
    exact ⟨rfl, rfl⟩
  · obtain rfl : mode = .tagClose := hmode
    show (Lexeme.inEndTag ('$' :: cs)).length = 0 ∧ (Lexeme.inEndTag ('$' :: cs)).mode = .tagClose
    unfold Lexeme.inEndTag Lexeme.templateCloseOr Lexeme.blanksOr
    rw [if_neg hclose, if_neg hblank]
    simp only [hstart, hname]
    exact ⟨rfl, rfl⟩

/-- A lexeme is empty exactly where the scan `StandsStill`. -/
theorem lex_length_eq_zero_iff {state : LexState} {before : Option Char} {cs : List Char}
    (h : cs ≠ []) : (lex state before cs).length = 0 ↔ StandsStill state cs := by
  refine ⟨fun hzero => ?_, fun hstill => (lex_of_standsStill hstill).1⟩
  obtain ⟨mode, last⟩ := state
  have htakes : ¬ Lexeme.Takes (lex ⟨mode, last⟩ before cs) := by
    rw [Lexeme.Takes, hzero]
    exact Nat.lt_irrefl 0
  -- `takes_…` excludes every mode but the two tag modes, and there every character but `$`
  cases mode with
  | initial => exact absurd (Lexeme.takes_betweenSections cs) htakes
  | frontMatter => exact absurd (Lexeme.takes_inFrontMatter h) htakes
  | script => exact absurd (Lexeme.takes_inCode h (by decide)) htakes
  | template => exact absurd (Lexeme.takes_inTemplate h) htakes
  | style => exact absurd (Lexeme.takes_inCode h (by decide)) htakes
  | tagOpen =>
    by_cases hdollar : cs.head? = some '$'
    · exact ⟨.inl rfl, hdollar⟩
    · exact absurd (Lexeme.takes_inStartTag hdollar) htakes
  | tagAttributeValue => exact absurd (Lexeme.takes_inAttributeValue h) htakes
  | tagClose =>
    by_cases hdollar : cs.head? = some '$'
    · exact ⟨.inr rfl, hdollar⟩
    · exact absurd (Lexeme.takes_inEndTag hdollar) htakes
  | interpolation => exact absurd (Lexeme.takes_inExpression cs) htakes
  | directive => exact absurd (Lexeme.takes_inDirective cs) htakes

end RsxInspect
