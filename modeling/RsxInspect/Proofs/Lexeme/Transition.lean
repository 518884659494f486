import RsxInspect.Lexeme

/-!
# Transitions between modes

`Transition m k n` lists what a scan in mode `m` can read: a lexeme of kind `k` that leads to mode
`n`. `lex_transition` shows that `lex` obeys the list at every place, by one lemma `allowed_…` for
each rule, which goes along its branches.

Statements about whole scans use the list and do not look into the rules of `lex` again. So what
they need of the modes is a case analysis of `Transition`, and a rule that changes has to be looked
at here only.
-/

namespace RsxInspect

namespace TokenKind

/-- The keywords right behind opening braces, all of which open, continue or close something. -/
def isDirective : TokenKind → Bool
  | ifBlock | elseIf | elseBranch | endIf | eachBlock | endEach | html => true
  | _ => false

end TokenKind

/-- In mode `m` a lexeme of kind `k` can stand, and it leads to mode `n`. The constructors are
grouped by the mode. -/
inductive Transition : Mode → TokenKind → Mode → Prop where
  | fenceOpen : Transition .initial .frontMatterDelimiter .frontMatter
  | scriptOpen : Transition .initial .scriptOpen .script
  | templateOpen : Transition .initial .templateOpen .template
  | styleOpen : Transition .initial .styleOpen .style
  | blankBetween : Transition .initial .whitespace .initial
  | badBetween : Transition .initial .badCharacter .initial
  | fenceClose : Transition .frontMatter .frontMatterDelimiter .initial
  | frontMatterCode : Transition .frontMatter .frontMatterCode .frontMatter
  | scriptClose : Transition .script .scriptClose .initial
  | scriptCode : Transition .script .scriptCode .script
  | styleClose : Transition .style .styleClose .initial
  | styleCode : Transition .style .styleCode .style
  | templateEnd : Transition .template .templateClose .initial
  | comment : Transition .template .comment .template
  | endTagOpen : Transition .template .tagEndOpen .tagClose
  | startTagOpen : Transition .template .tagOpen .tagOpen
  | directiveBraces : Transition .template .interpolationOpen .directive
  | expressionBraces : Transition .template .interpolationOpen .interpolation
  | blankMarkup : Transition .template .whitespace .template
  | text : Transition .template .text .template
  | startTagResync : Transition .tagOpen .templateClose .initial
  | blankInTag : Transition .tagOpen .whitespace .tagOpen
  | selfClose : Transition .tagOpen .selfClose .template
  | startTagClose : Transition .tagOpen .tagClose .template
  | equals : Transition .tagOpen .equals .tagAttributeValue
  | looseValue : Transition .tagOpen .attrValue .tagOpen
  | startTagName : Transition .tagOpen .tagName .tagOpen
  | attrName : Transition .tagOpen .attrName .tagOpen
  | badInTag : Transition .tagOpen .badCharacter .tagOpen
  | valueResync : Transition .tagAttributeValue .templateClose .initial
  | blankValue : Transition .tagAttributeValue .whitespace .tagAttributeValue
  | value : Transition .tagAttributeValue .attrValue .tagOpen
  | valueSelfClose : Transition .tagAttributeValue .selfClose .template
  | valueTagClose : Transition .tagAttributeValue .tagClose .template
  | endTagResync : Transition .tagClose .templateClose .initial
  | blankInEndTag : Transition .tagClose .whitespace .tagClose
  | endTagClose : Transition .tagClose .tagClose .template
  | endTagName : Transition .tagClose .tagName .tagClose
  | badInEndTag : Transition .tagClose .badCharacter .tagClose
  | expressionResync : Transition .interpolation .templateClose .initial
  | blankExpression : Transition .interpolation .whitespace .interpolation
  | expressionEnd : Transition .interpolation .interpolationClose .template
  | expression {k : TokenKind} (h : k.isExpression = true) :
      Transition .interpolation k .interpolation
  | badExpression : Transition .interpolation .badCharacter .interpolation
  | directiveResync : Transition .directive .templateClose .initial
  | blankDirective : Transition .directive .whitespace .directive
  | directiveEnd : Transition .directive .interpolationClose .template
  | keyword {k : TokenKind} (h : k.isDirective = true) : Transition .directive k .interpolation
  | plainExpression {k : TokenKind} (h : k.isExpression = true) :
      Transition .directive k .interpolation
  | badDirective : Transition .directive .badCharacter .interpolation

namespace Transition

/-- Nothing that is read is the end of the input. -/
theorem kind_ne_eof {m n : Mode} {k : TokenKind} (h : Transition m k n) : k ≠ .eof := by
  rintro rfl
  cases h with
  | expression h => exact absurd h (by decide)
  | keyword h => exact absurd h (by decide)
  | plainExpression h => exact absurd h (by decide)

/-- A directive keyword is read only where one may stand, in the mode `directive`. -/
theorem eq_directive {m n : Mode} {k : TokenKind} (h : Transition m k n)
    (hk : k.isDirective = true) : m = .directive := by
  cases h with
  | expression h =>
    revert h hk
    cases k <;> decide
  | keyword => rfl
  | plainExpression => rfl
  | blankDirective => rfl
  | directiveResync => rfl
  | directiveEnd => rfl
  | badDirective => rfl
  | _ => cases hk

/-- Blanks leave the mode as it is. -/
theorem eq_of_whitespace {m n : Mode} (h : Transition m .whitespace n) : m = n := by
  cases h with
  | expression h => rfl
  | keyword h => exact absurd h (by decide)
  | plainExpression h => exact absurd h (by decide)
  | _ => rfl

end Transition

namespace Lexeme

/-- A lexeme that can stand in mode `m`: a `Transition` for its kind and the mode it leads to. -/
def Allowed (m : Mode) (x : Lexeme) : Prop := Transition m x.kind x.mode

/-- Modes in which the closing tag of the template counts, so that `templateCloseOr` is tried
first. -/
def Resyncs (m : Mode) : Prop := Transition m .templateClose .initial

theorem allowed_templateCloseOr {m : Mode} {cs : List Char} {other : Lexeme} (hm : Resyncs m)
    (h : Allowed m other) : Allowed m (templateCloseOr cs other) := by
  unfold templateCloseOr
  split
  · exact hm
  · exact h

theorem allowed_blanksOr {m : Mode} {cs : List Char} {other : Lexeme}
    (hm : Transition m .whitespace m) (h : ¬ Text.blanks cs > 0 → Allowed m other) :
    Allowed m (blanksOr m cs other) := by
  unfold blanksOr
  split
  · exact hm
  · exact h ‹_›

theorem allowed_betweenSections (cs : List Char) : Allowed .initial (betweenSections cs) := by
  unfold betweenSections
  split
  · exact .fenceOpen
  · split
    · exact .scriptOpen
    · split
      · exact .templateOpen
      · split
        · exact .styleOpen
        · exact allowed_blanksOr .blankBetween fun _ => .badBetween

theorem allowed_inFrontMatter (before : Option Char) (cs : List Char) :
    Allowed .frontMatter (inFrontMatter before cs) := by
  unfold inFrontMatter
  split
  · exact .fenceClose
  · exact .frontMatterCode

theorem allowed_inCode {close cs : List Char} {closeKind code : TokenKind} {m : Mode}
    (hclose : Transition m closeKind .initial) (hcode : Transition m code m) :
    Allowed m (inCode close closeKind code m cs) := by
  unfold inCode
  split
  · exact hclose
  · exact hcode

theorem modeInBraces_cases (cs : List Char) :
    modeInBraces cs = .directive ∨ modeInBraces cs = .interpolation := by
  unfold modeInBraces
  split <;> simp

theorem allowed_inTemplate (cs : List Char) : Allowed .template (inTemplate cs) := by
  refine allowed_templateCloseOr .templateEnd ?_
  split
  · exact .comment
  · split
    · exact .endTagOpen
    · split
      · exact .startTagOpen
      · split
        · rcases modeInBraces_cases (cs.drop 2) with h | h
          · show Transition .template .interpolationOpen (modeInBraces (cs.drop 2))
            rw [h]
            exact .directiveBraces
          · show Transition .template .interpolationOpen (modeInBraces (cs.drop 2))
            rw [h]
            exact .expressionBraces
        · exact allowed_blanksOr .blankMarkup fun _ => .text

theorem allowed_inStartTag (last : Option TokenKind) (cs : List Char) :
    Allowed .tagOpen (inStartTag last cs) := by
  -- one constructor of the table for every branch of the rule
  refine allowed_templateCloseOr .startTagResync (allowed_blanksOr .blankInTag fun _ => ?_)
  split
  · exact .selfClose
  · cases cs with
    | nil => exact .badInTag
    | cons c cs =>
      simp only
      split
      · exact .startTagClose
      · split
        · exact .equals
        · split
          · exact .looseValue
          · split
            · unfold Allowed
              simp only
              split
              · exact .startTagName
              · exact .attrName
            · exact .badInTag

theorem bareValueFrom_le (n : Nat) (cs : List Char) : n ≤ bareValueFrom n cs := by
  induction cs generalizing n with
  | nil => exact Nat.le_refl n
  | cons c cs ih =>
    rw [bareValueFrom]
    split
    · exact Nat.le_refl n
    · exact Nat.le_of_succ_le (ih (n + 1))

/-- A value without quotes (`bareValueFrom`) is empty only where a blank or the end of the tag
stands, and there another rule reads it. -/
theorem bareValue_eq_zero {c : Char} {cs : List Char} (h : bareValueFrom 0 (c :: cs) = 0) :
    isBlank c = true ∨ c = '>' ∨ Delimiter.selfClose.isPrefixOf (c :: cs) = true := by
  rw [bareValueFrom] at h
  split at h
  · rename_i hend
    simpa [or_assoc] using hend
  · have := bareValueFrom_le (0 + 1) cs
    omega

theorem blanks_pos_of_isBlank {c : Char} {cs : List Char} (h : isBlank c = true) :
    Text.blanks (c :: cs) > 0 := by
  simp [Text.blanks, Text.countWhile, h]

/-- Where a tag ends, with `>` or `/>`, its rule reads the end. -/
theorem inStartTag_of_end (last : Option TokenKind) {c : Char} {cs : List Char}
    (hclose : ¬ Delimiter.templateClose.isPrefixOf (c :: cs) = true)
    (hblank : ¬ Text.blanks (c :: cs) > 0)
    (hend : c = '>' ∨ Delimiter.selfClose.isPrefixOf (c :: cs) = true) :
    inStartTag last (c :: cs) = ⟨.selfClose, 2, .template⟩
      ∨ inStartTag last (c :: cs) = ⟨.tagClose, 1, .template⟩ := by
  unfold inStartTag templateCloseOr blanksOr
  rw [if_neg hclose, if_neg hblank]
  by_cases hself : Delimiter.selfClose.isPrefixOf (c :: cs) = true
  · left
    rw [if_pos hself]
  · right
    have hc : c = '>' := hend.resolve_right hself
    rw [if_neg hself, hc]
    rfl

theorem allowed_inAttributeValue (last : Option TokenKind) {cs : List Char} (hcs : cs ≠ []) :
    Allowed .tagAttributeValue (inAttributeValue last cs) := by
  unfold inAttributeValue templateCloseOr
  split
  · exact .valueResync
  · rename_i hclose
    refine allowed_blanksOr .blankValue fun hblank => ?_
    cases cs with
    | nil => exact absurd rfl hcs
    | cons c cs =>
      simp only
      split
      · exact .value
      -- a value of no length hands over to the rule for tags, which then stands before an end of
      -- the tag
      · split
        · exact .value
        · split
          · rename_i hbare
            have hend := (bareValue_eq_zero hbare).resolve_left
              fun h => hblank (blanks_pos_of_isBlank h)
            rcases inStartTag_of_end last hclose hblank hend with h | h
            · rw [h]
              exact .valueSelfClose
            · rw [h]
              exact .valueTagClose
          · exact .value

theorem allowed_inEndTag (cs : List Char) : Allowed .tagClose (inEndTag cs) := by
  refine allowed_templateCloseOr .endTagResync (allowed_blanksOr .blankInEndTag fun _ => ?_)
  cases cs with
  | nil => exact .badInEndTag
  | cons c cs =>
    simp only
    split
    · exact .endTagClose
    · split
      · exact .endTagName
      · exact .badInEndTag

/-- Operators (`Vocabulary.operators`) are parts of expressions. -/
theorem isExpression_of_operator {cs op : List Char} {kind : TokenKind}
    (h : Vocabulary.operators.find? (·.1.isPrefixOf cs) = some (op, kind)) :
    kind.isExpression = true := by
  have hall : ∀ p ∈ Vocabulary.operators, p.2.isExpression = true := by decide
  exact hall _ (List.mem_of_find?_eq_some h)

theorem isDirective_of_keyword {cs keyword : List Char} {kind : TokenKind}
    (h : Vocabulary.directiveKeywords.find? (Text.startsWithWord ·.1 cs) = some (keyword, kind)) :
    kind.isDirective = true := by
  have hall : ∀ p ∈ Vocabulary.directiveKeywords, p.2.isDirective = true := by decide
  exact hall _ (List.mem_of_find?_eq_some h)

theorem isExpression_of_word (word : List Char) :
    ((Vocabulary.expressionKeyword? word).getD .identifier).isExpression = true := by
  unfold Vocabulary.expressionKeyword?
  split
  · rfl
  · split <;> rfl

theorem allowed_inExpression (cs : List Char) : Allowed .interpolation (inExpression cs) := by
  refine allowed_templateCloseOr .expressionResync (allowed_blanksOr .blankExpression fun _ => ?_)
  split
  · exact .expressionEnd
  · split
    · rename_i hop
      exact .expression (isExpression_of_operator hop)
    · cases cs with
      | nil => exact .badExpression
      | cons c cs =>
        simp only
        split
        · exact .expression rfl
        · split
          · exact .expression rfl
          · split
            · exact .expression (isExpression_of_word _)
            · exact .badExpression

/-- What is `Allowed` in an expression may stand right behind the braces, where no directive
does. -/
theorem Allowed.inDirective {x : Lexeme} (hx : x.kind ≠ .whitespace)
    (h : Allowed .interpolation x) : Allowed .directive x := by
  obtain ⟨kind, length, mode⟩ := x
  unfold Allowed at h ⊢
  simp only at h hx ⊢
  cases h with
  | expressionResync => exact .directiveResync
  | blankExpression => exact absurd rfl hx
  | expressionEnd => exact .directiveEnd
  | expression h => exact .plainExpression h
  | badExpression => exact .badDirective

theorem inExpression_kind_ne {cs : List Char} (hblank : ¬ Text.blanks cs > 0) :
    (inExpression cs).kind ≠ .whitespace := by
  unfold inExpression templateCloseOr blanksOr
  -- whitespace is only ever made by `blanksOr`, whose branch `hblank` excludes
  rw [if_neg hblank]
  split
  · decide
  · split
    · decide
    · split
      · rename_i hop
        exact kind_ne_of_operator hop
      · cases cs with
        | nil => decide
        | cons c cs =>
          simp only
          split
          · simp
          · split
            · simp
            · split
              · exact expressionKeyword_ne _
              · decide

theorem allowed_inDirective (cs : List Char) : Allowed .directive (inDirective cs) := by
  refine allowed_templateCloseOr .directiveResync
    (allowed_blanksOr .blankDirective fun hblank => ?_)
  split
  · exact .directiveEnd
  · split
    · exact .keyword rfl
    · split
      · rename_i hkeyword
        exact .keyword (isDirective_of_keyword hkeyword)
      · exact (allowed_inExpression cs).inDirective (inExpression_kind_ne hblank)

end Lexeme

/-- At every place, `lex` reads what the mode allows: a `Transition` to the mode of the lexeme. -/
theorem lex_transition (state : LexState) (before : Option Char) {cs : List Char} (h : cs ≠ []) :
    Transition state.mode (lex state before cs).kind (lex state before cs).mode := by
  change Lexeme.Allowed state.mode (lex state before cs)
  obtain ⟨mode, last⟩ := state
  cases mode with
  | initial => exact Lexeme.allowed_betweenSections cs
  | frontMatter => exact Lexeme.allowed_inFrontMatter before cs
  | script => exact Lexeme.allowed_inCode .scriptClose .scriptCode
  | template => exact Lexeme.allowed_inTemplate cs
  | style => exact Lexeme.allowed_inCode .styleClose .styleCode
  | tagOpen => exact Lexeme.allowed_inStartTag last cs
  | tagAttributeValue => exact Lexeme.allowed_inAttributeValue last h
  | tagClose => exact Lexeme.allowed_inEndTag cs
  | interpolation => exact Lexeme.allowed_inExpression cs
  | directive => exact Lexeme.allowed_inDirective cs

end RsxInspect
