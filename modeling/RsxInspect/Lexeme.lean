import RsxInspect.Text.FrontMatter
import RsxInspect.Text.SectionTag
import RsxInspect.LexState
import RsxInspect.Vocabulary

/-!
# Lexemes

`lex` reads one lexeme off the characters that lie ahead: what it is, how many characters it takes
and the mode behind it. There is one rule per mode, and each names the mode that it leads to. The
closing tag of the template is recognised first in every mode inside a template, so a construct left
open cannot run over it unless it is a comment or a quoted literal.

What lies behind the cursor does not matter, save that front-matter code looks at one character to
tell a raw string from a name that ends in `r`.
-/

namespace RsxInspect

/-- What a lexeme is, the number of characters that it takes, and the mode behind it. -/
structure Lexeme where
  kind : TokenKind
  length : Nat
  mode : Mode
  deriving DecidableEq, Repr

namespace Lexeme

/-- A character that fits nowhere. -/
def bad (mode : Mode) : Lexeme := ⟨.badCharacter, 1, mode⟩

/-- Blanks leave the mode as it is; without blanks ahead the rule `other` decides. -/
def blanksOr (mode : Mode) (cs : List Char) (other : Lexeme) : Lexeme :=
  if Text.blanks cs > 0 then ⟨.whitespace, Text.blanks cs, mode⟩ else other

/-- The closing tag of the template leads out of all its modes; if it does not stand ahead, the rule
`other` decides. -/
def templateCloseOr (cs : List Char) (other : Lexeme) : Lexeme :=
  if Delimiter.templateClose.isPrefixOf cs then
    ⟨.templateClose, Delimiter.templateClose.length, .initial⟩
  else other

/-! ### Sections -/

/-- The opening tag of a section. -/
def sectionOpen (tag : List Char) (kind : TokenKind) (mode : Mode) (cs : List Char) : Lexeme :=
  ⟨kind, tag.length + (SectionTag.tagRest (cs.drop tag.length)).length, mode⟩

/-- Between sections: a fence, the opening tag of a section, or blanks. -/
def betweenSections (cs : List Char) : Lexeme :=
  if Delimiter.fence.isPrefixOf cs then
    ⟨.frontMatterDelimiter, Delimiter.fence.length, .frontMatter⟩
  else if SectionTag.opensWith Delimiter.scriptTag cs then
    sectionOpen Delimiter.scriptTag .scriptOpen .script cs
  else if SectionTag.opensWith Delimiter.templateTag cs then
    sectionOpen Delimiter.templateTag .templateOpen .template cs
  else if SectionTag.opensWith Delimiter.styleTag cs then
    sectionOpen Delimiter.styleTag .styleOpen .style cs
  else blanksOr .initial cs (bad .initial)

/-- Inside front matter: the closing fence, or all the code up to it. -/
def inFrontMatter (before : Option Char) (cs : List Char) : Lexeme :=
  if Delimiter.fence.isPrefixOf cs then
    ⟨.frontMatterDelimiter, Delimiter.fence.length, .initial⟩
  else ⟨.frontMatterCode, FrontMatter.codeLength before cs, .frontMatter⟩

/-- Inside script or style: the closing tag, or all the code up to it. The first closing tag always
counts, whatever it stands in. -/
def inCode (close : List Char) (closeKind code : TokenKind) (mode : Mode) (cs : List Char) :
    Lexeme :=
  if close.isPrefixOf cs then ⟨closeKind, close.length, .initial⟩
  else ⟨code, (Text.upTo close cs).length, mode⟩

/-! ### Markup -/

/-- The mode behind opening braces: a directive keyword may follow only right behind them. -/
def modeInBraces (cs : List Char) : Mode :=
  match cs.head? with
  | some '@' | some ':' | some '/' => .directive
  | _ => .interpolation

/-- The characters up to the next tag, braces or blank, `n` more. -/
def textFrom (n : Nat) : List Char → Nat
  | [] => n
  | c :: cs =>
    if c == '<' || isBlank c || Delimiter.openBraces.isPrefixOf (c :: cs) then n
    else textFrom (n + 1) cs

/-- The markup of a template. -/
def inTemplate (cs : List Char) : Lexeme :=
  templateCloseOr cs <|
    if Delimiter.commentOpen.isPrefixOf cs then
      ⟨.comment, 4 + (Text.past Delimiter.commentClose (cs.drop 4)).length, .template⟩
    else if Delimiter.endTag.isPrefixOf cs then ⟨.tagEndOpen, 2, .tagClose⟩
    else if ['<'].isPrefixOf cs then ⟨.tagOpen, 1, .tagOpen⟩
    else if Delimiter.openBraces.isPrefixOf cs then
      ⟨.interpolationOpen, 2, modeInBraces (cs.drop 2)⟩
    else blanksOr .template cs ⟨.text, textFrom 0 cs, .template⟩

/-- Inside a start tag. The first name is that of the tag, the others are those of attributes. -/
def inStartTag (last : Option TokenKind) (cs : List Char) : Lexeme :=
  templateCloseOr cs <| blanksOr .tagOpen cs <|
    if Delimiter.selfClose.isPrefixOf cs then ⟨.selfClose, 2, .template⟩
    else
      match cs with
      | [] => bad .tagOpen
      | c :: _ =>
        if c == '>' then ⟨.tagClose, 1, .template⟩
        else if c == '=' then ⟨.equals, 1, .tagAttributeValue⟩
        else if isQuote c then ⟨.attrValue, (Quoted.extent false cs).length, .tagOpen⟩
        else if isNameStart c then
          ⟨if last = some .tagOpen then .tagName else .attrName,
            Text.countWhile isTagNamePart cs, .tagOpen⟩
        else bad .tagOpen

/-- The characters of a value without quotes, up to a blank or the end of the tag, `n` more. -/
def bareValueFrom (n : Nat) : List Char → Nat
  | [] => n
  | c :: cs =>
    if isBlank c || c == '>' || Delimiter.selfClose.isPrefixOf (c :: cs) then n
    else bareValueFrom (n + 1) cs

/-- Behind the `=` of an attribute: a quoted value, braces or a bare value. If the tag ends instead,
its own rule takes over. -/
def inAttributeValue (last : Option TokenKind) (cs : List Char) : Lexeme :=
  templateCloseOr cs <| blanksOr .tagAttributeValue cs <|
    match cs with
    | [] => bad .tagOpen
    | c :: _ =>
      if isQuote c then ⟨.attrValue, (Quoted.extent false cs).length, .tagOpen⟩
      else if Delimiter.openBraces.isPrefixOf cs then
        ⟨.attrValue, (Text.past Delimiter.closeBraces cs).length, .tagOpen⟩
      else if bareValueFrom 0 cs = 0 then inStartTag last cs
      else ⟨.attrValue, bareValueFrom 0 cs, .tagOpen⟩

/-- Inside an end tag. -/
def inEndTag (cs : List Char) : Lexeme :=
  templateCloseOr cs <| blanksOr .tagClose cs <|
    match cs with
    | [] => bad .tagClose
    | c :: _ =>
      if c == '>' then ⟨.tagClose, 1, .template⟩
      else if isNameStart c then ⟨.tagName, Text.countWhile isTagNamePart cs, .tagClose⟩
      else bad .tagClose

/-! ### Expressions and directives -/

/-- The characters of a number: digits, and a point with more digits if a digit follows it. -/
def numberLength (cs : List Char) : Nat :=
  let whole := Text.countWhile Char.isDigit cs
  match cs.drop whole with
  | '.' :: d :: fraction =>
    if d.isDigit then whole + 1 + Text.countWhile Char.isDigit (d :: fraction) else whole
  | _ => whole

/-- Inside braces: the closing braces, an operator, a string, a number or a word. -/
def inExpression (cs : List Char) : Lexeme :=
  templateCloseOr cs <| blanksOr .interpolation cs <|
    if Delimiter.closeBraces.isPrefixOf cs then ⟨.interpolationClose, 2, .template⟩
    else
      match Vocabulary.operators.find? (·.1.isPrefixOf cs) with
      | some (op, kind) => ⟨kind, op.length, .interpolation⟩
      | none =>
        match cs with
        | [] => bad .interpolation
        | c :: _ =>
          if isQuote c then ⟨.string, (Quoted.extent true cs).length, .interpolation⟩
          else if c.isDigit then ⟨.number, numberLength cs, .interpolation⟩
          else if isNameStart c then
            let word := cs.takeWhile isNamePart
            ⟨(Vocabulary.expressionKeyword? word).getD .identifier, word.length, .interpolation⟩
          else bad .interpolation

/-- The characters of `:else`, blanks and the word `if`, where these stand ahead. -/
def elseIfLength? (cs : List Char) : Option Nat :=
  let head := [':', 'e', 'l', 's', 'e']
  let gap := Text.blanks (cs.drop head.length)
  if head.isPrefixOf cs && gap > 0
      && Text.startsWithWord ['i', 'f'] (cs.drop (head.length + gap)) then
    some (head.length + gap + 2)
  else none

/-- Right behind opening braces: a directive keyword. Anything else is read as an expression. -/
def inDirective (cs : List Char) : Lexeme :=
  templateCloseOr cs <| blanksOr .directive cs <|
    if Delimiter.closeBraces.isPrefixOf cs then ⟨.interpolationClose, 2, .template⟩
    else
      match elseIfLength? cs with
      | some length => ⟨.elseIf, length, .interpolation⟩
      | none =>
        match Vocabulary.directiveKeywords.find? (Text.startsWithWord ·.1 cs) with
        | some (keyword, kind) => ⟨kind, keyword.length, .interpolation⟩
        | none => inExpression cs

end Lexeme

/-- The lexeme at the start of `cs`, where `before` is the character in front of it. -/
def lex (state : LexState) (before : Option Char) (cs : List Char) : Lexeme :=
  match state.mode with
  | .initial => Lexeme.betweenSections cs
  | .frontMatter => Lexeme.inFrontMatter before cs
  | .script => Lexeme.inCode Delimiter.scriptClose .scriptClose .scriptCode .script cs
  | .style => Lexeme.inCode Delimiter.styleClose .styleClose .styleCode .style cs
  | .template => Lexeme.inTemplate cs
  | .tagOpen => Lexeme.inStartTag state.last cs
  | .tagAttributeValue => Lexeme.inAttributeValue state.last cs
  | .tagClose => Lexeme.inEndTag cs
  | .interpolation => Lexeme.inExpression cs
  | .directive => Lexeme.inDirective cs

namespace Lexeme

/-! ### Blanks

A lexeme of kind `whitespace` is the run of blanks that lies ahead, whatever the mode. -/

/-- A lexeme that takes characters if it is of kind `whitespace`. -/
def BlankTakes (x : Lexeme) : Prop := x.kind = .whitespace → 0 < x.length

theorem BlankTakes.of_kind {x : Lexeme} (h : x.kind ≠ .whitespace) : BlankTakes x :=
  fun hx => absurd hx h

theorem blankTakes_bad (mode : Mode) : BlankTakes (bad mode) :=
  .of_kind (by simp [bad])

theorem blankTakes_blanksOr {mode : Mode} {cs : List Char} {other : Lexeme}
    (h : BlankTakes other) : BlankTakes (blanksOr mode cs other) := by
  unfold blanksOr
  split
  · intro _; assumption
  · exact h

theorem blankTakes_templateCloseOr {cs : List Char} {other : Lexeme} (h : BlankTakes other) :
    BlankTakes (templateCloseOr cs other) := by
  unfold templateCloseOr
  split
  · exact .of_kind (by simp)
  · exact h

theorem blankTakes_betweenSections (cs : List Char) : BlankTakes (betweenSections cs) := by
  unfold betweenSections
  repeat' split
  all_goals first
    | exact blankTakes_blanksOr (blankTakes_bad _)
    | exact .of_kind (by simp [sectionOpen])

theorem blankTakes_inTemplate (cs : List Char) : BlankTakes (inTemplate cs) := by
  refine blankTakes_templateCloseOr ?_
  repeat' split
  all_goals first
    | exact blankTakes_blanksOr (.of_kind (by simp))
    | exact .of_kind (by simp)

theorem blankTakes_inStartTag (last : Option TokenKind) (cs : List Char) :
    BlankTakes (inStartTag last cs) := by
  refine blankTakes_templateCloseOr (blankTakes_blanksOr ?_)
  repeat' split
  all_goals first
    | exact blankTakes_bad _
    | exact .of_kind (by simp)

theorem blankTakes_inAttributeValue (last : Option TokenKind) (cs : List Char) :
    BlankTakes (inAttributeValue last cs) := by
  refine blankTakes_templateCloseOr (blankTakes_blanksOr ?_)
  repeat' split
  all_goals first
    | exact blankTakes_bad _
    | exact blankTakes_inStartTag _ _
    | exact .of_kind (by simp)

theorem blankTakes_inEndTag (cs : List Char) : BlankTakes (inEndTag cs) := by
  refine blankTakes_templateCloseOr (blankTakes_blanksOr ?_)
  repeat' split
  all_goals first
    | exact blankTakes_bad _
    | exact .of_kind (by simp)

theorem kind_ne_of_operator {cs op : List Char} {kind : TokenKind}
    (h : Vocabulary.operators.find? (·.1.isPrefixOf cs) = some (op, kind)) :
    kind ≠ .whitespace := by
  have := List.mem_of_find?_eq_some h
  simp only [Vocabulary.operators, List.mem_cons, Prod.mk.injEq, List.not_mem_nil, or_false] at this
  rintro rfl
  simp at this

theorem kind_ne_of_keyword {cs keyword : List Char} {kind : TokenKind}
    (h : Vocabulary.directiveKeywords.find? (Text.startsWithWord ·.1 cs) = some (keyword, kind)) :
    kind ≠ .whitespace := by
  have := List.mem_of_find?_eq_some h
  simp only [Vocabulary.directiveKeywords, List.mem_cons, Prod.mk.injEq, List.not_mem_nil,
    or_false] at this
  rintro rfl
  simp at this

theorem expressionKeyword_ne (word : List Char) :
    (Vocabulary.expressionKeyword? word).getD .identifier ≠ .whitespace := by
  unfold Vocabulary.expressionKeyword?
  repeat' split
  all_goals simp

theorem blankTakes_inExpression (cs : List Char) : BlankTakes (inExpression cs) := by
  refine blankTakes_templateCloseOr (blankTakes_blanksOr ?_)
  split
  · exact .of_kind (by simp)
  · split
    · rename_i h
      exact .of_kind (kind_ne_of_operator h)
    · repeat' split
      all_goals first
        | exact blankTakes_bad _
        | exact .of_kind (expressionKeyword_ne _)
        | exact .of_kind (by simp)

theorem blankTakes_inDirective (cs : List Char) : BlankTakes (inDirective cs) := by
  refine blankTakes_templateCloseOr (blankTakes_blanksOr ?_)
  split
  · exact .of_kind (by simp)
  · split
    · exact .of_kind (by simp)
    · split
      · rename_i h
        exact .of_kind (kind_ne_of_keyword h)
      · exact blankTakes_inExpression cs

end Lexeme

/-- A lexeme of kind `whitespace` takes at least one character. -/
theorem lex_length_pos {state : LexState} {before : Option Char} {cs : List Char}
    (h : (lex state before cs).kind = .whitespace) : 0 < (lex state before cs).length := by
  revert h
  change Lexeme.BlankTakes (lex state before cs)
  unfold lex
  split
  · exact Lexeme.blankTakes_betweenSections cs
  · unfold Lexeme.inFrontMatter; split <;> exact .of_kind (by simp)
  · unfold Lexeme.inCode; split <;> exact .of_kind (by simp)
  · unfold Lexeme.inCode; split <;> exact .of_kind (by simp)
  · exact Lexeme.blankTakes_inTemplate cs
  · exact Lexeme.blankTakes_inStartTag _ cs
  · exact Lexeme.blankTakes_inAttributeValue _ cs
  · exact Lexeme.blankTakes_inEndTag cs
  · exact Lexeme.blankTakes_inExpression cs
  · exact Lexeme.blankTakes_inDirective cs

end RsxInspect
