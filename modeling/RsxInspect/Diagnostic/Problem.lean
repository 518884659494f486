import RsxInspect.Diagnostic
import RsxInspect.Tree.Kind

/-!
# Problems

The causes of diagnostics. `Problem.kind` and `Problem.message` are the one place where a cause gets
its kind and its wording.
-/

namespace RsxInspect

/-- Where a token stands that is not expected. -/
inductive Place where
  | outsideSections
  | template
  | tagName
  | startTag
  | endTag
  deriving DecidableEq, Repr

def Place.phrase : Place → String
  | outsideSections => "outside of any section"
  | template => "in template"
  | tagName => "where a tag name was expected"
  | startTag => "in start tag"
  | endTag => "in end tag"

/-- What an expression has to go on with. -/
inductive Expectation where
  | operand
  | validNumber
  | conditionColon
  | propertyName
  | closingBracket
  | closingParenthesis
  | endOfArguments
  | endOfExpression
  deriving DecidableEq, Repr

def Expectation.phrase : Expectation → String
  | operand => "expected an expression"
  | validNumber => "invalid number"
  | conditionColon => "expected `:` in conditional expression"
  | propertyName => "expected property name after `.`"
  | closingBracket => "expected `]`"
  | closingParenthesis => "expected `)`"
  | endOfArguments => "expected `)` after arguments"
  | endOfExpression => "expected end of expression"

/-- The heads of the branches behind the first one of a choice. -/
inductive BranchWord where
  | elseIf
  | elseBranch
  deriving DecidableEq, Repr

def BranchWord.spelling : BranchWord → String
  | elseIf => ":else if"
  | elseBranch => ":else"

/-- What an unclosed block or a closer without its block runs into. -/
inductive OpenConstruct where
  | element (name : String)
  | directive (kind : DirectiveKind)
  deriving DecidableEq, Repr

def OpenConstruct.spelling : OpenConstruct → String
  | element name => s!"<{name}>"
  | directive kind => kind.keyword

/-- The deepest nesting of an expression. -/
def maxNesting : Nat := 256

/-- The cause of a diagnostic. -/
inductive Problem where
  | badCharacter (text : String)
  | badCharacters (text : String)
  | unterminatedString
  | unterminatedAttributeValue
  | unterminatedAttributeBraces
  | unterminatedComment
  | unexpectedToken (text : String) (place : Place)
  | unexpectedEnd (place : Place)
  | duplicateSection (kind : SectionKind)
  | unclosedSection (kind : SectionKind)
  | openTagWithoutEnd (text : String)
  | startTagWithoutEnd (text : String)
  | endTagWithoutEnd
  | endTagWithoutName
  | endTagWithoutStart (name : String)
  | attributeWithoutValue
  | emptyBraces
  | unclosedBraces
  | directiveWithoutExpression (kind : DirectiveKind)
  | loopWithoutBinding
  | branchOutsideChoice (word : BranchWord)
  | branchAfterElse (word : BranchWord)
  | elseWithCondition
  | elseIfWithoutCondition
  | closerWithExpression (kind : DirectiveKind)
  | closerOver (kind : DirectiveKind) (innermost : OpenConstruct)
  | closerAlone (kind : DirectiveKind)
  | unclosedElement (name : String)
  | unclosedDirective (kind : DirectiveKind)
  | found (expected : Expectation) (text : String)
  | ended (expected : Expectation)
  | noExpression
  | tooDeep
  deriving DecidableEq, Repr

namespace Problem

def kind : Problem → DiagnosticKind
  | badCharacter _ | badCharacters _ => .badCharacter
  | unterminatedString | unterminatedAttributeValue => .unterminatedString
  | unterminatedComment => .unterminatedComment
  | unterminatedAttributeBraces | unclosedBraces => .unterminatedInterpolation
  | unclosedSection _ => .unterminatedSection
  | unclosedDirective _ => .unterminatedDirective
  | closerOver _ _ | closerAlone _ => .mismatchedDirectiveClose
  | openTagWithoutEnd _ | startTagWithoutEnd _ | endTagWithoutEnd | unclosedElement _ =>
    .missingTagClose
  | duplicateSection _ => .duplicateSection
  | _ => .unexpectedToken

def message : Problem → String
  | badCharacter text => s!"unexpected character `{text}`"
  | badCharacters text => s!"unexpected characters `{text}`"
  | unterminatedString => "unterminated string literal"
  | unterminatedAttributeValue => "unterminated attribute value"
  | unterminatedAttributeBraces => "attribute value is missing `\x7d\x7d`"
  | unterminatedComment => "comment is missing `-->`"
  | unexpectedToken text place => s!"unexpected `{text}` {place.phrase}"
  | unexpectedEnd place => s!"unexpected end of input {place.phrase}"
  | duplicateSection kind => s!"duplicate {kind.title} section"
  | unclosedSection kind => s!"{kind.title} section is never closed"
  | openTagWithoutEnd text => s!"`{text}` is missing `>`"
  | startTagWithoutEnd text => s!"start tag `{text}` is missing `>`"
  | endTagWithoutEnd => "end tag is missing `>`"
  | endTagWithoutName => "end tag has no name"
  | endTagWithoutStart name => s!"`</{name}>` has no matching start tag"
  | attributeWithoutValue => "expected a value after `=`"
  | emptyBraces => "expected an expression inside `\x7b\x7b \x7d\x7d`"
  | unclosedBraces => "`\x7b\x7b` is missing `\x7d\x7d`"
  | directiveWithoutExpression kind => s!"`{kind.keyword}` needs an expression"
  | loopWithoutBinding => "expected `iterable as item` or `iterable as item, index`"
  | branchOutsideChoice word => s!"`{word.spelling}` outside of an `@if` block"
  | branchAfterElse word => s!"`{word.spelling}` after `:else`"
  | elseWithCondition => "`:else` takes no condition"
  | elseIfWithoutCondition => "`:else if` needs a condition"
  | closerWithExpression kind => s!"`{kind.closer}` takes no expression"
  | closerOver kind innermost => s!"`{kind.closer}` does not close `{innermost.spelling}`"
  | closerAlone kind => s!"`{kind.closer}` without an open `{kind.keyword}`"
  | unclosedElement name => s!"`<{name}>` is never closed"
  | unclosedDirective kind => s!"`{kind.keyword}` is missing `{kind.closer}`"
  | found expected text => s!"{expected.phrase}, found `{text}`"
  | ended expected => expected.phrase
  | noExpression => "unexpected end of expression"
  | tooDeep => s!"expression nests deeper than {maxNesting} levels"

/-- The diagnostic of a problem on a span. -/
def on (p : Problem) (span : Span) : Diagnostic :=
  ⟨p.kind, span, p.message⟩

end Problem

end RsxInspect
