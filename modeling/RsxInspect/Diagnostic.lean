import RsxInspect.Span

/-!
# Diagnostics

A diagnostic is a kind of problem, the span of the source that it concerns and a message. Kinds fall
into three categories.
-/

namespace RsxInspect

/-- Broad groups of diagnostics. -/
inductive Category where
  /-- Characters or literals that make no sense. -/
  | lexicalAnomaly
  /-- Something that was opened and never closed. -/
  | unterminatedConstruct
  /-- Closers that do not match what is open. -/
  | structuralMismatch
  deriving DecidableEq, Repr

/-- The name of a category in written output. -/
def Category.name : Category → String
  | lexicalAnomaly => "LexicalAnomaly"
  | unterminatedConstruct => "UnterminatedConstruct"
  | structuralMismatch => "StructuralMismatch"

inductive DiagnosticKind where
  | badCharacter
  | unterminatedString
  | unterminatedComment
  | unterminatedInterpolation
  | unterminatedSection
  | unterminatedDirective
  | mismatchedDirectiveClose
  | missingTagClose
  | duplicateSection
  | unexpectedToken
  deriving DecidableEq, Repr, Inhabited

namespace DiagnosticKind

def all : List DiagnosticKind :=
  [badCharacter, unterminatedString, unterminatedComment, unterminatedInterpolation,
   unterminatedSection, unterminatedDirective, mismatchedDirectiveClose, missingTagClose,
   duplicateSection, unexpectedToken]

def category : DiagnosticKind → Category
  | badCharacter | unterminatedString => .lexicalAnomaly
  | unterminatedComment | unterminatedInterpolation | unterminatedSection
  | unterminatedDirective => .unterminatedConstruct
  | mismatchedDirectiveClose | missingTagClose | duplicateSection | unexpectedToken =>
    .structuralMismatch

/-- The name of a kind in structured output. -/
def name : DiagnosticKind → String
  | badCharacter => "BadCharacter"
  | unterminatedString => "UnterminatedString"
  | unterminatedComment => "UnterminatedComment"
  | unterminatedInterpolation => "UnterminatedInterpolation"
  | unterminatedSection => "UnterminatedSection"
  | unterminatedDirective => "UnterminatedDirective"
  | mismatchedDirectiveClose => "MismatchedDirectiveClose"
  | missingTagClose => "MissingTagClose"
  | duplicateSection => "DuplicateSection"
  | unexpectedToken => "UnexpectedToken"

/-- The kind with the given name. -/
def ofName? (s : String) : Option DiagnosticKind :=
  all.find? (·.name == s)

/-- The name of a kind in lines of text. -/
def label : DiagnosticKind → String
  | badCharacter => "bad-character"
  | unterminatedString => "unterminated-string"
  | unterminatedComment => "unterminated-comment"
  | unterminatedInterpolation => "unterminated-interpolation"
  | unterminatedSection => "unterminated-section"
  | unterminatedDirective => "unterminated-directive"
  | mismatchedDirectiveClose => "mismatched-directive-close"
  | missingTagClose => "missing-tag-close"
  | duplicateSection => "duplicate-section"
  | unexpectedToken => "unexpected-token"

end DiagnosticKind

/-- A problem in a source text, with the span that it concerns. -/
structure Diagnostic where
  kind : DiagnosticKind
  span : Span
  message : String
  deriving DecidableEq, Repr, Inhabited

namespace Diagnostic

def category (d : Diagnostic) : Category := d.kind.category

/-- The diagnostic as one line. -/
def line (d : Diagnostic) : String :=
  s!"{d.kind.label} at {d.span.start}..{d.span.stop}: {d.message}"

end Diagnostic

end RsxInspect
