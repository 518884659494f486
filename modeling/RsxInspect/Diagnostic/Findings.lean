import RsxInspect.Diagnostic.Problem
import RsxInspect.Text.Delimiter
import RsxInspect.Text.Quoted
import RsxInspect.Token

/-!
# Findings

The lexical problem of a single token, and the log in which diagnostics are collected. The log folds
a run of bad characters that touch into one diagnostic.
-/

namespace RsxInspect

/-- Whether `text` ends with `mark`. -/
def endsWith (mark text : List Char) : Bool :=
  mark.reverse.isPrefixOf text.reverse

/-- The lexical problem that a token of the given kind and text carries, if any. -/
def lexicalProblem? (kind : TokenKind) (text : String) : Option Problem :=
  let chars := text.toList
  match kind with
  | .badCharacter => some (.badCharacter text)
  | .string => if Quoted.terminated true chars then none else some .unterminatedString
  | .attrValue =>
    if Delimiter.openBraces.isPrefixOf chars then
      if endsWith Delimiter.closeBraces chars then none else some .unterminatedAttributeBraces
    else if chars.head?.any isQuote && !Quoted.terminated false chars then
      some .unterminatedAttributeValue
    else none
  | .comment =>
    if text.utf8ByteSize < 7 || !endsWith Delimiter.commentClose chars then
      some .unterminatedComment
    else none
  | _ => none

/-- The diagnostic of the lexical problem that a token carries, if any. -/
def Token.anomaly? (t : Token) (source : String) : Option Diagnostic :=
  (lexicalProblem? t.kind (t.text source)).map (·.on t.span)

/-- Diagnostics in the order in which they were found, newest first. -/
abbrev Findings := List Diagnostic

namespace Findings

/-- Adds a diagnostic. A bad character that touches a run of such becomes part of the run. -/
def record (source : String) (log : Findings) (d : Diagnostic) : Findings :=
  match log with
  | [] => [d]
  | last :: older =>
    if d.kind == .badCharacter && last.kind == .badCharacter && last.span.stop == d.span.start then
      let span := last.span.cover d.span
      (Problem.badCharacters (span.text source)).on span :: older
    else d :: last :: older

/-- Adds diagnostics, the first one first. -/
def recordAll (source : String) (log : Findings) (ds : List Diagnostic) : Findings :=
  ds.foldl (record source) log

/-- The log of the lexical problems of some tokens. -/
def ofTokens (source : String) (tokens : List Token) : Findings :=
  recordAll source [] (tokens.filterMap (·.anomaly? source))

end Findings

end RsxInspect
