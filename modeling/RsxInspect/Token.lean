import RsxInspect.Span

/-!
# Tokens

A token is a kind and the span of the source that it covers; its text is read off the source through
the span. The kinds are grouped by the part of a file that they occur in.
-/

namespace RsxInspect

/-- What a token is. -/
inductive TokenKind where
  /-- `---` -/
  | frontMatterDelimiter
  | frontMatterCode
  /-- `<script ...>` -/
  | scriptOpen
  | scriptCode
  | scriptClose
  /-- `<template ...>` -/
  | templateOpen
  | templateClose
  /-- `<style ...>` -/
  | styleOpen
  | styleCode
  | styleClose
  /-- `<` -/
  | tagOpen
  /-- `</` -/
  | tagEndOpen
  /-- `>` -/
  | tagClose
  /-- `/>` -/
  | selfClose
  | tagName
  | attrName
  | equals
  | attrValue
  | text
  /-- `<!-- ... -->` -/
  | comment
  /-- An opening pair of braces. -/
  | interpolationOpen
  /-- A closing pair of braces. -/
  | interpolationClose
  /-- `@if` -/
  | ifBlock
  /-- `:else if` or `:elseif` -/
  | elseIf
  /-- `:else` -/
  | elseBranch
  /-- `/if` -/
  | endIf
  /-- `@each` -/
  | eachBlock
  /-- `/each` -/
  | endEach
  /-- `@html` -/
  | html
  | identifier
  | number
  | string
  | boolean
  /-- The word `as`. -/
  | asWord
  /-- `===` -/
  | strictEq
  /-- `!==` -/
  | strictNotEq
  /-- `==` -/
  | eqEq
  /-- `!=` -/
  | notEq
  /-- `>=` -/
  | gtEq
  /-- `<=` -/
  | ltEq
  /-- `&&` -/
  | andAnd
  /-- `||` -/
  | orOr
  | gt
  | lt
  | plus
  | minus
  | star
  | slash
  | percent
  | bang
  | question
  | colon
  | dot
  | comma
  | lParen
  | rParen
  | lBracket
  | rBracket
  | whitespace
  /-- A character that belongs to nothing. -/
  | badCharacter
  /-- The end of what is scanned. -/
  | eof
  deriving DecidableEq, Repr, Inhabited

namespace TokenKind

/-- All kinds, in the order of their declaration. -/
def all : List TokenKind :=
  [frontMatterDelimiter, frontMatterCode, scriptOpen, scriptCode, scriptClose, templateOpen,
   templateClose, styleOpen, styleCode, styleClose, tagOpen, tagEndOpen, tagClose, selfClose,
   tagName, attrName, equals, attrValue, text, comment, interpolationOpen, interpolationClose,
   ifBlock, elseIf, elseBranch, endIf, eachBlock, endEach, html, identifier, number, string,
   boolean, asWord, strictEq, strictNotEq, eqEq, notEq, gtEq, ltEq, andAnd, orOr, gt, lt, plus,
   minus, star, slash, percent, bang, question, colon, dot, comma, lParen, rParen, lBracket,
   rBracket, whitespace, badCharacter, eof]

/-- The name of a kind in written output. -/
def name : TokenKind → String
  | frontMatterDelimiter => "FrontMatterDelimiter"
  | frontMatterCode => "FrontMatterCode"
  | scriptOpen => "ScriptOpen"
  | scriptCode => "ScriptCode"
  | scriptClose => "ScriptClose"
  | templateOpen => "TemplateOpen"
  | templateClose => "TemplateClose"
  | styleOpen => "StyleOpen"
  | styleCode => "StyleCode"
  | styleClose => "StyleClose"
  | tagOpen => "TagOpen"
  | tagEndOpen => "TagEndOpen"
  | tagClose => "TagClose"
  | selfClose => "SelfClose"
  | tagName => "TagName"
  | attrName => "AttrName"
  | equals => "Equals"
  | attrValue => "AttrValue"
  | text => "Text"
  | comment => "Comment"
  | interpolationOpen => "InterpolationOpen"
  | interpolationClose => "InterpolationClose"
  | ifBlock => "If"
  | elseIf => "ElseIf"
  | elseBranch => "Else"
  | endIf => "EndIf"
  | eachBlock => "Each"
  | endEach => "EndEach"
  | html => "Html"
  | identifier => "Identifier"
  | number => "Number"
  | string => "String"
  | boolean => "Boolean"
  | asWord => "As"
  | strictEq => "StrictEq"
  | strictNotEq => "StrictNotEq"
  | eqEq => "EqEq"
  | notEq => "NotEq"
  | gtEq => "GtEq"
  | ltEq => "LtEq"
  | andAnd => "AndAnd"
  | orOr => "OrOr"
  | gt => "Gt"
  | lt => "Lt"
  | plus => "Plus"
  | minus => "Minus"
  | star => "Star"
  | slash => "Slash"
  | percent => "Percent"
  | bang => "Bang"
  | question => "Question"
  | colon => "Colon"
  | dot => "Dot"
  | comma => "Comma"
  | lParen => "LParen"
  | rParen => "RParen"
  | lBracket => "LBracket"
  | rBracket => "RBracket"
  | whitespace => "Whitespace"
  | badCharacter => "BadCharacter"
  | eof => "Eof"

/-- The kind with the given name. -/
def ofName? (s : String) : Option TokenKind :=
  all.find? (·.name == s)

/-- White space carries no meaning for the tree. -/
def isTrivia (k : TokenKind) : Bool := k == whitespace

/-- The kinds that an expression is made of. -/
def isExpression : TokenKind → Bool
  | identifier | number | string | boolean | asWord
  | strictEq | strictNotEq | eqEq | notEq | gtEq | ltEq | andAnd | orOr | gt | lt
  | plus | minus | star | slash | percent | bang | question | colon | dot | comma
  | lParen | rParen | lBracket | rBracket => true
  | _ => false

/-- The kinds that end the run of tokens between a pair of braces. -/
def endsRun : TokenKind → Bool
  | interpolationClose | templateClose | eof => true
  | _ => false

end TokenKind

/-- A kind and the span it was found on. -/
structure Token where
  kind : TokenKind
  span : Span
  deriving DecidableEq, Repr, Inhabited

namespace Token

/-- The part of `source` that the token covers. -/
def text (t : Token) (source : String) : String :=
  t.span.text source

end Token

end RsxInspect
