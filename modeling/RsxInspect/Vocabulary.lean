import RsxInspect.Token

/-!
# Vocabulary

The words and operators that the scanner and its callers know: keywords of the embedded languages,
elements without content, directive keywords and expression operators.
-/

namespace RsxInspect

/-- The languages of a file. -/
inductive Language where
  /-- The code between the fences. -/
  | frontMatter
  /-- The code of `<script>`. -/
  | script
  /-- The rules of `<style>`. -/
  | style
  /-- The markup of `<template>`. -/
  | markup
  /-- The expressions between braces. -/
  | expression
  deriving DecidableEq, Repr

/-- What a word is in its language. -/
inductive WordClass where
  | keyword
  | primitiveType
  | builtinType
  | atRule
  | voidElement
  deriving DecidableEq, Repr

namespace Language

def all : List Language := [frontMatter, script, style, markup, expression]

/-- The name of a language in requests. -/
def name : Language → String
  | frontMatter => "FrontMatter"
  | script => "Script"
  | style => "Style"
  | markup => "Markup"
  | expression => "Expression"

/-- The language with the given name. -/
def ofName? (s : String) : Option Language :=
  all.find? (·.name == s)

end Language

/-- The name of a word class in written output. -/
def WordClass.name : WordClass → String
  | .keyword => "Keyword"
  | .primitiveType => "PrimitiveType"
  | .builtinType => "BuiltinType"
  | .atRule => "AtRule"
  | .voidElement => "VoidElement"

namespace Vocabulary

/-- Classes of words with their members. A word belongs to the first class that lists it. -/
abbrev WordList := List (WordClass × List String)

/-- The words of front-matter code. -/
def frontMatter : WordList :=
  [(.keyword,
    ["as", "async", "await", "break", "const", "continue", "crate", "dyn", "else", "enum",
     "extern", "false", "fn", "for", "if", "impl", "in", "let", "loop", "match", "mod", "move",
     "mut", "pub", "ref", "return", "self", "Self", "static", "struct", "super", "trait", "true",
     "type", "unsafe", "use", "where", "while"]),
   (.primitiveType,
    ["bool", "char", "str", "i8", "i16", "i32", "i64", "i128", "isize", "u8", "u16", "u32", "u64",
     "u128", "usize", "f32", "f64"]),
   (.builtinType,
    ["String", "Vec", "Option", "Result", "Box", "Rc", "Arc", "HashMap", "HashSet", "BTreeMap",
     "Some", "None", "Ok", "Err"])]

/-- The words of script code. -/
def script : WordList :=
  [(.keyword,
    ["abstract", "as", "async", "await", "break", "case", "catch", "class", "const", "continue",
     "default", "delete", "do", "else", "enum", "export", "extends", "false", "finally", "for",
     "from", "function", "if", "implements", "import", "in", "instanceof", "interface", "let",
     "new", "null", "private", "protected", "public", "readonly", "return", "static", "super",
     "switch", "this", "throw", "true", "try", "type", "typeof", "undefined", "var", "void",
     "while", "yield"]),
   (.primitiveType,
    ["any", "bigint", "boolean", "never", "number", "object", "string", "symbol", "unknown"]),
   (.builtinType,
    ["Array", "Date", "Error", "Map", "Promise", "Record", "Partial", "Readonly", "Set", "JSON",
     "Math", "Object", "console", "window", "document"])]

/-- The words of style rules. -/
def style : WordList :=
  [(.atRule,
    ["@charset", "@container", "@font-face", "@import", "@keyframes", "@layer", "@media",
     "@namespace", "@page", "@supports"]),
   (.keyword, ["!important", "auto", "inherit", "initial", "none", "revert", "unset"])]

/-- The elements that take neither children nor an end tag. -/
def voidElements : List String :=
  ["area", "base", "br", "col", "embed", "hr", "img", "input", "link", "meta", "param", "source",
   "track", "wbr"]

/-- The directive keywords in the order in which they are tried. The spelling of `:else if` in two
words is not among them. -/
def directiveKeywords : List (List Char × TokenKind) :=
  [(['@', 'i', 'f'], .ifBlock),
   (['@', 'e', 'a', 'c', 'h'], .eachBlock),
   (['@', 'h', 't', 'm', 'l'], .html),
   ([':', 'e', 'l', 's', 'e', 'i', 'f'], .elseIf),
   ([':', 'e', 'l', 's', 'e'], .elseBranch),
   (['/', 'i', 'f'], .endIf),
   (['/', 'e', 'a', 'c', 'h'], .endEach)]

/-- The expression operators in the order in which they are tried. Longer ones come first, so that
none hides another that it starts. -/
def operators : List (List Char × TokenKind) :=
  [(['=', '=', '='], .strictEq),
   (['!', '=', '='], .strictNotEq),
   (['=', '='], .eqEq),
   (['!', '='], .notEq),
   (['>', '='], .gtEq),
   (['<', '='], .ltEq),
   (['&', '&'], .andAnd),
   (['|', '|'], .orOr),
   (['>'], .gt),
   (['<'], .lt),
   (['+'], .plus),
   (['-'], .minus),
   (['*'], .star),
   (['/'], .slash),
   (['%'], .percent),
   (['!'], .bang),
   (['?'], .question),
   ([':'], .colon),
   (['.'], .dot),
   ([','], .comma),
   (['('], .lParen),
   ([')'], .rParen),
   (['['], .lBracket),
   ([']'], .rBracket)]

/-- The kind of a word that is not an identifier in an expression. -/
def expressionKeyword? (word : List Char) : Option TokenKind :=
  if word == ['t', 'r', 'u', 'e'] || word == ['f', 'a', 'l', 's', 'e'] then some .boolean
  else if word == ['a', 's'] then some .asWord
  else none

/-- Whether two names agree up to the case of ASCII letters. -/
def sameName (a b : String) : Bool :=
  a.toList.map Char.toLower == b.toList.map Char.toLower

/-- Whether `name` names an element that takes neither children nor an end tag. -/
def isVoidElement (name : String) : Bool :=
  voidElements.any (sameName · name)

/-- The first class of `words` that lists `word`. -/
def classOf? (words : WordList) (word : String) : Option WordClass :=
  (words.find? fun c => c.2.contains word).map Prod.fst

/-- What `word` is in `language`, if it is anything special. -/
def classify (language : Language) (word : String) : Option WordClass :=
  match language with
  | .frontMatter => classOf? frontMatter word
  | .script => classOf? script word
  | .style => classOf? style word
  | .markup => if isVoidElement word then some .voidElement else none
  | .expression => (expressionKeyword? word.toList).map fun _ => .keyword

end Vocabulary

end RsxInspect
