import RsxInspect.Document
import RsxInspect.Proofs.Expr.Moved
import RsxInspect.Proofs.Scan.Spelling

/-!
# Well-formed markup

The abstract syntax of markup in which nothing is wrong, and how it is written out. Names
(`MarkupName`), values (`QuotedValue`), texts (`PlainText`) and expressions (`Phrase`) carry the
conditions under which they can be written down as they are, so the only thing left to ask of a tree
is that no two texts stand side by side (`Markup.Separated`).

`Markup.render` writes a tree out. `Markup.Depicts` says that a node of a document shows a tree: the
same names, attributes, texts, branches and expressions in the same order, whatever the spans are.
-/

namespace RsxInspect

/-! ### Words of expressions -/

namespace Word

/-- The single space that words of expressions are set apart by. -/
def blank : Word := ⟨.whitespace, [' ']⟩

/-- A word that stands for itself in an expression: read alone it is one token of its kind. A string
ends at its first quote that no backslash protects. -/
inductive IsExpression : Word → Prop where
  | name {c : Char} {cs : List Char} (start : isNameStart c = true)
      (parts : ∀ c ∈ cs, isNamePart c = true) :
      IsExpression ⟨(Vocabulary.expressionKeyword? (c :: cs)).getD .identifier, c :: cs⟩
  | whole {digits : List Char} (nonempty : digits ≠ []) (all : ∀ c ∈ digits, c.isDigit = true) :
      IsExpression ⟨.number, digits⟩
  | decimal {digits fraction : List Char} (nonempty : digits ≠ [])
      (all : ∀ c ∈ digits, c.isDigit = true) (nonempty' : fraction ≠ [])
      (all' : ∀ c ∈ fraction, c.isDigit = true) :
      IsExpression ⟨.number, digits ++ '.' :: fraction⟩
  | string {quote : Char} {cs : List Char} (isQuote : isQuote quote = true)
      (ends : Quoted.body true quote cs = ⟨cs.length, true⟩) : IsExpression ⟨.string, quote :: cs⟩
  | operator {op : List Char} {kind : TokenKind} (h : (op, kind) ∈ Vocabulary.operators) :
      IsExpression ⟨kind, op⟩

/-- Words with a space (`Word.blank`) between any two of them. -/
def spaced (ws : List Word) : List Word := ws.intersperse blank

end Word

/-- An expression that can be read: its words, all of them `IsExpression`, and the tree that it has
if it stands alone. -/
structure Phrase where
  words : List Word
  areExpression : ∀ w ∈ words, w.IsExpression
  tree : Expr
  accepted : Expr.parse (String.ofList (Word.text (Word.spaced words)))
    (Word.significantFrom 0 (Word.spaced words)) = .ok tree

/-- The characters of an expression. -/
def Phrase.chars (e : Phrase) : List Char := Word.text (Word.spaced e.words)

/-- A name that an expression can bind: it is spelled as an identifier, and no keyword of
expressions. -/
structure Binder where
  chars : List Char
  start : chars.head?.any isNameStart = true
  parts : ∀ c ∈ chars, isNamePart c = true
  notKeyword : Vocabulary.expressionKeyword? chars = none

/-! ### Names and texts of markup -/

/-- The name of a tag or an attribute, spelled as the scanner reads names of tags. -/
structure MarkupName where
  chars : List Char
  start : chars.head?.any isAlphabetic = true
  parts : ∀ c ∈ chars, isTagNamePart c = true

/-- The name of an element with content, so none of `Vocabulary.isVoidElement`. The end tag of a
`template` would end the section. -/
structure ContainerName extends MarkupName where
  notVoid : Vocabulary.isVoidElement (String.ofList chars) = false
  notTemplate : '<' :: chars ≠ Delimiter.templateTag

structure VoidName extends MarkupName where
  isVoid : Vocabulary.isVoidElement (String.ofList chars) = true

/-- The value of an attribute in quotes, of either kind, which the characters do not hold
(`fits`). -/
structure QuotedValue where
  quote : Char
  chars : List Char
  isQuote : isQuote quote = true
  fits : quote ∉ chars

def QuotedValue.render (v : QuotedValue) : List Char := v.quote :: (v.chars ++ [v.quote])

structure MarkupAttribute where
  name : MarkupName
  value : Option QuotedValue

/-- Text between other markup: no `<`, no opening brace, and no blank at its ends. -/
structure PlainText where
  chars : List Char
  plain : ∀ c ∈ chars, c ≠ '<' ∧ c ≠ '\x7b'
  first : chars.head?.any (!isBlank ·) = true
  last : chars.getLast?.any (!isBlank ·) = true

/-- What stands in a comment: any characters, but not the mark that closes it
(`Delimiter.commentClose`). -/
structure CommentText where
  chars : List Char
  fits : ¬ Delimiter.commentClose <:+: chars

/-! ### Trees -/

mutual

/-- A tree of markup. An element has its children, a choice its branches (`Alternatives`), a loop
what it binds. -/
inductive Markup where
  | element (name : ContainerName) (attributes : List MarkupAttribute) (children : List Markup)
  | void (name : VoidName) (attributes : List MarkupAttribute)
  | selfClosing (name : MarkupName) (attributes : List MarkupAttribute)
  | text (t : PlainText)
  | comment (c : CommentText)
  | interpolation (raw : Bool) (e : Phrase)
  | choice (condition : Phrase) (children : List Markup) (others : Alternatives)
  | loop (list : Phrase) (item : Binder) (index : Option Binder) (children : List Markup)

/-- The branches of a choice behind the first one. -/
inductive Alternatives where
  | none
  | otherwise (children : List Markup)
  | elseIf (condition : Phrase) (children : List Markup) (others : Alternatives)

end

namespace Markup

def isText : Markup → Bool
  | text _ => true
  | _ => false

mutual

/-- No two texts stand side by side, at any level of the tree: they would be read as one. -/
def Separated : Markup → Prop
  | .element _ _ children => SeparatedAll children
  | .choice _ children others => SeparatedAll children ∧ SeparatedOthers others
  | .loop _ _ _ children => SeparatedAll children
  | .void _ _ | .selfClosing _ _ | .text _ | .comment _ | .interpolation _ _ => True

def SeparatedAll : List Markup → Prop
  | [] => True
  | m :: ms => Separated m ∧ (m.isText = true → ms.head?.all (!·.isText) = true) ∧ SeparatedAll ms

def SeparatedOthers : Alternatives → Prop
  | .none => True
  | .otherwise children => SeparatedAll children
  | .elseIf _ children others => SeparatedAll children ∧ SeparatedOthers others

end

/-! ### Writing trees out -/

open Delimiter (openBraces closeBraces)

/-- Braces around some characters. -/
def inBraces (cs : List Char) : List Char := openBraces ++ cs ++ closeBraces

def renderAttribute (a : MarkupAttribute) : List Char :=
  ' ' :: a.name.chars ++ (a.value.map fun v => '=' :: v.render).getD []

def renderAttributes (as : List MarkupAttribute) : List Char := as.flatMap renderAttribute

/-- The names that a loop binds. -/
def renderBinding (item : Binder) (index : Option Binder) : List Char :=
  item.chars ++ (index.map fun i => [',', ' '] ++ i.chars).getD []

mutual

/-- The characters of a tree. Expressions are written with a space on each side, inside of their
braces. -/
def render : Markup → List Char
  | .element name attributes children =>
    '<' :: name.chars ++ renderAttributes attributes ++ ['>'] ++ renderAll children
      ++ ['<', '/'] ++ name.chars ++ ['>']
  | .void name attributes => '<' :: name.chars ++ renderAttributes attributes ++ ['>']
  | .selfClosing name attributes =>
    '<' :: name.chars ++ renderAttributes attributes ++ [' ', '/', '>']
  | .text t => t.chars
  | .comment c => ['<', '!', '-', '-'] ++ c.chars ++ ['-', '-', '>']
  | .interpolation false e => inBraces (' ' :: e.chars ++ [' '])
  | .interpolation true e => inBraces (['@', 'h', 't', 'm', 'l', ' '] ++ e.chars)
  | .choice condition children others =>
    inBraces (['@', 'i', 'f', ' '] ++ condition.chars) ++ renderAll children
      ++ renderOthers others ++ inBraces ['/', 'i', 'f']
  | .loop list item index children =>
    inBraces (['@', 'e', 'a', 'c', 'h', ' '] ++ list.chars ++ [' ', 'a', 's', ' ']
      ++ renderBinding item index) ++ renderAll children ++ inBraces ['/', 'e', 'a', 'c', 'h']

def renderAll : List Markup → List Char
  | [] => []
  | m :: ms => render m ++ renderAll ms

def renderOthers : Alternatives → List Char
  | .none => []
  | .otherwise children => inBraces [':', 'e', 'l', 's', 'e'] ++ renderAll children
  | .elseIf condition children others =>
    inBraces ([':', 'e', 'l', 's', 'e', ' ', 'i', 'f', ' '] ++ condition.chars)
      ++ renderAll children ++ renderOthers others

end

/-- The file that has nothing but a template with the markup in it. -/
def file (ms : List Markup) : String :=
  String.ofList (Delimiter.templateTag ++ '>' :: (renderAll ms ++ Delimiter.templateClose))

end Markup

/-! ### Trees in documents -/

/-- The expression has the words of the phrase as its tokens, and the tree of the phrase, moved to
where it stands (`Expr.moved`). -/
def Phrase.Depicts (source : String) (e : Phrase) (x : Option Expression) : Prop :=
  ∃ tokens span offset, x = some ⟨tokens, some (e.tree.moved offset), span⟩ ∧
    tokens.map (fun t => (⟨t.kind, (t.text source).toList⟩ : Word)) = e.words

def MarkupAttribute.Depicts (a : MarkupAttribute) (x : Attribute) : Prop :=
  x.name = String.ofList a.name.chars ∧
    x.value.map AttributeValue.raw = a.value.map (String.ofList ·.render)

namespace Markup

/-- The element has the name and the attributes, one by one (`MarkupAttribute.Depicts`). -/
def DepictsTag (name : MarkupName) (attributes : List MarkupAttribute) (e : Element) : Prop :=
  e.name = String.ofList name.chars ∧
    List.Forall₂ MarkupAttribute.Depicts attributes e.attributes

/-- The head of a branch with a condition. -/
def DepictsHead (source : String) (keyword : TokenKind) (condition : Phrase) (h : BranchHead) :
    Prop :=
  h.keyword = keyword ∧ condition.Depicts source h.expression ∧ h.binding = none

mutual

/-- The node shows the tree. It recurs with `DepictsAll` over children and with `DepictsOthers` over
branches. -/
def Depicts (source : String) : Markup → Node → Prop
  | .element name attributes children, n =>
    ∃ e ns, n = .element e ns ∧ DepictsTag name.toMarkupName attributes e ∧
      e.selfClosing = false ∧ e.endTag.isSome = true ∧ DepictsAll source children ns
  | .void name attributes, n =>
    ∃ e, n = .element e [] ∧ DepictsTag name.toMarkupName attributes e ∧
      e.selfClosing = false ∧ e.endTag = none
  | .selfClosing name attributes, n =>
    ∃ e, n = .element e [] ∧ DepictsTag name attributes e ∧ e.selfClosing = true ∧ e.endTag = none
  | .text t, n => ∃ span, n = .text ⟨String.ofList t.chars, span⟩
  | .comment c, n =>
    ∃ span, n = .comment span ∧ (span.text source).toList = render (.comment c)
  | .interpolation raw e, n =>
    ∃ i, n = .interpolation i ∧ i.raw = raw ∧ i.terminated = true ∧ e.Depicts source i.expression
  | .choice condition children others, n =>
    ∃ d head ns branches, n = .directive d (⟨head, ns⟩ :: branches) ∧ d.kind = .choice ∧
      d.closing.isSome = true ∧ DepictsHead source .ifBlock condition head ∧
      DepictsAll source children ns ∧ DepictsOthers source others branches
  | .loop list item index children, n =>
    ∃ d head ns binding, n = .directive d [⟨head, ns⟩] ∧ d.kind = .loop ∧
      d.closing.isSome = true ∧ head.keyword = .eachBlock ∧ list.Depicts source head.expression ∧
      head.binding = some binding ∧ binding.item = String.ofList item.chars ∧
      binding.index = index.map (String.ofList ·.chars) ∧ DepictsAll source children ns

def DepictsAll (source : String) : List Markup → List Node → Prop
  | [], ns => ns = []
  | m :: ms, ns => ∃ n more, ns = n :: more ∧ Depicts source m n ∧ DepictsAll source ms more

def DepictsOthers (source : String) : Alternatives → List Branch → Prop
  | .none, branches => branches = []
  | .otherwise children, branches =>
    ∃ head ns, branches = [⟨head, ns⟩] ∧ head.keyword = .elseBranch ∧ head.expression = none ∧
      DepictsAll source children ns
  | .elseIf condition children others, branches =>
    ∃ head ns more, branches = ⟨head, ns⟩ :: more ∧ DepictsHead source .elseIf condition head ∧
      DepictsAll source children ns ∧ DepictsOthers source others more

end

end Markup

end RsxInspect
