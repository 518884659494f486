import RsxInspect.Encoding.Lexical
import RsxInspect.Tree

/-!
# The JSON form of trees

Nodes and expressions that stand inside each other count as levels, and there is a limit to their
number. The encoder keeps the number of open levels as its state. A level that was entered is left
again on every way out, so what was encoded before has no influence on a later value.
-/

namespace RsxInspect

/-- The most levels of nodes and expressions, counted together. -/
def maxLevels : Nat := 256

inductive EncodingError where
  | tooDeep
  deriving DecidableEq, Repr

def EncodingError.message : EncodingError → String
  | tooDeep => s!"tree nests deeper than {maxLevels} levels"

/-- Encodes with the number of open levels as its state. -/
abbrev Encoder := ExceptT EncodingError (StateM Nat)

/-- Encodes one level further in. -/
def Encoder.level (body : Encoder α) : Encoder α :=
  ExceptT.mk fun depth =>
    if maxLevels ≤ depth then (.error .tooDeep, depth)
    else
      let (result, depth) := body.run (depth + 1)
      (result, depth - 1)

/-- The result of encoding with no level open. -/
def Encoder.result (body : Encoder α) : Except EncodingError α :=
  (body.run 0).1

/-- An object with one field, which names the alternative that its content is of. -/
def Json.tagged (name : String) (content : Json) : Json := .object [(name, content)]

namespace Expr

mutual

/-- The JSON form of an expression. -/
def encode (e : Expr) : Encoder Json :=
  Encoder.level do
    let kind ← match e with
      | number x _ => pure (Json.tagged "Number" (.number x))
      | string s _ => pure (Json.tagged "String" (.string s))
      | boolean b _ => pure (Json.tagged "Boolean" (.bool b))
      | identifier s _ => pure (Json.tagged "Identifier" (.string s))
      | binary op left right _ =>
        let left ← encode left
        let right ← encode right
        pure (Json.tagged "Binary"
          (.object [("left", left), ("op", .string op.name), ("right", right)]))
      | unary op operand _ =>
        let operand ← encode operand
        pure (Json.tagged "Unary" (.object [("op", .string op.name), ("operand", operand)]))
      | member object property computed _ =>
        let object ← encode object
        let property ← encode property
        pure (Json.tagged "Member"
          (.object [("object", object), ("property", property), ("computed", .bool computed)]))
      | call callee arguments _ =>
        let callee ← encode callee
        let arguments ← encodeAll arguments
        pure (Json.tagged "Call" (.object [("callee", callee), ("arguments", .array arguments)]))
      | ternary condition consequent alternate _ =>
        let condition ← encode condition
        let consequent ← encode consequent
        let alternate ← encode alternate
        pure (Json.tagged "Ternary"
          (.object [("condition", condition), ("consequent", consequent),
            ("alternate", alternate)]))
    pure (.object [("kind", kind), ("span", e.span.toJson)])

def encodeAll : List Expr → Encoder (List Json)
  | [] => pure []
  | e :: es => do
    let j ← encode e
    let js ← encodeAll es
    pure (j :: js)

end

end Expr

/-- A part that may be missing. -/
def encodeOption (f : α → Encoder Json) : Option α → Encoder Json
  | none => pure .null
  | some a => f a

def Expression.encode (e : Expression) : Encoder Json := do
  let tree ← encodeOption Expr.encode e.tree
  pure (.object
    [("tokens", .array (e.tokens.map Token.toJson)), ("tree", tree), ("span", e.span.toJson)])

def AttributeValue.encode (v : AttributeValue) : Encoder Json := do
  let expression ← encodeOption Expression.encode v.expression
  pure (.object [("raw", .string v.raw), ("expression", expression), ("span", v.span.toJson)])

def Attribute.encode (a : Attribute) : Encoder Json := do
  let value ← encodeOption AttributeValue.encode a.value
  pure (.object [("name", .string a.name), ("value", value), ("span", a.span.toJson)])

def LoopBinding.toJson (b : LoopBinding) : Json :=
  .object
    [("item", .string b.item), ("index", .ofOption .string b.index), ("span", b.span.toJson)]

def BranchHead.encode (h : BranchHead) : Encoder Json := do
  let expression ← encodeOption Expression.encode h.expression
  pure (.object
    [("keyword", .string h.keyword.name), ("expression", expression),
     ("binding", .ofOption LoopBinding.toJson h.binding), ("span", h.span.toJson)])

def Interpolation.encode (i : Interpolation) : Encoder Json := do
  let expression ← encodeOption Expression.encode i.expression
  pure (.object
    [("raw", .bool i.raw), ("expression", expression), ("span", i.span.toJson),
     ("terminated", .bool i.terminated)])

namespace Node

mutual

/-- The JSON form of a node. -/
def encode (n : Node) : Encoder Json :=
  Encoder.level <|
    match n with
    | element e children => do
      let attributes ← e.attributes.mapM Attribute.encode
      let children ← encodeAll children
      pure (Json.tagged "Element" (.object
        [("name", .string e.name), ("attributes", .array attributes),
         ("children", .array children), ("start_tag", e.startTag.toJson),
         ("end_tag", .ofOption Span.toJson e.endTag), ("self_closing", .bool e.selfClosing),
         ("span", e.span.toJson)]))
    | text t =>
      pure (Json.tagged "Text"
        (.object [("content", .string t.content), ("span", t.span.toJson)]))
    | comment s => pure (Json.tagged "Comment" s.toJson)
    | interpolation i => do
      let content ← i.encode
      pure (Json.tagged "Interpolation" content)
    | directive d branches => do
      let branches ← encodeBranches branches
      pure (Json.tagged "Directive" (.object
        [("kind", .string d.kind.name), ("branches", .array branches),
         ("close", .ofOption Span.toJson d.closing), ("span", d.span.toJson)]))
    | error s => pure (Json.tagged "Error" s.toJson)

def encodeAll : List Node → Encoder (List Json)
  | [] => pure []
  | n :: ns => do
    let j ← encode n
    let js ← encodeAll ns
    pure (j :: js)

def encodeBranches : List Branch → Encoder (List Json)
  | [] => pure []
  | .mk head children :: branches => do
    let head ← head.encode
    let children ← encodeAll children
    let js ← encodeBranches branches
    pure (.object [("head", head), ("children", .array children)] :: js)

end

end Node

def CodeSection.toJson (c : CodeSection) : Json :=
  .object
    [("open", c.opening.toJson), ("content", c.content.toJson),
     ("close", .ofOption Span.toJson c.closing), ("span", c.span.toJson)]

def Section.encode : Section → Encoder Json
  | frontMatter c => pure (Json.tagged "FrontMatter" c.toJson)
  | script c => pure (Json.tagged "Script" c.toJson)
  | style c => pure (Json.tagged "Style" c.toJson)
  | template t => do
    let children ← Node.encodeAll t.children
    pure (Json.tagged "Template" (.object
      [("open", t.opening.toJson), ("children", .array children),
       ("close", .ofOption Span.toJson t.closing), ("span", t.span.toJson)]))

def Document.encode (d : Document) : Encoder Json := do
  let sections ← d.sections.mapM Section.encode
  pure (.object [("sections", .array sections), ("span", d.span.toJson)])

end RsxInspect
