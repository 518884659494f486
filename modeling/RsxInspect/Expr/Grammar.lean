import RsxInspect.Expr
import RsxInspect.Expr.Reader
import RsxInspect.Number.Literal
import RsxInspect.Text.Quoted

/-!
# Reading expressions

An expression is a condition with two alternatives, or operands with binary operators between them,
which group by how tightly they bind, and to the left among equals. An operand has unary operators in
front of it, then come member access and calls, then literals, names and parentheses. What is nested
in parentheses, brackets, call arguments, alternatives or under a unary operator is read one level
deeper, and there is a limit to the levels.
-/

namespace RsxInspect

namespace Expr

/-- The source that the tokens belong to, and the end of the last token. -/
structure Passage where
  source : String
  stop : Nat

namespace Passage

/-- The passage of some tokens. -/
def of (source : String) (tokens : List Token) : Passage :=
  ⟨source, (tokens.getLast?.map (·.span.stop)).getD 0⟩

/-- Fails because of the token `t`, where something else was expected. -/
def failOn (p : Passage) (expected : Expectation) (t : Token) : Reader α :=
  .fail ((Problem.found expected (t.text p.source)).on t.span)

/-- The empty span behind the last token. -/
def endSpan (p : Passage) : Span := Span.point p.stop

/-- Takes a token of the given kind, or fails. -/
def expect (p : Passage) (kind : TokenKind) (expected : Expectation) : Reader Token := do
  match ← Reader.eat kind with
  | some t => pure t
  | none =>
    match ← Reader.peek with
    | some t => p.failOn expected t
    | none => .fail ((Problem.ended expected).on p.endSpan)

/-- Fails because the nesting is too deep. -/
def failTooDeep (p : Passage) : Reader α := do
  let t ← Reader.peek
  .fail (Problem.tooDeep.on ((t.map (·.span)).getD p.endSpan))

end Passage

/-- The readers of what can be nested in an expression. -/
structure Nested where
  unary : Reader Expr
  expression : Reader Expr
  arguments : Reader (List Expr)

/-- A name on its token. -/
def ofIdentifier (p : Passage) (t : Token) : Expr := identifier (t.text p.source) t.span

/-- A literal, a name or an expression in parentheses. -/
def readPrimary (p : Passage) (inner : Nested) : Reader Expr := do
  match ← Reader.next with
  | none => .fail (Problem.noExpression.on p.endSpan)
  | some t =>
    match t.kind with
    | .number =>
      match NumberLiteral.value? (t.text p.source).toList with
      | some x => pure (number x t.span)
      | none => p.failOn .validNumber t
    | .string => pure (string (String.ofList (Quoted.value (t.text p.source).toList)) t.span)
    | .boolean => pure (boolean (t.text p.source == "true") t.span)
    | .identifier => pure (ofIdentifier p t)
    | .lParen =>
      let e ← inner.expression
      let _ ← p.expect .rParen .closingParenthesis
      pure e
    | _ => p.failOn .operand t

/-- The marks that go on behind a primary expression. -/
inductive Access where
  | property
  | index
  | call

def Access.ofToken? : TokenKind → Option Access
  | .dot => some property
  | .lBracket => some index
  | .lParen => some call
  | _ => none

/-- What follows the mark of a property, an index or a call of `e`. -/
def readAccess (p : Passage) (inner : Nested) (e : Expr) : Access → Reader Expr
  | .property => do
    let name ← p.expect .identifier .propertyName
    pure (member e (ofIdentifier p name) false (e.span.cover name.span))
  | .index => do
    let index ← inner.expression
    let close ← p.expect .rBracket .closingBracket
    pure (member e index true (e.span.cover close.span))
  | .call => do
    let arguments ← inner.arguments
    let close ← p.expect .rParen .endOfArguments
    pure (call e arguments (e.span.cover close.span))

/-- A primary expression with its properties, indices and calls. -/
def readPostfix (p : Passage) (inner : Nested) : Reader Expr := do
  Reader.foldWhile Access.ofToken? (readAccess p inner) (← readPrimary p inner)

/-- Unary operators in front of a postfix expression. -/
def readUnary (p : Passage) (inner : Nested) : Reader Expr := do
  match ← Reader.nextIf UnaryOp.ofToken? with
  | some (op, t) =>
    let operand ← inner.unary
    pure (unary op operand (t.span.cover operand.span))
  | none => readPostfix p inner

/-- The binary operator that a token of the given kind stands for, if it binds at least as tightly as
`lowest`. -/
def operatorFrom? (lowest : Nat) (kind : TokenKind) :
    Option {op : BinaryOp // lowest ≤ op.precedence} :=
  (BinaryOp.ofToken? kind).bind fun op =>
    if h : lowest ≤ op.precedence then some ⟨op, h⟩ else none

/-- The right operand of the operator `op` behind `left`. -/
def readOperand (operand : Reader Expr) (left : Expr) (op : BinaryOp) : Reader Expr := do
  let right ← operand
  pure (binary op left right (left.span.cover right.span))

/-- Operands with operators that bind at least as tightly as `lowest`. Such operators group to the
left, so what stands on the right of one has only those that bind tighter. -/
def readBinary (operand : Reader Expr) (lowest : Nat) : Reader Expr := do
  let round (left : Expr) (op : {op : BinaryOp // lowest ≤ op.precedence}) : Reader Expr :=
    readOperand (readBinary operand (op.1.precedence + 1)) left op.1
  Reader.foldWhile (operatorFrom? lowest) round (← operand)
termination_by BinaryOp.tightest + 1 - lowest
decreasing_by
  have := op.2
  have := op.1.precedence_le_tightest
  omega

/-- `condition ? consequent : alternate`, or a binary expression. -/
def readExpression (p : Passage) (inner : Nested) : Reader Expr := do
  let condition ← readBinary (readUnary p inner) BinaryOp.loosest
  match ← Reader.eat .question with
  | none => pure condition
  | some _ =>
    let consequent ← inner.expression
    let _ ← p.expect .colon .conditionColon
    let alternate ← inner.expression
    pure (ternary condition consequent alternate (condition.span.cover alternate.span))

/-- Whether a token is a comma. -/
def comma? (kind : TokenKind) : Option Unit :=
  if kind = .comma then some () else none

/-- One more argument behind a comma. Arguments are collected newest first. -/
def readArgument (expression : Reader Expr) (arguments : List Expr) (_ : Unit) :
    Reader (List Expr) := do
  pure ((← expression) :: arguments)

/-- The arguments of a call, up to its closing parenthesis. -/
def readArguments (expression : Reader Expr) : Reader (List Expr) := do
  if (← Reader.peek).any (·.kind == .rParen) then pure []
  else
    let first ← expression
    let arguments ← Reader.foldWhile comma? (readArgument expression) [first]
    pure arguments.reverse

/-- The readers of what may nest `n` levels deep, the levels inside of it included. -/
def nested (p : Passage) : Nat → Nested
  | 0 => ⟨p.failTooDeep, p.failTooDeep, p.failTooDeep⟩
  | n + 1 =>
    let inner := nested p n
    ⟨readUnary p inner, readExpression p inner, readArguments (readExpression p inner)⟩

/-- An expression with all the nesting that is allowed. -/
def read (p : Passage) : Reader Expr :=
  (nested p (maxNesting + 1)).expression

/-- The expression that all of the tokens make up. -/
def parse (source : String) (tokens : List Token) : Except Diagnostic Expr :=
  let p := Passage.of source tokens
  let o := read p tokens
  match o.result, o.rest with
  | .ok _, t :: _ => .error ((Problem.found .endOfExpression (t.text source)).on t.span)
  | result, _ => result

end Expr

end RsxInspect
