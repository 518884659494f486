import RsxInspect.Number.Binary64
import RsxInspect.Token

/-!
# Expressions

The trees of the expressions between braces. Every node keeps the span that it was built from;
parentheses for grouping leave no node.
-/

namespace RsxInspect

inductive UnaryOp where
  | not
  | neg
  deriving DecidableEq, Repr

namespace UnaryOp

/-- The operator that a token of the given kind stands for. -/
def ofToken? : TokenKind → Option UnaryOp
  | .bang => some not
  | .minus => some neg
  | _ => none

/-- The name of an operator in written output. -/
def name : UnaryOp → String
  | not => "Not"
  | neg => "Neg"

end UnaryOp

inductive BinaryOp where
  | add
  | sub
  | mul
  | div
  | mod
  | eq
  | neq
  | strictEq
  | strictNeq
  | lt
  | gt
  | lte
  | gte
  | and
  | or
  deriving DecidableEq, Repr

namespace BinaryOp

/-- The operator that a token of the given kind stands for. -/
def ofToken? : TokenKind → Option BinaryOp
  | .plus => some add
  | .minus => some sub
  | .star => some mul
  | .slash => some div
  | .percent => some mod
  | .eqEq => some eq
  | .notEq => some neq
  | .strictEq => some strictEq
  | .strictNotEq => some strictNeq
  | .lt => some lt
  | .gt => some gt
  | .ltEq => some lte
  | .gtEq => some gte
  | .andAnd => some and
  | .orOr => some or
  | _ => none

/-- How tightly an operator binds its operands, from 1 for the loosest. -/
def precedence : BinaryOp → Nat
  | or => 1
  | and => 2
  | eq | neq | strictEq | strictNeq => 3
  | lt | gt | lte | gte => 4
  | add | sub => 5
  | mul | div | mod => 6

/-- The loosest precedence. -/
def loosest : Nat := 1

/-- The tightest precedence. -/
def tightest : Nat := 6

theorem precedence_le_tightest (op : BinaryOp) : op.precedence ≤ tightest := by
  cases op <;> decide

/-- The name of an operator in written output. -/
def name : BinaryOp → String
  | add => "Add"
  | sub => "Sub"
  | mul => "Mul"
  | div => "Div"
  | mod => "Mod"
  | eq => "Eq"
  | neq => "Neq"
  | strictEq => "StrictEq"
  | strictNeq => "StrictNeq"
  | lt => "Lt"
  | gt => "Gt"
  | lte => "Lte"
  | gte => "Gte"
  | and => "And"
  | or => "Or"

end BinaryOp

inductive Expr where
  | number (value : Binary64) (span : Span)
  /-- A string literal with its escapes replaced. -/
  | string (value : String) (span : Span)
  | boolean (value : Bool) (span : Span)
  | identifier (name : String) (span : Span)
  | binary (op : BinaryOp) (left right : Expr) (span : Span)
  | unary (op : UnaryOp) (operand : Expr) (span : Span)
  /-- `object.property`, or `object[property]` if it is computed. -/
  | member (object property : Expr) (computed : Bool) (span : Span)
  | call (callee : Expr) (arguments : List Expr) (span : Span)
  | ternary (condition consequent alternate : Expr) (span : Span)
  deriving Repr, Inhabited

def Expr.span : Expr → Span
  | number _ s | string _ s | boolean _ s | identifier _ s | binary _ _ _ s | unary _ _ s
  | member _ _ _ s | call _ _ s | ternary _ _ _ s => s

end RsxInspect
