import RsxInspect.Text.Extent

/-!
# Comments in code

Line comments run up to the line break. Block comments nest: each opening mark needs a closing mark
of its own.
-/

namespace RsxInspect.Comment

/-- The characters of a line comment: all up to the line break. -/
def lineLength (cs : List Char) : Nat :=
  Text.countWhile (· != '\n') cs

/-- What is left of a block comment inside of which `depth + 1` comments are open, `n` more. -/
def blockFrom (depth : Nat) (n : Nat) : List Char → Extent
  | [] => ⟨n, false⟩
  | '*' :: '/' :: cs =>
    match depth with
    | 0 => ⟨n + 2, true⟩
    | depth + 1 => blockFrom depth (n + 2) cs
  | '/' :: '*' :: cs => blockFrom (depth + 1) (n + 2) cs
  | _ :: cs => blockFrom depth (n + 1) cs

/-- What follows the opening mark of a block comment, up to and including its closing mark. -/
def block (cs : List Char) : Extent :=
  blockFrom 0 0 cs

end RsxInspect.Comment
