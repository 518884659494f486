import RsxInspect.Text.Quoted
import RsxInspect.Text.Comment
import RsxInspect.Text.Delimiter

/-!
# Front-matter code

The code between two `---` fences is split from left to right into items: string literals, raw
strings, character literals, comments and single characters. It ends where an item would start at a
fence. A fence at the start of a line ends it in any case, so that a literal left open cannot run
past the closing fence.
-/

namespace RsxInspect.FrontMatter

/-- The number of `#` between the `r` and the opening quote of a raw string, if these stand ahead
behind an `r`. -/
def rawStringHashes? (cs : List Char) : Option Nat :=
  match cs.dropWhile (· == '#') with
  | '"' :: _ => some (Text.countWhile (· == '#') cs)
  | _ => none

/-- Whether what follows a single quote makes it a character literal: an escape, or one character
and the closing quote. Otherwise the quote starts a lifetime or a label. -/
def isCharLiteral : List Char → Bool
  | '\\' :: _ => true
  | _ :: '\'' :: _ => true
  | _ => false

/-- The characters of an item behind its first character `c`, where `before` is the character in
front of it and `cs` is what follows. -/
def itemTail (before : Option Char) (c : Char) (cs : List Char) : Nat :=
  if c == '"' then (Quoted.body true '"' cs).length
  else if c == 'r' && !before.any isNamePart then
    match rawStringHashes? cs with
    | some hashes =>
      hashes + 1
        + (Text.past ('"' :: List.replicate hashes '#') (cs.drop (hashes + 1))).length
    | none => 0
  else if c == '\'' && isCharLiteral cs then (Quoted.body true '\'' cs).length
  else if c == '/' then
    match cs with
    | '/' :: cs => 1 + Comment.lineLength cs
    | '*' :: cs => 1 + (Comment.block cs).length
    | _ => 0
  else 0

/-- The characters of the items up to the first one that would start at a fence, `n` more. -/
def itemsFrom (n : Nat) (before : Option Char) : List Char → Nat
  | [] => n
  | c :: cs =>
    if Delimiter.fence.isPrefixOf (c :: cs) then n
    else
      let tail := itemTail before c cs
      itemsFrom (n + 1 + tail) ((c :: cs)[tail]?) (cs.drop tail)
termination_by cs => cs.length
decreasing_by simp only [List.length_drop, List.length_cons]; omega

/-- What may belong to the code: all up to the first line that starts with a fence. -/
def reach (cs : List Char) : List Char :=
  match Text.indexOf? ('\n' :: Delimiter.fence) cs with
  | some k => cs.take (k + 1)
  | none => cs

/-- The characters of the code, where `before` is the character in front of it. -/
def codeLength (before : Option Char) (cs : List Char) : Nat :=
  itemsFrom 0 before (reach cs)

end RsxInspect.FrontMatter
