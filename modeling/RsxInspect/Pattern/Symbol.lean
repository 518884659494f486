import RsxInspect.Pattern.Flag
import RsxInspect.Pattern.Spacing

/-!
# Symbols of patterns

A symbol stands for one character: for itself, for one with a given code, or for one of a class that
has a shorthand. Codes and shorthands are written behind a backslash, and so are characters that
would have a meaning otherwise. Some escapes stand for a place in the text instead.

Which symbols there are is assumed, as all of `Pattern` is.
-/

namespace RsxInspect

inductive Symbol where
  | char (c : Char)
  /-- A code of two digits, which is a byte where patterns match bytes. -/
  | code (c : Char)
  /-- Digits, blanks or word characters, or all but those. -/
  | shorthand (negated : Bool)
  deriving DecidableEq, Repr

namespace Symbol

/-- The character that the symbol is, unless it is a class. -/
def char? : Symbol → Option Char
  | char c | code c => some c
  | shorthand _ => none

/-- Whether the symbol can be matched by itself. -/
def admits (m : Matching) : Symbol → Bool
  | char _ => m.comparesChars
  | code c => m.comparesChars && (m.unicode || c.toNat < 0x80)
  | shorthand negated => !m.unicode && !negated

end Symbol

/-- What a backslash and the characters behind it stand for. -/
inductive Escape where
  | symbol (s : Symbol)
  /-- The start or the end of the text. -/
  | edge
  /-- A place where a word starts or ends, or where none does. -/
  | wordEdge
  deriving DecidableEq, Repr

namespace Escape

/-- The value of a hexadecimal digit. -/
def hexValue? (c : Char) : Option Nat :=
  if c.isDigit then some (c.toNat - '0'.toNat)
  else if 'a' ≤ c && c ≤ 'f' then some (c.toNat - 'a'.toNat + 10)
  else if 'A' ≤ c && c ≤ 'F' then some (c.toNat - 'A'.toNat + 10)
  else none

/-- Takes the given number of hexadecimal digits. They go on with the number `n`. -/
def readHex (spaced : Bool) (n : Nat) : (digits : Nat) → CharReader Nat
  | 0 => pure n
  | digits + 1 => do
    Spacing.skip spaced
    let d ← CharReader.ofOption (hexValue? (← CharReader.next))
    readHex spaced (16 * n + d) digits

/-- Takes a code of the given number of digits. It has to be that of a character. -/
def readCode (spaced : Bool) (digits : Nat) : CharReader Char := do
  let n ← readHex spaced 0 digits
  if n.isValidChar then pure (Char.ofNat n) else CharReader.fail

/-- Whether a backslash before a character takes its meaning away: all of ASCII but letters, digits
and angle brackets. -/
def isEscapable (c : Char) : Bool :=
  c.toNat < 0x80 && !c.isAlphanum && c != '<' && c != '>'

/-- The characters that have a letter as their escape. -/
def control? : Char → Option Char
  | 'a' => some '\x07'
  | 'f' => some '\x0c'
  | 't' => some '\t'
  | 'n' => some '\n'
  | 'r' => some '\r'
  | 'v' => some '\x0b'
  | _ => none

/-- Reads what stands behind a backslash. Numbers of groups and the properties of Unicode are not
there. -/
def read (spaced : Bool) : CharReader Escape := do
  let c ← CharReader.next
  match c with
  | 'x' => pure (.symbol (.code (← readCode spaced 2)))
  | 'u' => pure (.symbol (.char (← readCode spaced 4)))
  | 'U' => pure (.symbol (.char (← readCode spaced 8)))
  | 'd' | 's' | 'w' => pure (.symbol (.shorthand false))
  | 'D' | 'S' | 'W' => pure (.symbol (.shorthand true))
  | 'A' | 'z' => pure .edge
  | 'b' | 'B' | '<' | '>' => pure .wordEdge
  | c =>
    if isEscapable c then pure (.symbol (.char c))
    else pure (.symbol (.char (← CharReader.ofOption (control? c))))

end Escape

end RsxInspect
