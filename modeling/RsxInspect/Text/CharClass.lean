import RsxInspect.Unicode.Alphabetic
import RsxInspect.Unicode.Numeric

/-!
# Character classes

The classes of characters that the scanner distinguishes. Letters and numbers are those of
Unicode; names in markup and names in expressions differ in the punctuation that they admit.
-/

namespace RsxInspect

/-- Letters: the characters with the Unicode property Alphabetic. -/
def isAlphabetic (c : Char) : Bool :=
  c.isAlpha || Unicode.inRanges c.toNat Unicode.alphabetic

/-- Numbers: the characters of general category Nd, Nl or No. -/
def isNumeric (c : Char) : Bool :=
  c.isDigit || Unicode.inRanges c.toNat Unicode.numeric

def isAlphanumeric (c : Char) : Bool :=
  isAlphabetic c || isNumeric c

/-- The code points with the property White_Space. -/
def blankRanges : List (Nat × Nat) :=
  [(0x9, 0xD), (0x20, 0x20), (0x85, 0x85), (0xA0, 0xA0), (0x1680, 0x1680), (0x2000, 0x200A),
   (0x2028, 0x2029), (0x202F, 0x202F), (0x205F, 0x205F), (0x3000, 0x3000)]

/-- White space: the characters with the Unicode property White_Space. -/
def isBlank (c : Char) : Bool :=
  Unicode.inRanges c.toNat blankRanges

/-- What a name in an expression, a tag name or an attribute name may start with. -/
def isNameStart (c : Char) : Bool :=
  isAlphabetic c || c == '_' || c == '$'

/-- What a name in an expression goes on with. -/
def isNamePart (c : Char) : Bool :=
  isAlphanumeric c || c == '_' || c == '$'

/-- What tag and attribute names are made of: also `-` and `:`, but no `$`. -/
def isTagNamePart (c : Char) : Bool :=
  isAlphanumeric c || c == '-' || c == '_' || c == ':'

def isQuote (c : Char) : Bool :=
  c == '"' || c == '\''

end RsxInspect
