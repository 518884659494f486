import RsxInspect.Unicode.Extending
import RsxInspect.Unicode.Ignorable
import RsxInspect.Unicode.Unprintable

/-!
# Text as shown in listings

A text is shown between double quotes, on one line: quotes, backslashes, line breaks and tabs have
short escapes, and every other character without a visible form of its own is shown by its code
point in hexadecimal. A mark that is drawn together with the character before it has no form of its
own either, wherever it stands, and a character that is not drawn has none.
-/

namespace RsxInspect.Shown

/-- Whether a character has no visible form of its own: controls, and beyond ASCII the unprintable
characters, the marks that extend the one before them and the ignorable characters. -/
def isInvisible (c : Char) : Bool :=
  c.toNat < 0x20 || c.toNat == 0x7F || Unicode.inRanges c.toNat Unicode.unprintable
    || Unicode.inRanges c.toNat Unicode.extending || Unicode.inRanges c.toNat Unicode.ignorable

/-- A character by its code point. -/
def byCode (c : Char) : List Char :=
  '\\' :: 'u' :: '\x7b' :: Nat.toDigits 16 c.toNat ++ ['\x7d']

/-- A character as it is shown between double quotes. -/
def char (c : Char) : List Char :=
  match c with
  | '\x00' => ['\\', '0']
  | '\t' => ['\\', 't']
  | '\r' => ['\\', 'r']
  | '\n' => ['\\', 'n']
  | '"' => ['\\', '"']
  | '\\' => ['\\', '\\']
  | c => if isInvisible c then byCode c else [c]

/-- A text as it is shown. -/
def text (s : String) : String :=
  String.ofList ('"' :: s.toList.flatMap char ++ ['"'])

end RsxInspect.Shown
