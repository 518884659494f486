import RsxInspect.Text.Extent

/-!
# Quoted literals

A literal runs from its opening quote to the next such quote. Where escapes are in force, a
backslash protects the character after it. `Quoted.body` measures what follows the opening quote,
`Quoted.terminated` decides from the finished text whether its last character is the closing quote,
and `Quoted.value` reads the text that the literal stands for.
-/

namespace RsxInspect.Quoted

/-- The extent behind the opening `quote`, the closing one included, `n` more. -/
def bodyFrom (escapes : Bool) (quote : Char) (n : Nat) : List Char → Extent
  | [] => ⟨n, false⟩
  | c :: cs =>
    if c == quote then ⟨n + 1, true⟩
    else if escapes && c == '\\' then
      match cs with
      | [] => ⟨n + 1, false⟩
      | _ :: cs => bodyFrom escapes quote (n + 2) cs
    else bodyFrom escapes quote (n + 1) cs

/-- What follows the opening `quote`, up to and including the closing one. -/
def body (escapes : Bool) (quote : Char) (cs : List Char) : Extent :=
  bodyFrom escapes quote 0 cs

/-- The literal that starts with the first character, whatever that is. -/
def extent (escapes : Bool) : List Char → Extent
  | [] => ⟨0, false⟩
  | quote :: cs => bodyFrom escapes quote 1 cs

/-- The number of backslashes at the end. -/
def trailingBackslashes (cs : List Char) : Nat :=
  Text.countWhile (· == '\\') cs.reverse

/-- Whether the last character of the literal is its closing quote: it repeats the first one, and,
where escapes are in force, an even number of backslashes stands before it. -/
def terminated (escapes : Bool) : List Char → Bool
  | [] => false
  | quote :: cs =>
    cs.getLast? == some quote && (!escapes || trailingBackslashes cs.dropLast % 2 == 0)

/-- The text between the quotes of a literal, read without escapes. A closing quote may be missing,
and a text without an opening quote stands for itself. -/
def unquoted : List Char → List Char
  | [] => []
  | c :: cs =>
    if isQuote c then
      if cs.getLast? == some c then cs.dropLast else cs
    else c :: cs

/-- The character that a backslash and `c` stand for. -/
def escaped : Char → Char
  | 'n' => '\n'
  | 't' => '\t'
  | 'r' => '\r'
  | '0' => '\x00'
  | c => c

/-- The text with its escapes replaced, newest character first, before `out`. A backslash at the
very end stands for itself. -/
def unescapeOnto (out : List Char) : List Char → List Char
  | [] => out
  | '\\' :: [] => '\\' :: out
  | '\\' :: c :: cs => unescapeOnto (escaped c :: out) cs
  | c :: cs => unescapeOnto (c :: out) cs

/-- The text with its escapes replaced. -/
def unescape (cs : List Char) : List Char :=
  (unescapeOnto [] cs).reverse

/-- The text that a literal with escapes stands for; the closing quote may be missing. -/
def value : List Char → List Char
  | [] => []
  | quote :: cs =>
    if cs.getLast? == some quote && trailingBackslashes cs.dropLast % 2 == 0 then
      unescape cs.dropLast
    else unescape cs

end RsxInspect.Quoted
