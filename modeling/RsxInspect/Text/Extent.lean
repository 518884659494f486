import RsxInspect.Text.CharClass

/-!
# How far a construct runs

Every construct of the scanner is measured on the characters that lie ahead: an `Extent` is the
number of characters it takes and whether the mark that ends it was found. A construct whose end is
missing takes all that lies ahead.
-/

namespace RsxInspect

/-- The characters a construct takes, and whether its end was found. -/
structure Extent where
  length : Nat
  closed : Bool
  deriving DecidableEq, Repr

namespace Text

/-- The number of leading characters that satisfy `p`. -/
def countWhile (p : Char → Bool) (cs : List Char) : Nat :=
  (cs.takeWhile p).length

/-- The number of leading blanks. -/
def blanks (cs : List Char) : Nat :=
  countWhile isBlank cs

/-- The index of the first place in `cs` where `mark` stands, `n` more. -/
def indexFrom (mark : List Char) (n : Nat) : List Char → Option Nat
  | [] => if mark.isPrefixOf [] then some n else none
  | c :: cs => if mark.isPrefixOf (c :: cs) then some n else indexFrom mark (n + 1) cs

/-- The index of the first place in `cs` where `mark` stands. -/
def indexOf? (mark cs : List Char) : Option Nat :=
  indexFrom mark 0 cs

/-- All up to the next `mark`. -/
def upTo (mark cs : List Char) : Extent :=
  match indexOf? mark cs with
  | some k => ⟨k, true⟩
  | none => ⟨cs.length, false⟩

/-- All up to and including the next `mark`. -/
def past (mark cs : List Char) : Extent :=
  match indexOf? mark cs with
  | some k => ⟨k + mark.length, true⟩
  | none => ⟨cs.length, false⟩

/-- Whether `word` stands ahead and no name goes on behind it. -/
def startsWithWord (word cs : List Char) : Bool :=
  word.isPrefixOf cs && !((cs.drop word.length).head?.any isNamePart)

/-- The number of leading characters that fit whole into `bytes` bytes, `n` more. -/
def fittingFrom (n : Nat) : Nat → List Char → Nat
  | _, [] => n
  | bytes, c :: cs =>
    if c.utf8Size ≤ bytes then fittingFrom (n + 1) (bytes - c.utf8Size) cs else n

/-- The number of leading characters that fit whole into `bytes` bytes. -/
def fitting (bytes : Nat) (cs : List Char) : Nat :=
  fittingFrom 0 bytes cs

end Text

/-- The text without the blanks at its end. -/
def trimEnd (s : String) : String :=
  String.ofList (s.toList.reverse.dropWhile isBlank).reverse

end RsxInspect
