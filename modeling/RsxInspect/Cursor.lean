import RsxInspect.Text.FrontMatter
import RsxInspect.Text.SectionTag

/-!
# Cursors

A cursor stands at a byte offset of a source text and sees the characters that lie ahead of it up to
the end of its window, and the one character behind it. It moves by whole characters, so its
position is always a character boundary.

The module also gives the moves that are defined by what lies ahead: over a literal, over a run of
characters, up to and past a mark, over quoted literals and comments. Each of them is `advance` by
an extent.
-/

namespace RsxInspect

/-- A place in a source text: the byte offset, the character behind it and those ahead, up to the
end of the window. -/
structure Cursor where
  position : Nat
  before : Option Char
  rest : List Char
  deriving DecidableEq, Repr, Inhabited

namespace Cursor

/-- The cursor `n` characters further on, or at the end of the window. -/
def advance (c : Cursor) : Nat → Cursor
  | 0 => c
  | n + 1 =>
    match c.rest with
    | [] => c
    | ch :: rest => advance ⟨c.position + ch.utf8Size, some ch, rest⟩ n

@[simp]
theorem advance_rest (n : Nat) (c : Cursor) : (c.advance n).rest = c.rest.drop n := by
  induction n generalizing c with
  | zero => rfl
  | succ n ih => rw [advance]; split <;> simp_all

/-- A cursor that gets on sees less. -/
theorem advance_rest_lt {c : Cursor} {n : Nat} (h : c.position < (c.advance n).position) :
    (c.advance n).rest.length < c.rest.length := by
  obtain ⟨position, before, rest⟩ := c
  cases n with
  | zero => simp [advance] at h
  | succ n =>
    cases rest with
    | nil => simp [advance] at h
    | cons =>
      rw [advance_rest, List.length_drop, List.length_cons]
      omega

/-- The cursor at offset `start` of `source` whose window ends at offset `stop`. Both are moved back
to character boundaries, `stop` into the source and `start` into the window. -/
def ofRange (source : String) (start stop : Nat) : Cursor :=
  let ahead := source.toList
  let window := ahead.take (Text.fitting stop ahead)
  advance ⟨0, none, window⟩ (Text.fitting start window)

def atEnd (c : Cursor) : Bool := c.rest.isEmpty

/-- The next character. -/
def peek (c : Cursor) : Option Char := c.rest.head?

/-- The character `n` characters behind the next one. -/
def peekAt (c : Cursor) (n : Nat) : Option Char := c.rest[n]?

/-- Whether `literal` stands ahead. -/
def lookingAt (c : Cursor) (literal : List Char) : Bool :=
  literal.isPrefixOf c.rest

/-- Whether `word` stands ahead and no name goes on behind it. -/
def lookingAtWord (c : Cursor) (word : List Char) : Bool :=
  Text.startsWithWord word c.rest

/-- Moves over the next character. -/
def next? (c : Cursor) : Option (Char × Cursor) :=
  c.peek.map fun ch => (ch, c.advance 1)

/-- Moves over the characters that fit into `bytes` bytes. -/
def skipBytes (c : Cursor) (bytes : Nat) : Cursor :=
  c.advance (Text.fitting bytes c.rest)

/-- Moves over `literal`, if that stands ahead. -/
def eat? (c : Cursor) (literal : List Char) : Option Cursor :=
  if c.lookingAt literal then some (c.advance literal.length) else none

/-- Moves over the characters that satisfy `p`. -/
def skipWhile (c : Cursor) (p : Char → Bool) : Cursor :=
  c.advance (Text.countWhile p c.rest)

/-- The offset of the next place where `mark` stands. -/
def find? (c : Cursor) (mark : List Char) : Option Nat :=
  (Text.indexOf? mark c.rest).map fun k => (c.advance k).position

/-- Moves over `e`, and says whether its end was found. -/
def over? (c : Cursor) (e : Extent) : Bool × Cursor :=
  (e.closed, c.advance e.length)

/-- Moves up to the next place where `mark` stands, or to the end. -/
def skipUntil (c : Cursor) (mark : List Char) : Bool × Cursor :=
  c.over? (Text.upTo mark c.rest)

/-- Moves past the next place where `mark` stands, or to the end. -/
def skipPast (c : Cursor) (mark : List Char) : Bool × Cursor :=
  c.over? (Text.past mark c.rest)

/-- Moves over a quoted literal. -/
def skipQuoted (c : Cursor) (escapes : Bool) : Bool × Cursor :=
  c.over? (Quoted.extent escapes c.rest)

/-- Moves over a comment of markup, from its opening mark on. -/
def skipMarkupComment (c : Cursor) : Bool × Cursor :=
  (c.skipBytes Delimiter.commentOpen.length).skipPast Delimiter.commentClose

/-- Moves over a line comment. -/
def skipLineComment (c : Cursor) : Cursor :=
  c.advance (Comment.lineLength c.rest)

/-- Moves over a block comment, from its opening mark on. -/
def skipBlockComment (c : Cursor) : Bool × Cursor :=
  let inside := c.skipBytes 2
  inside.over? (Comment.block inside.rest)

/-- Moves past the `>` of an opening tag. -/
def skipTagRest (c : Cursor) : Bool × Cursor :=
  c.over? (SectionTag.tagRest c.rest)

/-- Moves over front-matter code. -/
def skipFrontMatterCode (c : Cursor) : Cursor :=
  c.advance (FrontMatter.codeLength c.before c.rest)

end Cursor

end RsxInspect
