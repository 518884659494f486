import RsxInspect.Cursor
import RsxInspect.Lexeme

/-!
# Scanning

A scanner is a cursor and a state. `next` reads one token and leaves the scanner behind it; at the
end of the window it reads an empty token `eof`, again and again. Since the cursor moves over
exactly the characters of the token, the tokens of a scan tile the window.

A scan can stand still: inside a tag a `$` starts a name but is no part of one, so the token there
is empty. `toEnd` reads all tokens up to the end of the window, or to such a place; `toEnd?` refuses
a scan that does not reach the end.
-/

namespace RsxInspect

/-- A place in a source text and the state of the scan there. -/
structure Scanner where
  cursor : Cursor
  state : LexState
  deriving DecidableEq, Repr, Inhabited

namespace Scanner

/-- The scanner at offset `start` of `source` that reads up to offset `stop`. -/
def ofRange (source : String) (start stop : Nat) (state : LexState) : Scanner :=
  ⟨Cursor.ofRange source start stop, state⟩

/-- The scanner at the start of a file. -/
def ofSource (source : String) : Scanner :=
  ofRange source 0 source.utf8ByteSize .initial

/-- The byte offset of the next token. -/
def offset (s : Scanner) : Nat := s.cursor.position

/-- The state behind a lexeme. Blanks do not count as the last token. -/
def stateAfter (state : LexState) (x : Lexeme) : LexState :=
  ⟨x.mode, if x.kind.isTrivia then state.last else some x.kind⟩

/-- The next token, and the scanner behind it. -/
def next (s : Scanner) : Token × Scanner :=
  match s.cursor.rest with
  | [] => (⟨.eof, Span.point s.offset⟩, s)
  | _ :: _ =>
    let x := lex s.state s.cursor.before s.cursor.rest
    let cursor := s.cursor.advance x.length
    (⟨x.kind, ⟨s.offset, cursor.position⟩⟩, ⟨cursor, stateAfter s.state x⟩)

/-- A scan that gets on sees less. -/
theorem next_rest_lt_of_offset {s : Scanner} (h : s.offset < s.next.2.offset) :
    s.next.2.cursor.rest.length < s.cursor.rest.length := by
  unfold next at h ⊢
  split at h
  · simp at h
  · rename_i c cs hcs
    exact Cursor.advance_rest_lt h

/-- Blanks take characters, so the scan gets on over them. -/
theorem next_rest_lt {s : Scanner} (h : s.next.1.kind = .whitespace) :
    s.next.2.cursor.rest.length < s.cursor.rest.length := by
  unfold next at h ⊢
  split at h
  · simp at h
  · rename_i c cs hcs
    have hpos := lex_length_pos h
    simp only [Cursor.advance_rest, List.length_drop, hcs, List.length_cons] at hpos ⊢
    omega

/-- The next token other than blanks, and the scanner behind it. -/
def nextSignificant (s : Scanner) : Token × Scanner :=
  if h : s.next.1.kind = .whitespace then
    have := next_rest_lt h
    s.next.2.nextSignificant
  else s.next
termination_by s.cursor.rest.length

/-- The next `n` tokens, behind `done`. The last one repeats at the end of the window. -/
def takeFrom (done : Array Token) : Nat → Scanner → Array Token × Scanner
  | 0, s => (done, s)
  | n + 1, s =>
    let (t, s) := s.next
    takeFrom (done.push t) n s

/-- The next `n` tokens. -/
def take (n : Nat) (s : Scanner) : Array Token × Scanner :=
  takeFrom #[] n s

/-- The tokens ahead, at most `n`, without `eof`, behind `done`. -/
def takeUntilEndFrom (done : Array Token) : Nat → Scanner → Array Token × Scanner
  | 0, s => (done, s)
  | n + 1, s =>
    if s.cursor.atEnd then (done, s)
    else
      let (t, s) := s.next
      takeUntilEndFrom (done.push t) n s

/-- The tokens ahead, at most `n`, without `eof`. -/
def takeUntilEnd (n : Nat) (s : Scanner) : Array Token × Scanner :=
  takeUntilEndFrom #[] n s

/-- All tokens up to the end of the window or to where the scan stands still, behind `done`, and the
scanner there. -/
def toEndFrom (done : Array Token) (s : Scanner) : Array Token × Scanner :=
  if s.cursor.atEnd then (done, s)
  else
    let step := s.next
    if h : s.offset < step.2.offset then
      have := next_rest_lt_of_offset h
      toEndFrom (done.push step.1) step.2
    else (done, s)
termination_by s.cursor.rest.length

/-- All tokens up to the end of the window or to where the scan stands still, without `eof`, and the
scanner there. -/
def toEnd (s : Scanner) : Array Token × Scanner :=
  toEndFrom #[] s

/-- All tokens up to the end of the window, without `eof`, and the scanner there; nothing if the
scan stands still. -/
def toEnd? (s : Scanner) : Option (Array Token × Scanner) :=
  let run := s.toEnd
  if run.2.cursor.atEnd then some run else none

end Scanner

/-- All tokens of a file, `eof` last; nothing if the scan stands still. -/
def tokenize? (source : String) : Option (Array Token) :=
  (Scanner.ofSource source).toEnd?.map fun (tokens, s) => tokens.push s.next.1

/-- The tokens of a range and where the scan of it stopped. -/
structure Batch where
  tokens : Array Token
  state : LexState
  offset : Nat
  deriving DecidableEq, Repr

/-- Scans a range of `source` from `state` on; nothing if the scan stands still. -/
def scan? (source : String) (start stop : Nat) (state : LexState) : Option Batch :=
  (Scanner.ofRange source start stop state).toEnd?.map fun (tokens, s) =>
    ⟨tokens, s.state, s.offset⟩

end RsxInspect
