import RsxInspect.Text.Extent

/-!
# Lines and columns

A line index finds the line and the column of a byte offset, both counted from 1. Columns count
characters, not bytes.
-/

namespace RsxInspect

/-- A line: the byte offset of its start, and its characters, the line break included. -/
structure Line where
  start : Nat
  chars : List Char
  deriving DecidableEq, Repr, Inhabited

/-- The lines of a text, in order. There is at least one, and the first one starts at 0. -/
structure LineIndex where
  lines : Array Line
  deriving DecidableEq, Repr

namespace LineIndex

/-- Behind `done`, the lines of a text that goes on with the given characters, where the current
line started at `start`, has the characters `line`, newest first, and reaches up to `offset`. -/
def linesFrom (done : Array Line) (start offset : Nat) (line : List Char) :
    List Char → Array Line
  | [] => done.push ⟨start, line.reverse⟩
  | c :: cs =>
    let next := offset + c.utf8Size
    if c == '\n' then linesFrom (done.push ⟨start, (c :: line).reverse⟩) next next [] cs
    else linesFrom done start next (c :: line) cs

def ofSource (source : String) : LineIndex :=
  ⟨linesFrom #[] 0 0 [] source.toList⟩

/-- The number of lines. -/
def count (index : LineIndex) : Nat := index.lines.size

/-- The last line among those from `lo` up to, not including, `hi` that starts at or before
`offset`, provided that line `lo` does. -/
def search (lines : Array Line) (offset lo hi : Nat) : Nat :=
  if lo + 1 < hi then
    let middle := (lo + hi) / 2
    if (lines[middle]?.getD default).start ≤ offset then search lines offset middle hi
    else search lines offset lo middle
  else lo
termination_by hi - lo

/-- The line and the column of an offset. An offset inside a character counts as the start of that
character, and one past the end as the end. -/
def locate (index : LineIndex) (offset : Nat) : Nat × Nat :=
  let i := search index.lines offset 0 index.count
  let line := index.lines[i]?.getD default
  (i + 1, Text.fitting (offset - line.start) line.chars + 1)

end LineIndex

end RsxInspect
