/-!
# Flags of patterns

A pattern can change how it is read and what it matches, for a group or for the rest of the group it
stands in. A change is written as the letters of flags to set, and behind `-` of those to clear.

Which flags there are is assumed, as all of `Pattern` is.
-/

namespace RsxInspect

inductive PatternFlag where
  /-- Upper and lower case are the same. -/
  | anyCase
  /-- `^` and `$` also stand for the edges of lines. -/
  | lines
  /-- `.` also stands for the end of a line. -/
  | dotAll
  /-- Repetitions take as little as they can, and those marked with `?` as much as they can. -/
  | reluctant
  /-- The text is made of characters, not of bytes. -/
  | unicode
  /-- A line may also end in a carriage return. -/
  | carriageReturns
  /-- Blanks and comments in the pattern stand for nothing. -/
  | spaced
  deriving DecidableEq, Repr

/-- The flag of a letter. -/
def PatternFlag.ofChar? : Char → Option PatternFlag
  | 'i' => some .anyCase
  | 'm' => some .lines
  | 's' => some .dotAll
  | 'U' => some .reluctant
  | 'u' => some .unicode
  | 'R' => some .carriageReturns
  | 'x' => some .spaced
  | _ => none

/-- The flags that are set and those that are cleared. -/
structure FlagChange where
  set : List PatternFlag
  cleared : List PatternFlag
  deriving DecidableEq, Repr

namespace FlagChange

/-- No change. -/
def keep : FlagChange := ⟨[], []⟩

/-- The change that a text stands for. Each flag may be named once, and something has to follow
`-`. -/
def ofChars? (cs : List Char) : Option FlagChange := do
  let before := cs.takeWhile (· != '-')
  let behind := cs.drop (before.length + 1)
  if cs.contains '-' && behind.isEmpty then none
  else
    let set ← before.mapM PatternFlag.ofChar?
    let cleared ← behind.mapM PatternFlag.ofChar?
    if (set ++ cleared).Nodup then some ⟨set, cleared⟩ else none

/-- The value of a flag behind the change, where it had the value `old`. -/
def value (change : FlagChange) (flag : PatternFlag) (old : Bool) : Bool :=
  if change.set.contains flag then true
  else if change.cleared.contains flag then false
  else old

end FlagChange

/-! ### Matching

Patterns match Unicode text unless they clear the flag for it. But what they know about characters
is about ASCII alone: which letters differ only in case, and what a digit, a blank or a word is. So
what depends on that is not there for Unicode text, but only with the flag cleared. Then patterns
match bytes, and among these only those of ASCII, since others are no characters by themselves. -/

/-- What the flags at some place in a pattern say about matching. -/
structure Matching where
  anyCase : Bool
  unicode : Bool
  deriving DecidableEq, Repr

namespace Matching

/-- How patterns match from their start. -/
def initial : Matching := ⟨false, true⟩

/-- How patterns match behind a change. -/
def after (m : Matching) (change : FlagChange) : Matching :=
  ⟨change.value .anyCase m.anyCase, change.value .unicode m.unicode⟩

/-- Whether characters can be compared: not in any case, if they are those of Unicode. -/
def comparesChars (m : Matching) : Bool :=
  !(m.anyCase && m.unicode)

end Matching

end RsxInspect
