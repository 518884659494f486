import RsxInspect.Pattern

/-!
# Reading patterns

A pattern is read from left to right, mark by mark. A draft holds what has been read: the branches
of the innermost open group, and those of all groups around it.

How patterns are read is assumed, as all of `Pattern` is.
-/

namespace RsxInspect.Pattern

/-- What is read at once. -/
inductive Mark where
  /-- A pattern that stands for itself. -/
  | part (p : Pattern)
  /-- The part before it, repeated. -/
  | repeated
  /-- The start of a further branch. -/
  | bar
  /-- The start of a group with flags, which may have a name. -/
  | opening (change : FlagChange) (name : Option (List Char))
  | closing

namespace Mark

/-- Whether `c` may stand in the name of a group. -/
def isNamePart (c : Char) : Bool :=
  isAlphanumeric c || c == '_' || c == '.' || c == '[' || c == ']'

/-- Whether a group may have the name. -/
def isName (cs : List Char) : Bool :=
  cs.head?.any (fun c => isAlphabetic c || c == '_') && cs.all isNamePart

/-- Reads the name of a group up to its closing bracket. -/
def readName : CharReader (List Char) := do
  let name ← CharReader.takeWhile (· != '>')
  let closed ← CharReader.takeMark ['>']
  if closed && isName name then pure name else CharReader.fail

/-- Reads what stands behind an opening bracket. Behind `?` it is a name in angle brackets, or
flags, which open a group only with a colon. -/
def readOpening (spaced : Bool) : CharReader Mark := do
  Spacing.skip spaced
  if ← CharReader.takeMark ['?', 'P', '<'] then
    pure (.opening .keep (some (← readName)))
  else if ← CharReader.takeMark ['?', '<'] then
    pure (.opening .keep (some (← readName)))
  else if ← CharReader.takeMark ['?'] then
    let letters ← CharReader.takeWhile fun c => c != ':' && c != ')'
    let change ← CharReader.ofOption (FlagChange.ofChars? letters)
    if (← CharReader.next) = ':' then pure (.opening change none)
    else if letters.isEmpty then CharReader.fail
    else pure (.part (.flags change))
  else pure (.opening .keep none)

/-- The pattern of an escape. -/
def ofEscape : Escape → Pattern
  | .symbol s => .symbol s
  | .edge => .edge
  | .wordEdge => .wordEdge

/-- Reads the mark that starts with `c`. An opening brace would start a counted repetition, but the
closing brace of that is missing: a brace closes the condition that the pattern stands in. -/
def read (spaced : Bool) (c : Char) : CharReader Mark :=
  match c with
  | '(' => readOpening spaced
  | ')' => pure .closing
  | '|' => pure .bar
  | '[' => do pure (.part (.set (← CharSet.read spaced)))
  | '?' | '*' | '+' => do
    let _ ← CharReader.takeMark ['?']
    pure .repeated
  | '\x7b' => CharReader.fail
  | '\\' => do pure (.part (ofEscape (← Escape.read spaced)))
  | '.' => pure (.part .any)
  | '^' | '$' => pure (.part .edge)
  | c => pure (.part (.symbol (.char c)))

end Mark

/-- The branches of a group, of which the last one goes on. -/
structure Branches where
  /-- The branches before the last one, last first. -/
  complete : List Pattern
  /-- The parts of the last branch, last first. -/
  parts : List Pattern

namespace Branches

def empty : Branches := ⟨[], []⟩

def push (b : Branches) (p : Pattern) : Branches :=
  { b with parts := p :: b.parts }

/-- Starts a further branch. -/
def split (b : Branches) : Branches := ⟨ofReversed b.parts :: b.complete, []⟩

/-- Repeats the last part. A change of flags cannot be repeated. -/
def repeatLast? (b : Branches) : Option Branches :=
  match b.parts with
  | [] | .flags _ :: _ => none
  | p :: parts => some { b with parts := .repetition p :: parts }

/-- All branches as one pattern. -/
def pattern (b : Branches) : Pattern :=
  match b.complete with
  | [] => ofReversed b.parts
  | complete => .choice (ofReversed b.parts :: complete).reverse

end Branches

/-- An open group: what stands before it in the group around it, and what its end brings back. -/
structure OpenGroup where
  change : FlagChange
  before : Branches
  spaced : Bool

/-- What has been read of a pattern. -/
structure Draft where
  branches : Branches
  /-- Whether blanks stand for nothing. -/
  spaced : Bool
  /-- The open groups, innermost first. -/
  groups : List OpenGroup
  /-- The names of all groups so far. -/
  names : List (List Char)

namespace Draft

def empty : Draft := ⟨.empty, false, [], []⟩

/-- Adds a part. A change of flags tells whether the rest of the group is spaced. -/
def push (d : Draft) (p : Pattern) : Draft :=
  let spaced :=
    match p with
    | .flags change => change.value .spaced d.spaced
    | _ => d.spaced
  { d with branches := d.branches.push p, spaced }

/-- Opens a group. Two groups cannot have one name. -/
def openGroup? (d : Draft) (change : FlagChange) (name : Option (List Char)) : Option Draft :=
  if name.any d.names.contains then none
  else
    some
      { branches := .empty
        spaced := change.value .spaced d.spaced
        groups := ⟨change, d.branches, d.spaced⟩ :: d.groups
        names := name.toList ++ d.names }

/-- Closes the innermost group. -/
def closeGroup? (d : Draft) : Option Draft :=
  match d.groups with
  | [] => none
  | g :: groups =>
    let branches := g.before.push (.group g.change d.branches.pattern)
    some { d with branches, spaced := g.spaced, groups }

/-- Adds a mark, if it can stand there. -/
def add? (d : Draft) : Mark → Option Draft
  | .part p => some (d.push p)
  | .repeated => d.branches.repeatLast?.map fun branches => { d with branches }
  | .bar => some { d with branches := d.branches.split }
  | .opening change name => d.openGroup? change name
  | .closing => d.closeGroup?

/-- The pattern, if all groups are closed. -/
def finish? (d : Draft) : Option Pattern :=
  if d.groups.isEmpty then some d.branches.pattern else none

/-- Reads on from `c`. -/
def step (d : Draft) (c : Char) : CharReader (Draft ⊕ Pattern) := do
  if Spacing.startsWith d.spaced c then
    Spacing.skipBehind c
    pure (.inl d)
  else
    let mark ← Mark.read d.spaced c
    pure (.inl (← CharReader.ofOption (d.add? mark)))

end Draft

/-- The pattern that a text stands for. -/
def ofText? (s : String) : Option Pattern :=
  (CharReader.repeatedly Draft.step Draft.finish? .empty s.toList).map Remainder.value

/-- Whether a text stands for a pattern that can be matched. -/
def isPattern (s : String) : Bool :=
  (ofText? s).any isMatchable

end RsxInspect.Pattern
