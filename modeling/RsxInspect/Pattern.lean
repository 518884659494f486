import RsxInspect.Pattern.CharSet

/-!
# Patterns

A pattern is a regular expression: characters and sets of them, places in the text, and what is made
of these by repetition, by order and by choice. Groups keep parts together, and the flags that are
set in a group count up to its end.

Not every pattern can be matched. It must not be nested too deep, and what it asks for has to be
there under its flags.

Patterns are the values that a log filter may ask the fields of an event for
(`FieldCondition.isValue`). Like these filters they belong to the library that the program is run with
(`LogLibrary.standard`): `Pattern` and the modules below it are an assumption about which texts that
library takes for a pattern, after what its documentation says. The program itself is defined without
them, and nothing is proved from them.
-/

namespace RsxInspect

inductive Pattern where
  | nothing
  /-- Flags for the rest of the group. -/
  | flags (change : FlagChange)
  | symbol (s : Symbol)
  /-- Any character. -/
  | any
  /-- The start or the end of the text, or of a line. -/
  | edge
  /-- A place where a word starts or ends, or where none does. -/
  | wordEdge
  | set (s : CharSet)
  | repetition (p : Pattern)
  | group (change : FlagChange) (inner : Pattern)
  | sequence (parts : List Pattern)
  | choice (branches : List Pattern)

namespace Pattern

mutual

/-- How deep the parts of a pattern are nested. -/
def depth : Pattern → Nat
  | nothing | flags _ | symbol _ | any | edge | wordEdge => 0
  | set s => s.depth
  | repetition p | group _ p => p.depth + 1
  | sequence ps | choice ps => depthAll ps + 1

def depthAll : List Pattern → Nat
  | [] => 0
  | p :: ps => max p.depth (depthAll ps)

end

/-- How deep the parts of a pattern may be nested. -/
def maxDepth : Nat := 250

mutual

/-- How the text behind a pattern is matched, if the pattern can be matched. The flags that change
within one branch of a choice go on for the branches behind it. -/
def matching? (m : Matching) : Pattern → Option Matching
  | nothing | edge => some m
  | flags change => some (m.after change)
  | symbol s => if s.admits m then some m else none
  | any => if m.unicode then some m else none
  | wordEdge => if m.unicode then none else some m
  | set s => if s.admits m then some m else none
  | repetition p => matching? m p
  | group change p => (matching? (m.after change) p).map fun _ => m
  | sequence ps | choice ps => matchingAll? m ps

def matchingAll? (m : Matching) : List Pattern → Option Matching
  | [] => some m
  | p :: ps => (matching? m p).bind fun m => matchingAll? m ps

end

/-- Whether a pattern can be matched. -/
def isMatchable (p : Pattern) : Bool :=
  p.depth ≤ maxDepth && (p.matching? .initial).isSome

/-- The parts of a list, which comes last first, one behind the other. -/
def ofReversed : List Pattern → Pattern
  | [] => nothing
  | [p] => p
  | ps => sequence ps.reverse

end Pattern

end RsxInspect
