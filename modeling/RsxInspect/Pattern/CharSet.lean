import RsxInspect.Pattern.Symbol

/-!
# Sets of characters

In brackets a pattern lists characters, of which one is matched. A list holds symbols, ranges, named
classes of ASCII and other sets. The operators `&&`, `--` and `~~` make one set of what stands
before them and behind them. A `^` behind the bracket makes it the set of all other characters.

Which sets there are is assumed, as all of `Pattern` is.
-/

namespace RsxInspect

inductive CharSet where
  | nothing
  | symbol (s : Symbol)
  | range (low high : Char)
  /-- A class of ASCII, such as `[:alpha:]`, or what is not in it. -/
  | named (negated : Bool)
  /-- All that is in one of the sets. -/
  | union (sets : List CharSet)
  /-- What an operator makes of two sets. -/
  | operation (left right : CharSet)
  /-- A set in its brackets. -/
  | bracketed (negated : Bool) (inner : CharSet)

namespace CharSet

mutual

/-- How deep the brackets, lists and operators of a set are nested. -/
def depth : CharSet → Nat
  | nothing | symbol _ | range .. | named _ => 0
  | union sets => depthAll sets + 1
  | operation left right => max left.depth right.depth + 1
  | bracketed _ inner => inner.depth + 1

def depthAll : List CharSet → Nat
  | [] => 0
  | s :: sets => max s.depth (depthAll sets)

end

mutual

/-- Whether the set can be matched. A set of bytes lies within ASCII. -/
def admits (m : Matching) : CharSet → Bool
  | nothing => true
  | symbol s => s.admits m && (m.unicode || s.char?.all (·.toNat < 0x80))
  | range _ high => m.comparesChars && (m.unicode || high.toNat < 0x80)
  | named negated => m.comparesChars && (m.unicode || !negated)
  | union sets => admitsAll m sets
  | operation left right => left.admits m && right.admits m
  | bracketed negated inner => inner.admits m && (m.unicode || !negated)

def admitsAll (m : Matching) : List CharSet → Bool
  | [] => true
  | s :: sets => s.admits m && admitsAll m sets

end

/-- The set of what is in one of the sets of a list, which comes last first. -/
def ofReversed : List CharSet → CharSet
  | [] => nothing
  | [s] => s
  | sets => union sets.reverse

/-! ### Reading sets -/

/-- The names of the classes of ASCII. -/
def classNames : List String :=
  ["alnum", "alpha", "ascii", "blank", "cntrl", "digit", "graph", "lower", "print", "punct",
   "space", "upper", "word", "xdigit"]

/-- The class of ASCII that is ahead, behind its opening bracket, and the number of characters that
it takes. -/
def namedAhead? (cs : List Char) : Option (CharSet × Nat) :=
  let negated := [':', '^'].isPrefixOf cs
  let start := if negated then [':', '^'] else [':']
  let forms := classNames.map fun name => start ++ name.toList ++ [':', ']']
  (forms.find? (·.isPrefixOf cs)).map fun form => (named negated, form.length)

/-- How far the list of an open bracket has been read. -/
inductive Place where
  /-- Behind the bracket. -/
  | bracket
  /-- Behind the `^` that follows the bracket. -/
  | caret
  /-- Behind dashes at the start of the list. They stand for themselves. -/
  | dashes
  | inside
  deriving DecidableEq, Repr

/-- A set whose bracket is open. -/
structure OpenSet where
  place : Place
  negated : Bool
  /-- What stands before the last operator. -/
  left : Option CharSet
  /-- What has been read behind it, last first. -/
  sets : List CharSet

namespace OpenSet

/-- A set of which only the bracket has been read. -/
def start : OpenSet := ⟨.bracket, false, none, []⟩

def push (o : OpenSet) (s : CharSet) : OpenSet :=
  { o with place := .inside, sets := s :: o.sets }

/-- What has been read. Operators bind to the left. -/
def inner (o : OpenSet) : CharSet :=
  match o.left with
  | none => ofReversed o.sets
  | some left => operation left (ofReversed o.sets)

/-- The set behind an operator. -/
def operator (o : OpenSet) : OpenSet :=
  { o with place := .inside, left := some o.inner, sets := [] }

/-- The set, closed. -/
def close (o : OpenSet) : CharSet := bracketed o.negated o.inner

end OpenSet

/-- Reads the symbol that starts with `c`. -/
def readSymbol (spaced : Bool) (c : Char) : CharReader Symbol := do
  if c = '\\' then
    match ← Escape.read spaced with
    | .symbol s => pure s
    | .edge | .wordEdge => CharReader.fail
  else pure (.char c)

/-- The character that decides whether a dash before `cs` stands between the ends of a range. Blanks
do not count where they stand for nothing, and neither does the mark of a comment. -/
def behindDash? (spaced : Bool) (cs : List Char) : Option Char :=
  if spaced then
    match cs.dropWhile isBlank with
    | '#' :: cs => (cs.dropWhile isBlank).head?
    | cs => cs.head?
  else cs.head?

/-- Whether a dash that goes on to a range is ahead. -/
def rangeAhead (spaced : Bool) (cs : List Char) : Bool :=
  match cs with
  | '-' :: cs => behindDash? spaced cs != some ']' && behindDash? spaced cs != some '-'
  | _ => false

/-- Reads the symbol or the range that starts with `c`. The ends of a range are characters in
order. -/
def readItem (spaced : Bool) (c : Char) : CharReader CharSet := do
  let first ← readSymbol spaced c
  Spacing.skip spaced
  if rangeAhead spaced (← CharReader.ahead) then
    CharReader.drop 1
    Spacing.skip spaced
    let last ← readSymbol spaced (← CharReader.next)
    let low ← CharReader.ofOption first.char?
    let high ← CharReader.ofOption last.char?
    if low ≤ high then pure (range low high) else CharReader.fail
  else pure (symbol first)

/-- Reads on in the innermost open set, from `c`. When the outermost one is closed, it is the
result. -/
def step (spaced : Bool) (o : OpenSet) (outer : List OpenSet) (c : Char) :
    CharReader ((OpenSet × List OpenSet) ⊕ CharSet) := do
  let cs ← CharReader.ahead
  if Spacing.startsWith spaced c then
    Spacing.skipBehind c
    pure (.inl (o, outer))
  else if c == '^' && o.place = .bracket then
    pure (.inl ({ o with place := .caret, negated := true }, outer))
  else if c == '-' && o.place != .inside then
    pure (.inl ({ o.push (symbol (.char c)) with place := .dashes }, outer))
  else if c == ']' && (o.place = .bracket || o.place = .caret) then
    pure (.inl (o.push (symbol (.char c)), outer))
  else if c == '[' then
    match namedAhead? cs with
    | some (s, length) =>
      CharReader.drop length
      pure (.inl (o.push s, outer))
    | none => pure (.inl (.start, o :: outer))
  else if c == ']' then
    match outer with
    | [] => pure (.inr o.close)
    | p :: outer => pure (.inl (p.push o.close, outer))
  else if (c == '&' || c == '-' || c == '~') && cs.head? == some c then
    CharReader.drop 1
    pure (.inl (o.operator, outer))
  else pure (.inl (o.push (← readItem spaced c), outer))

/-- Reads a set behind its opening bracket. -/
def read (spaced : Bool) : CharReader CharSet :=
  CharReader.repeatedly (fun (o, outer) c => step spaced o outer c) (fun _ => none)
    (OpenSet.start, [])

end CharSet

end RsxInspect
