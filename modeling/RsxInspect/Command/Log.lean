import RsxInspect.Event
import RsxInspect.Text.CharClass
import RsxInspect.Text.Shown

/-!
# The log

An event is written as a line: a level, the part of the program that it comes from, a message and
fields with their values (`Event.level`, `Event.target`, `Event.message`, `Event.fields`). These are
the program's own. What a line looks like and which lines are written is up to a library, and so is
the language of the filters that a user can ask for. The program is defined for any such library
(`LogLibrary`): it asks it to read a text as a filter, falls back on the filter of a level
(`LogLibrary.choose`), and writes the events that the filter admits (`LogLibrary.lines`).
-/

namespace RsxInspect

/-- How much an event matters, and how much a filter lets through. -/
inductive Level where
  | off
  | error
  | warn
  | info
  | debug
  | trace
  deriving DecidableEq, Repr

namespace Event

/-- The level of an event. -/
def level : Event → Level
  | enterSection _ _ => .trace
  | _ => .debug

/-- The part of the program that an event comes from. -/
def target : Event → String
  | readSource _ _ => "rsx"
  | _ => "rsx_parser::parser"

def message : Event → String
  | readSource _ _ => "read source"
  | enterSection _ _ => "entering section"
  | endTagWithoutStart _ _ => "end tag without a matching start tag"
  | loopWithoutBinding _ => "each head without a binding"
  | strayBranch _ => "stray branch"
  | mismatchedClose _ _ _ => "mismatched close"
  | implicitClose _ _ _ => "closing frame implicitly"

/-- The fields of an event with the texts of their values, in order. -/
def fields : Event → List (String × String)
  | readSource path bytes => [("path", Shown.text path), ("bytes", toString bytes)]
  | enterSection kind offset =>
    [("section", Shown.text kind.title), ("offset", toString offset)]
  | endTagWithoutStart name offset => [("name", Shown.text name), ("offset", toString offset)]
  | loopWithoutBinding offset | strayBranch offset => [("offset", toString offset)]
  | mismatchedClose kind offset found =>
    [("closer", Shown.text kind.closer), ("offset", toString offset), ("found", toString found)]
  | implicitClose kind offset stop =>
    [("kind", kind.label), ("offset", toString offset), ("end", toString stop)]

end Event

/-- A library that writes a log, as far as the program makes use of it. -/
structure LogLibrary where
  Filter : Type
  /-- The filter that a text asks for, if it can be read. -/
  ofText? : String → Option Filter
  /-- The filter of one level for all events. -/
  ofLevel : Level → Filter
  /-- Whether an event is written. -/
  admits : Filter → Event → Bool
  /-- The line of an event. -/
  line : Event → String

namespace LogLibrary

variable (library : LogLibrary)

/-- The filter for a requested text and a verbosity. A text that is blank or cannot be read does not
count; then the verbosity picks the level. -/
def choose (requested : Option String) (verbosity : Nat) : library.Filter :=
  let byVerbosity :=
    library.ofLevel (if verbosity = 0 then .warn else if verbosity = 1 then .debug else .trace)
  match requested with
  | none => byVerbosity
  | some s => if s.toList.all isBlank then byVerbosity else (library.ofText? s).getD byVerbosity

/-- The lines of those events that the filter admits. -/
def lines (filter : library.Filter) (events : List Event) : List String :=
  (events.filter (library.admits filter)).map library.line

end LogLibrary

end RsxInspect
