import RsxInspect.Command.Log
import RsxInspect.Number.Literal
import RsxInspect.Pattern.Draft
import RsxInspect.Span
import RsxInspect.Text.Extent

/-!
# Log filters

The `LogLibrary` that the program is run with (`LogLibrary.standard`). It is no part of the program
and its text is not at hand: the definitions here and in `Pattern` follow what the library says about
its filters, and how the program behaves when it is run with them. They are an assumption about a
place outside of the program, and nothing is proved from it.

A filter decides which lines of the log are written. It is a list of directives between commas
(`LogDirective`), each a level for some lines: for those of a part of the program, or for those that
have a certain field. The most specific directive that applies to a line counts, and where none
applies the line is not written (`LogFilter.levelFor`).

A directive may also be about spans, which are named stretches of a run, and about the values that
their fields have. The log has no spans, so such a directive can be read but applies to no line.
-/

namespace RsxInspect

namespace Level

def all : List Level := [off, error, warn, info, debug, trace]

/-- How much a level lets through. -/
def rank : Level → Nat
  | off => 0
  | error => 1
  | warn => 2
  | info => 3
  | debug => 4
  | trace => 5

/-- The name of a level in filters. -/
def name : Level → String
  | off => "off"
  | error => "error"
  | warn => "warn"
  | info => "info"
  | debug => "debug"
  | trace => "trace"

/-- The rank that a text stands for: digits, and maybe a plus sign in front. -/
def rankOfText? (s : String) : Option Nat :=
  let digits :=
    match s.toList with
    | '+' :: ds => ds
    | ds => ds
  if digits.isEmpty || !digits.all Char.isDigit then none
  else some (NumberLiteral.digitsValue digits)

/-- The level of a name in any case, or of a rank. -/
def ofText? (s : String) : Option Level :=
  let lower := s.toLower
  all.find? fun l => l.name == lower || rankOfText? s == some l.rank

end Level

/-- A condition on the fields of what is logged. -/
structure FieldCondition where
  name : String
  /-- Whether the field also has to have a certain value. -/
  hasValue : Bool
  deriving DecidableEq, Repr

namespace FieldCondition

/-- Whether a field can be asked for the value: a number, or a pattern for the text of the field. -/
def isValue (s : String) : Bool :=
  (NumberLiteral.value? s.toList).isSome || Pattern.isPattern s

/-- A field name, or a field name and a value, which ends at the next `=`. -/
def ofText? (s : String) : Option FieldCondition :=
  let name := s.toList.takeWhile (· != '=')
  match s.toList.drop name.length with
  | [] => some ⟨s, false⟩
  | _ :: behind =>
    let value := String.ofList (behind.takeWhile (· != '='))
    if isValue value then some ⟨String.ofList name, true⟩ else none

end FieldCondition

/-- A level for some lines of the log. -/
structure LogDirective where
  /-- What the name of the part of the program has to start with. -/
  target : String
  /-- The span that the line has to be written in. -/
  span : Option String
  field : Option FieldCondition
  level : Level
  deriving DecidableEq, Repr

namespace LogDirective

/-- The directive for all lines. -/
def ofLevel (level : Level) : LogDirective := ⟨"", none, none, level⟩

/-! ### Reading directives

A directive is a level, or it names a target, a span in brackets with maybe a field in braces, or
both, and then maybe a level behind `=`. Its shape is found without the blanks around it. The parts
are cut out of the text with those blanks, at the offsets that they have in the text without them;
so blanks in front shift all parts, and blanks in front or behind spoil a level. -/

/-- The number of bytes of some characters. -/
def size (cs : List Char) : Nat := (String.ofList cs).utf8ByteSize

/-- The part of a text from one offset to another. -/
def cut (s : String) (start stop : Nat) : String := Span.text ⟨start, stop⟩ s

/-- The part of a text from an offset on. -/
def cutFrom (s : String) (start : Nat) : String := cut s start s.utf8ByteSize

/-- The level behind the `=` in front of `start`. Without a level everything counts. -/
def levelFrom? (s : String) (start : Nat) : Option Level :=
  let text := cutFrom s start
  if text.isEmpty then some .trace else Level.ofText? text

/-- The end of a directive, which stands at offset `start` and has the characters `cs`. -/
def endFrom? (s : String) (start : Nat) (cs : List Char) : Option Level :=
  match cs with
  | [] => some .trace
  | '=' :: _ => levelFrom? s (start + 1)
  | _ => none

/-- The rest of a directive behind the opening bracket of a span. -/
def spanFrom? (s target : String) (start : Nat) (cs : List Char) : Option LogDirective :=
  let name := cs.takeWhile fun c => c != ']' && c != '\x7b'
  let stop := start + size name
  let span := cut s start stop
  match cs.drop name.length with
  | ']' :: rest => (endFrom? s (stop + 1) rest).map fun l => ⟨target, some span, none, l⟩
  | '\x7b' :: rest =>
    let field := rest.takeWhile (· != '\x7d')
    let fieldStop := stop + 1 + size field
    match rest.drop field.length with
    | '\x7d' :: ']' :: rest =>
      if field.isEmpty then none
      else do
        let condition ← FieldCondition.ofText? (cut s (stop + 1) fieldStop)
        let level ← endFrom? s (fieldStop + 2) rest
        some ⟨target, if name.isEmpty then none else some span, some condition, level⟩
    | _ => none
  | _ => none

/-- The directive without a `=` and without a span: a level, or the target of which everything
counts. -/
def ofWord (s : String) : LogDirective :=
  match Level.ofText? s with
  | some level => ofLevel level
  | none => ⟨s, none, none, .trace⟩

/-- What a target may start with. -/
def isTargetStart (c : Char) : Bool :=
  isAlphanumeric c || c == '-' || c == ':' || c == '_'

/-- The directive that a text stands for. -/
def ofText? (s : String) : Option LogDirective :=
  let trimmed := (trimEnd s).toList.dropWhile isBlank
  match trimmed with
  | [] => none
  | '[' :: rest => spanFrom? s "" 1 rest
  | c :: _ =>
    if !isTargetStart c then none
    else
      let head := trimmed.takeWhile fun c => c != '=' && c != '['
      let stop := size head
      match trimmed.drop head.length with
      | [] => some (ofWord s)
      | '=' :: _ => (levelFrom? s (stop + 1)).map fun l => ⟨cut s 0 stop, none, none, l⟩
      | _ :: rest => spanFrom? s (cut s 0 stop) (stop + 1) rest

/-! ### Applying directives -/

/-- Whether a directive applies to the lines of a part of the program that have the given fields. -/
def applies (d : LogDirective) (target : String) (fields : List String) : Bool :=
  d.span.isNone && d.target.toList.isPrefixOf target.toList
    && d.field.all fun f => !f.hasValue && fields.contains f.name

/-- Whether the field of a directive is at least as specific as that of another one: any field is
more specific than none, and of two names the later one in the alphabet. -/
def fieldOutranks : Option FieldCondition → Option FieldCondition → Bool
  | _, none => true
  | none, some _ => false
  | some f, some g => !(f.name < g.name)

/-- Whether a directive is at least as specific as another one: the longer target counts, and then
the field. -/
def outranks (d e : LogDirective) : Bool :=
  if d.target.utf8ByteSize = e.target.utf8ByteSize then fieldOutranks d.field e.field
  else e.target.utf8ByteSize < d.target.utf8ByteSize

end LogDirective

/-- Which log lines are written. -/
structure LogFilter where
  directives : List LogDirective
  deriving DecidableEq, Repr

namespace LogFilter

/-- The filter of directives between commas, if all of them can be read. -/
def ofText? (s : String) : Option LogFilter :=
  (((s.splitOn ",").filter (!·.isEmpty)).mapM LogDirective.ofText?).map (⟨·⟩)

/-- The filter of one level for all lines. -/
def ofLevel (level : Level) : LogFilter := ⟨[.ofLevel level]⟩

/-- The level that counts for a line: that of the most specific directive, of equally specific ones
the last. -/
def levelFor (f : LogFilter) (target : String) (fields : List String) : Level :=
  let applying := f.directives.filter (·.applies target fields)
  let best := applying.foldl
    (fun best d =>
      match best with
      | none => some d
      | some b => if d.outranks b then some d else some b)
    (none : Option LogDirective)
  (best.map LogDirective.level).getD .off

/-- Whether a line of the given level is written. -/
def admits (f : LogFilter) (target : String) (fields : List String) (level : Level) : Bool :=
  level.rank ≤ (f.levelFor target fields).rank

end LogFilter

namespace Event

/-- The names of all fields; the message counts as one. -/
def fieldNames (e : Event) : List String :=
  "message" :: e.fields.map Prod.fst

/-- The line of an event. -/
def line (e : Event) : String :=
  let fields := e.fields.map fun (name, value) => s!" {name}={value}"
  s!"{e.level.name.toUpper} {e.target}: {e.message}" ++ String.join fields

end Event

/-- The library that the program is run with. -/
def LogLibrary.standard : LogLibrary where
  Filter := LogFilter
  ofText? := LogFilter.ofText?
  ofLevel := LogFilter.ofLevel
  admits f e := f.admits e.target e.fieldNames e.level
  line := Event.line

end RsxInspect
