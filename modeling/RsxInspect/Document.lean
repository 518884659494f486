import RsxInspect.Template.Builder

/-!
# Reading a file

A file is a list of sections with blanks between them. A section of code is one opaque span; a
template is read piece by piece. Tokens always make up a file (`ofTokens`): what is wrong comes back
as diagnostics beside a tree that still covers the input. Only a scan that stands still keeps a file
from being read (`parse?`), its own or that of a value in it that is scanned again (`valuesEnd`).

The diagnostics of the tokens come first, then those of the tree, and both are put in the order of
their start offsets; those that start together stay in the order in which they were found.
-/

namespace RsxInspect

/-- The tree of a file, all that is wrong with it, and what is worth a line in the log. -/
structure Parsed where
  document : Document
  diagnostics : List Diagnostic
  events : List Event

namespace Document

/-- The problem of the opening tag of a section that has no `>`. -/
def openTagProblem (r : Reading) (opening : Token) : List Diagnostic :=
  let text := r.textOf opening
  if endsWith ['>'] text.toList then []
  else [(Problem.openTagWithoutEnd (trimEnd text)).on opening.span]

/-- The problem of a section that is not closed. -/
def unclosedProblem (kind : SectionKind) (opening : Token) (closing : Option Span) :
    List Diagnostic :=
  if closing.isSome then [] else [(Problem.unclosedSection kind).on opening.span]

/-- A section, the number of tokens that it takes behind its first one, and the notes with its own
added. -/
structure SectionRead (α : Type) where
  content : α
  taken : Nat
  notes : Notes

/-- The token kinds of the code and of the closing delimiter of a section. -/
def codeKinds : SectionKind → TokenKind × TokenKind
  | .frontMatter => (.frontMatterCode, .frontMatterDelimiter)
  | .script => (.scriptCode, .scriptClose)
  | .style => (.styleCode, .styleClose)
  | .template => (.text, .templateClose)

/-- A section of code: the opening delimiter, code, and the closing delimiter. -/
def readCode (r : Reading) (notes : Notes) (kind : SectionKind) (opening : Token)
    (ts : List Token) : SectionRead CodeSection :=
  let (code, close) := codeKinds kind
  let codes := ts.takeWhile (·.kind == code)
  let content := codes.foldl (fun s t => s.cover t.span) (Span.point opening.span.stop)
  let closing := ((ts.drop codes.length).head?.filter (·.kind == close)).map (·.span)
  let taken := codes.length + (if closing.isSome then 1 else 0)
  let tagProblem := if kind = .frontMatter then [] else openTagProblem r opening
  ⟨⟨opening.span, content, closing, spanOf opening ts taken⟩, taken,
    notes.reportAll r.source (tagProblem ++ unclosedProblem kind opening closing)⟩

/-- A template: the opening tag, pieces, and the closing tag. -/
def readTemplate (r : Reading) (notes : Notes) (opening : Token) (ts : List Token) :
    SectionRead TemplateSection :=
  let notes := notes.reportAll r.source (openTagProblem r opening)
  let p := Builder.readFrom r ⟨⟨.empty, notes⟩, 0, opening.span.stop⟩ ts
  let b := p.builder.finish r.source p.stop
  let closing := ((ts.drop p.taken).head?.filter (·.kind == .templateClose)).map (·.span)
  let taken := p.taken + (if closing.isSome then 1 else 0)
  ⟨⟨opening.span, b.forest.roots.toList, closing, spanOf opening ts taken⟩, taken,
    b.notes.reportAll r.source (unclosedProblem .template opening closing)⟩

/-- The kind of section that a token opens. -/
def sectionOpenedBy? : TokenKind → Option SectionKind
  | .frontMatterDelimiter => some .frontMatter
  | .scriptOpen => some .script
  | .templateOpen => some .template
  | .styleOpen => some .style
  | _ => none

/-- A section of the given kind. -/
def readSection (r : Reading) (notes : Notes) (kind : SectionKind) (opening : Token)
    (ts : List Token) : SectionRead Section :=
  match kind with
  | .frontMatter =>
    let s := readCode r notes kind opening ts
    ⟨.frontMatter s.content, s.taken, s.notes⟩
  | .script =>
    let s := readCode r notes kind opening ts
    ⟨.script s.content, s.taken, s.notes⟩
  | .style =>
    let s := readCode r notes kind opening ts
    ⟨.style s.content, s.taken, s.notes⟩
  | .template =>
    let s := readTemplate r notes opening ts
    ⟨.template s.content, s.taken, s.notes⟩

/-- The problem of a section of a kind that was there before. -/
def duplicateProblem (done : Array Section) (kind : SectionKind) (opening : Token) :
    List Diagnostic :=
  if done.any (·.kind == kind) then [(Problem.duplicateSection kind).on opening.span] else []

/-- The sections that the tokens make up, behind those that are `done`, and the notes. -/
def readFrom (r : Reading) (done : Array Section) (notes : Notes) :
    List Token → Array Section × Notes
  | [] => (done, notes)
  | t :: ts =>
    match sectionOpenedBy? t.kind with
    | some kind =>
      let notes := (notes.reportAll r.source (duplicateProblem done kind t)).log
        (.enterSection kind t.span.start)
      let s := readSection r notes kind t ts
      readFrom r (done.push s.content) s.notes (ts.drop s.taken)
    | none =>
      let notes :=
        if t.kind = .badCharacter then notes
        else notes.report r.source (r.unexpected t .outsideSections)
      readFrom r done notes ts
termination_by ts => ts.length
decreasing_by all_goals simp only [List.length_drop, List.length_cons]; omega

/-- Diagnostics in the order of their start offsets. -/
def inOrder (ds : List Diagnostic) : List Diagnostic :=
  ds.mergeSort fun a b => a.span.start ≤ b.span.start

/-- The file that significant tokens make up. -/
def ofTokens (r : Reading) (ts : List Token) : Parsed :=
  let (sections, notes) := readFrom r #[] .empty ts
  let lexical := Findings.ofTokens r.source ts
  ⟨⟨sections.toList, ⟨0, r.source.utf8ByteSize⟩⟩,
    inOrder (lexical.reverse ++ notes.findings.reverse), notes.events.reverse⟩

/-- Whether all attribute values among the tokens of a file can be read to their ends. -/
def valuesEnd (source : String) (ts : List Token) : Bool :=
  (attributeValues ts).all (AttributeValue.scanEnds source)

/-- Reads a file; nothing if a scan stands still, be it that of the file or that of an attribute
value, since reading has no end then. Trees for expressions are built on request. -/
def parse? (source : String) (withTrees : Bool) : Option Parsed :=
  (Scanner.ofSource source).toEnd?.bind fun (tokens, _) =>
    let ts := tokens.toList.filter (!·.kind.isTrivia)
    if valuesEnd source ts then some (ofTokens ⟨source, withTrees⟩ ts) else none

end Document

end RsxInspect
