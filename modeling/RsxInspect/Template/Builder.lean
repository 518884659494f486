import RsxInspect.Template.Forest
import RsxInspect.Template.Piece

/-!
# Building the forest of a template

Pieces are added to a forest one after the other. An end tag closes the innermost element of its
name, and a closer the innermost block of its kind; whatever is open inside of that is closed with
it, and each such frame is reported. A closer or an end tag that has nothing to close becomes an
error node and closes nothing.
-/

namespace RsxInspect

/-- Diagnostics and log events, newest first. -/
structure Notes where
  findings : Findings
  events : List Event

namespace Notes

def empty : Notes := ⟨[], []⟩

/-- Adds a diagnostic. -/
def report (n : Notes) (source : String) (d : Diagnostic) : Notes :=
  { n with findings := n.findings.record source d }

/-- Adds diagnostics, the first one first. -/
def reportAll (n : Notes) (source : String) (ds : List Diagnostic) : Notes :=
  { n with findings := n.findings.recordAll source ds }

/-- Adds an event. -/
def log (n : Notes) (e : Event) : Notes :=
  { n with events := e :: n.events }

/-- Adds events, the first one first. -/
def logAll (n : Notes) (es : List Event) : Notes :=
  es.foldl log n

end Notes

/-- A forest under construction, and what was noted on the way. -/
structure Builder where
  forest : Forest
  notes : Notes

namespace Builder

def report (b : Builder) (source : String) (d : Diagnostic) : Builder :=
  { b with notes := b.notes.report source d }

def reportAll (b : Builder) (source : String) (ds : List Diagnostic) : Builder :=
  { b with notes := b.notes.reportAll source ds }

def log (b : Builder) (e : Event) : Builder :=
  { b with notes := b.notes.log e }

def push (b : Builder) (n : Node) : Builder :=
  { b with forest := b.forest.push n }

def openFrame (b : Builder) (f : Frame) : Builder :=
  { b with forest := b.forest.openFrame f }

def closeInnermost (b : Builder) (stop : Nat) (closing : Option Span) : Builder :=
  { b with forest := b.forest.closeInnermost stop closing }

/-- Closes the `n` innermost frames at offset `stop` and reports each as never closed, the innermost
one first. -/
def abandon (source : String) (stop : Nat) : Nat → Builder → Builder
  | 0, b => b
  | n + 1, b =>
    match b.forest.frames with
    | [] => b
    | inner :: _ =>
      let d := inner.unclosed.on inner.opening
      let b := (b.log (.implicitClose d.kind d.span.start stop)).report source d
      abandon source stop n (b.closeInnermost stop none)

/-- Closes the frame under the `n` innermost ones by what stands at `span`. -/
def closeBy (b : Builder) (source : String) (n : Nat) (span : Span) : Builder :=
  (abandon source span.start n b).closeInnermost span.stop (some span)

/-- Adds an end tag. -/
def addEndTag (b : Builder) (source : String) (name : String) (span : Span) : Builder :=
  match b.forest.frames.findIdx? (·.isElement name) with
  | some n => b.closeBy source n span
  | none =>
    ((b.log (.endTagWithoutStart name span.start)).report source
      ((Problem.endTagWithoutStart name).on span)).push (.error span)

/-- Adds the closer of a block. -/
def addCloser (b : Builder) (source : String) (kind : DirectiveKind) (span : Span) : Builder :=
  let target := b.forest.frames.findIdx? (·.isBlock kind)
  let b :=
    if target = some 0 then b
    else
      let problem :=
        match b.forest.frames with
        | inner :: _ => Problem.closerOver kind inner.construct
        | [] => .closerAlone kind
      (b.log (.mismatchedClose kind span.start target.isSome)).report source (problem.on span)
  match target with
  | some n => b.closeBy source n span
  | none => b.push (.error span)

/-- The token kind of the head of a further branch. -/
def keywordOf : BranchWord → TokenKind
  | .elseIf => .elseIf
  | .elseBranch => .elseBranch

/-- The expression of the head of a further branch, with diagnostics. -/
def branchExpression (r : Reading) (word : BranchWord) (run : List Token) (span : Span) :
    Option Expression × List Diagnostic :=
  match word with
  | .elseBranch => (none, Problem.elseWithCondition.onRun? run)
  | .elseIf =>
    let (expression, ds) := Expression.ofRun? r run true
    let missing := if expression.isNone then [Problem.elseIfWithoutCondition.on span] else []
    (expression, ds ++ missing)

/-- Adds an error node for the head of a branch that belongs to nothing. -/
def addStrayBranch (b : Builder) (source : String) (problem : Problem) (span : Span) : Builder :=
  ((b.log (.strayBranch span.start)).report source (problem.on span)).push (.error span)

/-- Adds the head of a further branch. It belongs to the innermost frame, if that is a choice whose
last branch has not been opened. -/
def addBranch (b : Builder) (r : Reading) (word : BranchWord) (run : List Token) (span : Span) :
    Builder :=
  match b.forest.frames with
  | .block block :: outer =>
    if block.kind = .choice then
      if block.hasElse then b.addStrayBranch r.source (.branchAfterElse word) span
      else
        let (expression, ds) := branchExpression r word run span
        let head : BranchHead := ⟨keywordOf word, expression, none, span⟩
        let frames := .block (block.startBranch head) :: outer
        ({ b with forest := { b.forest with frames } } : Builder).reportAll r.source ds
    else b.addStrayBranch r.source (.branchOutsideChoice word) span
  | _ => b.addStrayBranch r.source (.branchOutsideChoice word) span

/-- Adds what a piece means. -/
def addPiece (b : Builder) (r : Reading) : Piece → Builder
  | .node n => b.push n
  | .startTag e => b.openFrame (.element e #[])
  | .endTag name span => b.addEndTag r.source name span
  | .opener kind head => b.openFrame (.block ⟨kind, #[], head, #[]⟩)
  | .branch word run span => b.addBranch r word run span
  | .closer kind span => b.addCloser r.source kind span
  | .nothing => b

/-- Adds a piece with its own diagnostics and events. -/
def add (b : Builder) (r : Reading) (p : PieceRead) : Builder :=
  let notes := (b.notes.logAll p.events).reportAll r.source p.diagnostics
  ({ b with notes } : Builder).addPiece r p.piece

/-- Closes all that is open at offset `stop`. -/
def finish (b : Builder) (source : String) (stop : Nat) : Builder :=
  abandon source stop b.forest.frames.length b

/-- The builder behind all pieces of a template, where `taken` tokens were taken before and the last
one ended at `stop`. -/
structure Progress where
  builder : Builder
  taken : Nat
  stop : Nat

/-- Reads pieces up to the closing tag of the template or the end of the input. -/
def readFrom (r : Reading) (p : Progress) : List Token → Progress
  | [] => p
  | t :: ts =>
    if t.kind = .templateClose then p
    else
      let piece := Piece.read r t ts
      readFrom r
        ⟨p.builder.add r piece, p.taken + 1 + piece.taken, endOf t ts piece.taken⟩
        (ts.drop piece.taken)
termination_by ts => ts.length
decreasing_by simp only [List.length_drop, List.length_cons]; omega

end Builder

end RsxInspect
