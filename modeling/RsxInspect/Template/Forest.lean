import RsxInspect.Diagnostic.Problem
import RsxInspect.Tree
import RsxInspect.Vocabulary

/-!
# Forests under construction

The nodes of a template that are complete so far, and the elements and blocks that are still open.
The open ones stand in each other, so they form a list of frames, innermost first. A new node goes
into the innermost frame, or to the roots if nothing is open. Closing a frame makes a node of it and
adds that to what is innermost then.
-/

namespace RsxInspect

/-- A block directive that is still open: its earlier branches, and the one that is open. -/
structure OpenBlock where
  kind : DirectiveKind
  done : Array Branch
  head : BranchHead
  children : Array Node

namespace OpenBlock

/-- The span of the head of the first branch. -/
def firstHead (b : OpenBlock) : Span :=
  ((b.done[0]?.map Branch.head).getD b.head).span

/-- Whether the last branch of a choice has been opened. -/
def hasElse (b : OpenBlock) : Bool := b.head.keyword == .elseBranch

/-- Opens a further branch. -/
def startBranch (b : OpenBlock) (head : BranchHead) : OpenBlock :=
  { b with done := b.done.push ⟨b.head, b.children.toList⟩, head, children := #[] }

end OpenBlock

/-- An element or a block that is still open. -/
inductive Frame where
  | element (e : Element) (children : Array Node)
  | block (b : OpenBlock)

namespace Frame

/-- Adds a node at the end. -/
def push (f : Frame) (n : Node) : Frame :=
  match f with
  | element e children => element e (children.push n)
  | block b => block { b with children := b.children.push n }

/-- The node that becomes of a frame that ends at offset `stop`, with the tag or the braces that
close it, if there are any. -/
def close (f : Frame) (stop : Nat) (closing : Option Span) : Node :=
  match f with
  | element e children =>
    .element { e with endTag := closing, span := ⟨e.span.start, stop⟩ } children.toList
  | block b =>
    .directive ⟨b.kind, closing, ⟨b.firstHead.start, stop⟩⟩
      (b.done.push ⟨b.head, b.children.toList⟩).toList

/-- What is open, for messages. -/
def construct : Frame → OpenConstruct
  | element e _ => .element e.name
  | block b => .directive b.kind

/-- The problem of a frame that is never closed. -/
def unclosed : Frame → Problem
  | element e _ => .unclosedElement e.name
  | block b => .unclosedDirective b.kind

/-- Where that problem is reported: on the start tag, or on the head of the first branch. -/
def opening : Frame → Span
  | element e _ => e.startTag
  | block b => b.firstHead

/-- Whether the frame is an element that an end tag with the given name closes. -/
def isElement (f : Frame) (name : String) : Bool :=
  match f with
  | element e _ => Vocabulary.sameName e.name name
  | block _ => false

/-- Whether the frame is a block of the given kind. -/
def isBlock (f : Frame) (kind : DirectiveKind) : Bool :=
  match f with
  | element _ _ => false
  | block b => b.kind == kind

end Frame

/-- The complete nodes at the top, and the open frames, innermost first. -/
structure Forest where
  roots : Array Node
  frames : List Frame

namespace Forest

def empty : Forest := ⟨#[], []⟩

/-- Adds a node to what is innermost. -/
def push (f : Forest) (n : Node) : Forest :=
  match f.frames with
  | [] => { f with roots := f.roots.push n }
  | inner :: outer => { f with frames := inner.push n :: outer }

/-- Opens a frame inside the innermost one. -/
def openFrame (f : Forest) (frame : Frame) : Forest :=
  { f with frames := frame :: f.frames }

/-- Closes the innermost frame. -/
def closeInnermost (f : Forest) (stop : Nat) (closing : Option Span) : Forest :=
  match f.frames with
  | [] => f
  | inner :: outer => ({ f with frames := outer } : Forest).push (inner.close stop closing)

end Forest

end RsxInspect
