import RsxInspect.Template.Builder
import RsxInspect.Document

/-!
# Trees left out

What a tree of a file is without the trees of its expressions: all else stays, the tokens and the
spans of the expressions as well (`Document.withoutTrees`). There is one definition for each type of
the tree.

The same is said of what is still under construction, and whatever is done to a forest can be done
without the trees (`Forest.withoutTrees_push`, `Forest.withoutTrees_closeInnermost`). What decides
on the way (`Frame.isElement`, `Frame.isBlock`, `Frame.construct`) does not see them, so frames are
found at the same places.
-/

namespace RsxInspect

/-- The expression as it is written: its tokens and its span, with no tree. -/
def Expression.withoutTree (e : Expression) : Expression := { e with tree := none }

def AttributeValue.withoutTree (v : AttributeValue) : AttributeValue :=
  { v with expression := v.expression.map Expression.withoutTree }

def Attribute.withoutTree (a : Attribute) : Attribute :=
  { a with value := a.value.map AttributeValue.withoutTree }

def Element.withoutTrees (e : Element) : Element :=
  { e with attributes := e.attributes.map Attribute.withoutTree }

def Interpolation.withoutTree (i : Interpolation) : Interpolation :=
  { i with expression := i.expression.map Expression.withoutTree }

def BranchHead.withoutTree (h : BranchHead) : BranchHead :=
  { h with expression := h.expression.map Expression.withoutTree }

namespace Node

mutual

/-- The node with all that is below it, without the trees of the expressions. It recurs with
`withoutTreesAll` and `withoutTreesBranches`, which are maps (`withoutTreesAll_eq`). -/
def withoutTrees : Node → Node
  | element e children => element e.withoutTrees (withoutTreesAll children)
  | text t => text t
  | comment s => comment s
  | interpolation i => interpolation i.withoutTree
  | directive d branches => directive d (withoutTreesBranches branches)
  | error s => error s

def withoutTreesAll : List Node → List Node
  | [] => []
  | n :: ns => withoutTrees n :: withoutTreesAll ns

def withoutTreesBranches : List Branch → List Branch
  | [] => []
  | .mk head children :: branches =>
    .mk head.withoutTree (withoutTreesAll children) :: withoutTreesBranches branches

end

end Node

def Branch.withoutTrees (b : Branch) : Branch :=
  ⟨b.head.withoutTree, b.children.map Node.withoutTrees⟩

namespace Node

theorem withoutTreesAll_eq (ns : List Node) : withoutTreesAll ns = ns.map withoutTrees := by
  induction ns with
  | nil => rfl
  | cons n ns ih => exact congrArg (n.withoutTrees :: ·) ih

theorem withoutTreesBranches_eq (bs : List Branch) :
    withoutTreesBranches bs = bs.map Branch.withoutTrees := by
  induction bs with
  | nil => rfl
  | cons b bs ih =>
    obtain ⟨head, children⟩ := b
    show ⟨head.withoutTree, withoutTreesAll children⟩ :: withoutTreesBranches bs = _
    rw [ih, withoutTreesAll_eq]
    rfl

end Node

/-! ### Sections and files

Sections of code have no expressions; templates are taken node by node. -/

def TemplateSection.withoutTrees (t : TemplateSection) : TemplateSection :=
  { t with children := t.children.map Node.withoutTrees }

/-- Code has no expressions. -/
def Section.withoutTrees : Section → Section
  | .template t => .template t.withoutTrees
  | s => s

/-- The file with no expression having a tree: what `parse?` is to give where no trees are
wanted. -/
def Document.withoutTrees (d : Document) : Document :=
  { d with sections := d.sections.map Section.withoutTrees }

/-! ### Under construction

Each lemma says that what is done to a frame or a forest commutes with leaving out the trees. -/

def OpenBlock.withoutTrees (b : OpenBlock) : OpenBlock :=
  ⟨b.kind, b.done.map Branch.withoutTrees, b.head.withoutTree, b.children.map Node.withoutTrees⟩

def Frame.withoutTrees : Frame → Frame
  | .element e children => .element e.withoutTrees (children.map Node.withoutTrees)
  | .block b => .block b.withoutTrees

def Forest.withoutTrees (f : Forest) : Forest :=
  ⟨f.roots.map Node.withoutTrees, f.frames.map Frame.withoutTrees⟩

def Piece.withoutTrees : Piece → Piece
  | .node n => .node n.withoutTrees
  | .startTag e => .startTag e.withoutTrees
  | .opener kind head => .opener kind head.withoutTree
  | p => p

theorem OpenBlock.firstHead_withoutTrees (b : OpenBlock) :
    b.withoutTrees.firstHead = b.firstHead := by
  show (((b.done.map Branch.withoutTrees)[0]?.map Branch.head).getD b.head.withoutTree).span = _
  rw [Array.getElem?_map, OpenBlock.firstHead]
  cases b.done[0]? <;> rfl

theorem OpenBlock.withoutTrees_startBranch (b : OpenBlock) (head : BranchHead) :
    (b.startBranch head).withoutTrees = b.withoutTrees.startBranch head.withoutTree := by
  unfold startBranch withoutTrees
  simp only [Array.map_push, Array.toList_map, Array.map_empty]
  rfl

namespace Frame

theorem withoutTrees_element (e : Element) :
    (Frame.element e #[]).withoutTrees = .element e.withoutTrees #[] :=
  congrArg (Frame.element e.withoutTrees) Array.map_empty

theorem withoutTrees_block (kind : DirectiveKind) (head : BranchHead) :
    (Frame.block ⟨kind, #[], head, #[]⟩).withoutTrees
      = .block ⟨kind, #[], head.withoutTree, #[]⟩ := by
  show Frame.block ⟨kind, Array.map _ #[], head.withoutTree, Array.map _ #[]⟩ = _
  rw [Array.map_empty, Array.map_empty]

theorem withoutTrees_push (f : Frame) (n : Node) :
    (f.push n).withoutTrees = f.withoutTrees.push n.withoutTrees := by
  cases f with
  | element e children => exact congrArg (Frame.element e.withoutTrees) (Array.map_push ..)
  | block b =>
    exact congrArg (fun children => Frame.block { b.withoutTrees with children }) (Array.map_push ..)

theorem withoutTrees_close (f : Frame) (stop : Nat) (closing : Option Span) :
    (f.close stop closing).withoutTrees = f.withoutTrees.close stop closing := by
  cases f with
  | element e children =>
    show Node.element _ (Node.withoutTreesAll children.toList) = _
    rw [Node.withoutTreesAll_eq, ← Array.toList_map]
    rfl
  | block b =>
    show Node.directive _ (Node.withoutTreesBranches _) = Node.directive ⟨_, _, ⟨_, _⟩⟩ _
    rw [Node.withoutTreesBranches_eq, b.firstHead_withoutTrees, ← Array.toList_map,
      Array.map_push]
    unfold Branch.withoutTrees OpenBlock.withoutTrees
    simp only [Array.toList_map]
    rfl

theorem unclosed_withoutTrees (f : Frame) : f.withoutTrees.unclosed = f.unclosed := by
  cases f <;> rfl

theorem opening_withoutTrees (f : Frame) : f.withoutTrees.opening = f.opening := by
  cases f with
  | element e children => rfl
  | block b => exact b.firstHead_withoutTrees

theorem construct_withoutTrees (f : Frame) : f.withoutTrees.construct = f.construct := by
  cases f <;> rfl

theorem isElement_withoutTrees (f : Frame) (name : String) :
    f.withoutTrees.isElement name = f.isElement name := by
  cases f <;> rfl

theorem isBlock_withoutTrees (f : Frame) (kind : DirectiveKind) :
    f.withoutTrees.isBlock kind = f.isBlock kind := by
  cases f <;> rfl

end Frame

namespace Forest

theorem withoutTrees_push (f : Forest) (n : Node) :
    (f.push n).withoutTrees = f.withoutTrees.push n.withoutTrees := by
  obtain ⟨roots, frames⟩ := f
  cases frames with
  | nil => exact congrArg (Forest.mk · []) (Array.map_push ..)
  | cons inner outer =>
    exact congrArg (fun frame => Forest.mk _ (frame :: _)) (inner.withoutTrees_push n)

theorem withoutTrees_closeInnermost (f : Forest) (stop : Nat) (closing : Option Span) :
    (f.closeInnermost stop closing).withoutTrees = f.withoutTrees.closeInnermost stop closing := by
  obtain ⟨roots, frames⟩ := f
  cases frames with
  | nil => rfl
  | cons inner outer =>
    show ((⟨roots, outer⟩ : Forest).push (inner.close stop closing)).withoutTrees = _
    rw [withoutTrees_push, Frame.withoutTrees_close]
    rfl

/-- Frames are searched without regard for trees, if `p` has none, so the target of a closer is the
same one. -/
theorem findIdx?_withoutTrees (f : Forest) {p : Frame → Bool}
    (hp : ∀ frame : Frame, p frame.withoutTrees = p frame) :
    f.withoutTrees.frames.findIdx? p = f.frames.findIdx? p := by
  show (f.frames.map Frame.withoutTrees).findIdx? p = _
  rw [List.findIdx?_map]
  exact congrArg (f.frames.findIdx? ·) (funext hp)

end Forest

end RsxInspect
