import RsxInspect.Proofs.Template.Growth
import RsxInspect.Proofs.Template.Preorder

/-!
# The nodes of a tree

`Document.allNodes` lists the nodes of a file by recursion over its trees (`Node.subtree`); they are
the nodes that `Document.nodes` visits with its list of what is still to come (`Document.nodes_eq`).

A forest under construction has nodes as well: those that are complete already, wherever they stand
(`Forest.nodes`). Adding a node and closing a frame add nodes and take none away
(`Forest.nodes_push`, `Forest.nodes_closeInnermost`), so what holds of all nodes of a forest can be
kept step by step.
-/

namespace RsxInspect

namespace Node

mutual

/-- The node and all that are below it, in document order. It recurs with `subtreeAll` over the
children of an element and with `subtreeBranches` over the branches of a block. -/
def subtree : Node → List Node
  | .element e children => .element e children :: subtreeAll children
  | .text t => [.text t]
  | .comment s => [.comment s]
  | .interpolation i => [.interpolation i]
  | .directive d branches => .directive d branches :: subtreeBranches branches
  | .error s => [.error s]

/-- The nodes of a list of trees. -/
def subtreeAll : List Node → List Node
  | [] => []
  | n :: ns => subtree n ++ subtreeAll ns

/-- The nodes of some branches. -/
def subtreeBranches : List Branch → List Node
  | [] => []
  | .mk _ children :: branches => subtreeAll children ++ subtreeBranches branches

end

/-- The nodes of two lists of trees: `subtreeAll` of one, then of the other. -/
theorem subtreeAll_append (ns ms : List Node) :
    subtreeAll (ns ++ ms) = subtreeAll ns ++ subtreeAll ms := by
  induction ns with
  | nil => rfl
  | cons n ns ih =>
    show subtree n ++ subtreeAll (ns ++ ms) = (subtree n ++ subtreeAll ns) ++ subtreeAll ms
    rw [ih, List.append_assoc]

/-- One tree is a list of trees. -/
theorem subtreeAll_singleton (n : Node) : subtreeAll [n] = n.subtree := List.append_nil _

/-- The nodes of some branches are those of all their children. -/
theorem subtreeBranches_eq (branches : List Branch) :
    subtreeBranches branches = subtreeAll (branches.flatMap Branch.children) := by
  induction branches with
  | nil => rfl
  | cons b branches ih =>
    obtain ⟨head, children⟩ := b
    rw [List.flatMap_cons, subtreeAll_append, ← ih]
    rfl

/-- A node comes first, then what is below it, whatever sort of node it is. -/
theorem subtree_eq (n : Node) : n.subtree = n :: subtreeAll n.children := by
  cases n with
  | element e children => rfl
  | directive d branches => exact congrArg _ (subtreeBranches_eq branches)
  | _ => rfl

/-- The first of some trees comes with all of its nodes before the others. -/
theorem subtreeAll_cons (n : Node) (ns : List Node) :
    subtreeAll (n :: ns) = n :: (subtreeAll n.children ++ subtreeAll ns) := by
  show subtree n ++ subtreeAll ns = _
  rw [subtree_eq]
  rfl

/-- The nodes of a list are those of its `preorder` without the depths. -/
theorem map_snd_preorder (depth : Nat) (ns : List Node) :
    (ns.flatMap (preorder depth)).map Prod.snd = subtreeAll ns := by
  induction ns using forest_induct generalizing depth with
  | nil => rfl
  | cons n ns hchildren hns =>
    rw [List.flatMap_cons, preorder_eq, List.map_append, List.map_cons, hchildren, hns,
      subtreeAll_cons]
    rfl

end Node

/-- The nodes of a section, in document order. Sections of code have no roots and so no nodes. -/
def Section.nodes (s : Section) : List Node := Node.subtreeAll s.roots

/-- The nodes of all templates of a file, in document order. -/
def Document.allNodes (d : Document) : List Node := d.sections.flatMap Section.nodes

/-- The nodes below all roots of a file are those of its sections, one after the other. -/
theorem subtreeAll_flatMap_roots (sections : List Section) :
    Node.subtreeAll (sections.flatMap Section.roots) = sections.flatMap Section.nodes := by
  induction sections with
  | nil => rfl
  | cons s sections ih =>
    rw [List.flatMap_cons, Node.subtreeAll_append, ih]
    rfl

/-- **The nodes of a file.** The visit of `Document.nodes`, with a list of what is still to come,
finds them all, in document order. -/
theorem Document.nodes_eq (d : Document) : d.nodes.toList.map Prod.snd = d.allNodes := by
  rw [toList_nodes, Node.map_snd_preorder]
  exact subtreeAll_flatMap_roots d.sections

/-! ### Frames

What is complete in a frame is what it will have below it as a node. -/

namespace Frame

/-- The nodes that stand in an open frame: the children of an element so far, or those of all
branches of a block. -/
def children : Frame → List Node
  | element _ children => children.toList
  | block b => b.branches.flatMap Branch.children

/-- What `close` makes of a frame keeps its children. -/
theorem children_close (f : Frame) (stop : Nat) (closing : Option Span) :
    (f.close stop closing).children = f.children := by
  cases f <;> rfl

/-- A node that `push` adds is the last of them. -/
theorem children_push (f : Frame) (n : Node) : (f.push n).children = f.children ++ [n] := by
  cases f with
  | element e children => exact Array.toList_push
  | block b => simp [push, children, OpenBlock.branches, Branch.children]

/-- A branch that `startBranch` opens has none yet. -/
theorem children_startBranch (b : OpenBlock) (head : BranchHead) :
    (block (b.startBranch head)).children = (block b).children := by
  simp [children, OpenBlock.branches, OpenBlock.startBranch, Branch.children]

/-- The complete nodes in an open frame, with all that is below them. -/
def nodes (f : Frame) : List Node := Node.subtreeAll f.children

/-- The `subtree` of a closed frame is the node that it becomes, and the nodes that were complete in
it. -/
theorem subtree_close (f : Frame) (stop : Nat) (closing : Option Span) :
    (f.close stop closing).subtree = f.close stop closing :: f.nodes := by
  rw [Node.subtree_eq, children_close]
  rfl

/-- A node that `push` adds brings all that is below it. -/
theorem nodes_push (f : Frame) (n : Node) : (f.push n).nodes = f.nodes ++ n.subtree := by
  show Node.subtreeAll (f.push n).children = _
  rw [children_push, Node.subtreeAll_append, Node.subtreeAll_singleton]
  rfl

end Frame

namespace Forest

/-- The complete nodes of a forest: those of its roots and those in its frames. -/
def nodes (f : Forest) : List Node :=
  Node.subtreeAll f.roots.toList ++ f.frames.flatMap Frame.nodes

/-- A node that `push` adds comes in with all that is below it, wherever it joins. -/
theorem nodes_push (f : Forest) (n : Node) : (f.push n).nodes.Perm (n.subtree ++ f.nodes) := by
  obtain ⟨roots, frames⟩ := f
  cases frames with
  | nil =>
    show (Node.subtreeAll (roots.push n).toList ++ []).Perm
      (n.subtree ++ (Node.subtreeAll roots.toList ++ []))
    rw [Array.toList_push, Node.subtreeAll_append, Node.subtreeAll_singleton, List.append_nil,
      List.append_nil]
    exact List.perm_append_comm
  | cons inner outer =>
    show (Node.subtreeAll roots.toList ++ ((inner.push n).nodes ++ outer.flatMap Frame.nodes)).Perm
      (n.subtree ++ (Node.subtreeAll roots.toList ++ (inner.nodes ++ outer.flatMap Frame.nodes)))
    rw [Frame.nodes_push, List.append_assoc, ← List.append_assoc, ← List.append_assoc _ inner.nodes]
    exact List.perm_append_comm_assoc _ _ _

/-- A frame that `openFrame` opens has no nodes yet. -/
theorem nodes_openFrame (f : Forest) {frame : Frame} (h : frame.children = []) :
    (f.openFrame frame).nodes = f.nodes := by
  have hnodes : frame.nodes = [] := by
    unfold Frame.nodes
    rw [h]
    rfl
  show _ ++ (frame.nodes ++ _) = _
  rw [hnodes]
  rfl

/-- A frame that `closeInnermost` closes comes in as one node; those that were complete in it are
there before and after. -/
theorem nodes_closeInnermost {f : Forest} {inner : Frame} {outer : List Frame}
    (h : f.frames = inner :: outer) (stop : Nat) (closing : Option Span) :
    (f.closeInnermost stop closing).nodes.Perm (inner.close stop closing :: f.nodes) := by
  obtain ⟨roots, frames⟩ := f
  obtain rfl : frames = inner :: outer := h
  have hpush := nodes_push ⟨roots, outer⟩ (inner.close stop closing)
  rw [Frame.subtree_close, List.cons_append] at hpush
  refine hpush.trans (.cons _ ?_)
  show (inner.nodes ++ (Node.subtreeAll roots.toList ++ outer.flatMap Frame.nodes)).Perm
    (Node.subtreeAll roots.toList ++ (inner.nodes ++ outer.flatMap Frame.nodes))
  exact List.perm_append_comm_assoc _ _ _

/-- A further branch, opened by `startBranch`, changes no node. -/
theorem nodes_startBranch {f : Forest} {block : OpenBlock} {outer : List Frame}
    (h : f.frames = .block block :: outer) (head : BranchHead) :
    ({ f with frames := .block (block.startBranch head) :: outer } : Forest).nodes = f.nodes := by
  unfold nodes
  rw [h, List.flatMap_cons, List.flatMap_cons, Frame.nodes, Frame.nodes,
    Frame.children_startBranch]

end Forest

end RsxInspect
