import RsxInspect.Proofs.Template.Steps

/-!
# Invariants of a forest

Many properties of a tree speak of one node at a time, without what is below it. For such a property
`N`, and a property `F` of open frames that makes nodes of this sort of them, `Forest.Holds` says
that all of a forest under construction has it. The bricks:

* `Holds.push_of_subtree` and `Holds.openFrame`: nodes that come in have the property, and so do
  frames that are opened.
* `Holds.closeInnermost`, `Holds.abandon` and `Holds.closeBy`: a frame that is closed becomes a node
  of the frame around it.
* `Holds.roots_abandon`: at the end all that is left are nodes.
* `Piece.Brings`: what a piece has to bring along, which is all that adding it can make.

So each step keeps the invariant (`Forest.Adds.holds`), and an instance has to show `Piece.Brings`
for the pieces that are read. Texts are told apart from other nodes (`Node.isText`), since a
property of frames may say what stands in front of a text.
-/

namespace RsxInspect

variable {N : Node → Prop} {F : Frame → Prop}

/-- The node is a text. -/
def Node.isText : Node → Bool
  | .text _ => true
  | _ => false

/-- What `Frame.close` makes is none. -/
theorem Frame.isText_close (f : Frame) (stop : Nat) (closing : Option Span) :
    (f.close stop closing).isText = false := by
  cases f <;> rfl

namespace Forest

/-! ### Frames under others

What a closer is looked up by does not depend on the nodes in a frame. So the target can be found
before the frames above it are abandoned, and is the same frame afterwards. -/

section Frames

variable {α : Type} {g : Frame → α} (hg : ∀ frame n, g (frame.push n) = g frame)
include hg

/-- What the nodes in a frame do not change (`hg`) stays the same when another frame is closed. -/
theorem map_frames_closeInnermost (f : Forest) (stop : Nat) (closing : Option Span) :
    (f.closeInnermost stop closing).frames.map g = (f.frames.map g).tail := by
  obtain ⟨roots, frames⟩ := f
  match frames with
  | [] => rfl
  | [_] => rfl
  | inner :: next :: outer => exact congrArg (· :: outer.map g) (hg next _)

/-- The same for frames that are abandoned. -/
theorem map_frames_abandon (f : Forest) (stop n : Nat) :
    (f.abandon stop n).frames.map g = (f.frames.map g).drop n := by
  induction n generalizing f with
  | zero => rfl
  | succ n ih => rw [abandon, ih, map_frames_closeInnermost hg, List.drop_tail]

end Frames

/-- The frame that is to be closed is the innermost one when those above it are abandoned. -/
theorem target_abandon {f : Forest} {p : Frame → Bool} {n : Nat}
    (h : f.frames.findIdx? p = some n) (hp : ∀ frame node, p (frame.push node) = p frame)
    (stop : Nat) : ∀ frame ∈ (f.abandon stop n).frames.head?, p frame = true := by
  intro frame hframe
  obtain ⟨hlt, htarget, -⟩ := List.findIdx?_eq_some_iff_getElem.mp h
  have hhead : ((f.abandon stop n).frames.map p).head? = some (p frame) := by
    rw [List.head?_map, Option.mem_def.mp hframe]
    rfl
  rw [map_frames_abandon hp, List.head?_drop, List.getElem?_map, List.getElem?_eq_getElem hlt]
    at hhead
  exact (Option.some.inj hhead).symm.trans htarget

/-! ### Nodes and frames

`Holds` is for properties of single nodes and frames. Each operation on forests keeps it under a
condition on what the operation adds or closes, and `Adds.holds` puts these conditions together for
a piece (`Piece.Brings`). -/

/-- All complete nodes have the property `N`, and all open frames the property `F`. -/
structure Holds (N : Node → Prop) (F : Frame → Prop) (f : Forest) : Prop where
  nodes : ∀ n ∈ f.nodes, N n
  frames : ∀ frame ∈ f.frames, F frame

namespace Holds

variable {f : Forest}

/-- Nothing is in an empty forest. -/
theorem empty : Forest.empty.Holds N F := ⟨fun _ hn => (nomatch hn), fun _ hf => (nomatch hf)⟩

/-- Weaker properties hold as well. -/
theorem mono {N' : Node → Prop} {F' : Frame → Prop} (h : f.Holds N F) (hN : ∀ n, N n → N' n)
    (hF : ∀ frame, F frame → F' frame) : f.Holds N' F' :=
  ⟨fun n hn => hN n (h.nodes n hn), fun frame hframe => hF frame (h.frames frame hframe)⟩

/-- A node that `push` adds goes into the innermost frame, or to the roots. Its whole subtree comes
in with it. -/
theorem push_of_subtree (h : f.Holds N F) {n : Node} (hn : ∀ m ∈ n.subtree, N m)
    (hpush : ∀ frame ∈ f.frames.head?, F frame → F (frame.push n)) : (f.push n).Holds N F := by
  refine ⟨fun m hm => ?_, fun frame hframe => ?_⟩
  · rcases List.mem_append.mp ((f.nodes_push n).mem_iff.mp hm) with hm | hm
    · exact hn m hm
    · exact h.nodes m hm
  · have hframes := h.frames
    obtain ⟨roots, frames⟩ := f
    cases frames with
    | nil => cases hframe
    | cons inner outer =>
      rcases List.mem_cons.mp hframe with rfl | hframe
      · exact hpush inner rfl (hframes inner (List.mem_cons_self ..))
      · exact hframes frame (List.mem_cons_of_mem _ hframe)

/-- A node without children brings only itself. -/
theorem push (h : f.Holds N F) {n : Node} (hn : N n) (hchildren : n.children = [])
    (hpush : ∀ frame ∈ f.frames.head?, F frame → F (frame.push n)) : (f.push n).Holds N F := by
  refine h.push_of_subtree (fun m hm => ?_) hpush
  rw [Node.subtree_eq, hchildren] at hm
  rw [List.mem_singleton.mp hm]
  exact hn

/-- A frame that is opened is empty, so no node comes in. -/
theorem openFrame (h : f.Holds N F) {frame : Frame} (hframe : F frame)
    (hempty : frame.children = []) : (f.openFrame frame).Holds N F := by
  refine ⟨fun n hn => ?_, fun other hother => ?_⟩
  · rw [f.nodes_openFrame hempty] at hn
    exact h.nodes n hn
  · rcases List.mem_cons.mp hother with rfl | hother
    · exact hframe
    · exact h.frames other hother

/-- The innermost frame becomes a node of the one around it: the frame makes a node (`hclose`), and
the one around it bears that (`hpush`). -/
theorem closeInnermost (h : f.Holds N F) {stop : Nat} {closing : Option Span}
    (hclose : ∀ frame ∈ f.frames.head?, F frame → N (frame.close stop closing))
    (hpush : ∀ frame inner : Frame, F frame → F (frame.push (inner.close stop closing))) :
    (f.closeInnermost stop closing).Holds N F := by
  obtain ⟨roots, frames⟩ := f
  cases frames with
  | nil => exact h
  -- the innermost frame becomes a node of the frame around it, or a root
  | cons inner outer =>
    have hinner : F inner := h.frames inner (List.mem_cons_self ..)
    have houter : (⟨roots, outer⟩ : Forest).Holds N F := by
      refine ⟨fun n hn => h.nodes n ?_, fun frame hframe =>
        h.frames frame (List.mem_cons_of_mem _ hframe)⟩
      rcases List.mem_append.mp hn with hn | hn
      · exact List.mem_append_left _ hn
      · exact List.mem_append_right _ (List.mem_append_right _ hn)
    refine houter.push_of_subtree (fun m hm => ?_) fun frame _ => hpush frame inner
    rw [Frame.subtree_close] at hm
    rcases List.mem_cons.mp hm with rfl | hm
    · exact hclose inner rfl hinner
    · exact h.nodes m (List.mem_append_right _ (List.mem_append_left _ hm))

/-- The same for frames that `abandon` closes, one after the other. -/
theorem abandon (h : f.Holds N F) {stop : Nat} (n : Nat)
    (hclose : ∀ frame, F frame → N (frame.close stop none))
    (hpush : ∀ frame inner : Frame, F frame → F (frame.push (inner.close stop none))) :
    (f.abandon stop n).Holds N F := by
  induction n generalizing f with
  | zero => exact h
  | succ n ih => exact ih (h.closeInnermost (fun frame _ => hclose frame) hpush)

/-- `closeBy` closes a frame with what stands at the span, and those above it end in front of the
span. Only the frame that is looked for has to be a node with this end. -/
theorem closeBy (h : f.Holds N F) {span : Span} {n : Nat} {p : Frame → Bool}
    (htarget : f.frames.findIdx? p = some n) (hp : ∀ frame node, p (frame.push node) = p frame)
    (habandon : ∀ frame, F frame → N (frame.close span.start none))
    (hclose : ∀ frame, p frame = true → F frame → N (frame.close span.stop (some span)))
    (hpush : ∀ (frame inner : Frame) stop closing,
      F frame → F (frame.push (inner.close stop closing))) : (f.closeBy n span).Holds N F := by
  have habove := h.abandon n habandon fun frame inner => hpush frame inner _ _
  refine habove.closeInnermost (fun frame hframe => ?_) fun frame inner => hpush frame inner _ _
  exact hclose frame (target_abandon htarget hp span.start frame hframe)

/-- Frames that are all abandoned leave their nodes at the top. -/
theorem roots_abandon (h : f.Holds N F) {stop : Nat}
    (hclose : ∀ frame, F frame → N (frame.close stop none))
    (hpush : ∀ frame inner : Frame, F frame → F (frame.push (inner.close stop none))) :
    ∀ n ∈ Node.subtreeAll (f.abandon stop f.frames.length).roots.toList, N n := by
  intro n hn
  exact (h.abandon f.frames.length hclose hpush).nodes n (List.mem_append_left _ hn)

end Holds

end Forest

/-- A piece brings along what adding it makes, if that reports `ds`: complete nodes, frames that are
opened, and the nodes that become of the frames that it closes. -/
def Piece.Brings (r : Reading) (N : Node → Prop) (F : Frame → Prop) (ds : List Diagnostic) :
    Piece → Prop
  | .node n => N n ∧ n.children = []
  | .startTag e => F (.element e #[])
  | .opener kind head => F (.block ⟨kind, #[], head, #[]⟩)
  | .branch word run span => N (.error span) ∧
      (ds = (Builder.branchExpression r word run span).2 → ∀ block, block.kind = .choice →
        block.hasElse = false → F (.block block) → F (.block (block.startBranch
          ⟨Builder.keywordOf word, (Builder.branchExpression r word run span).1, none, span⟩)))
  | .endTag name span => N (.error span) ∧ ∀ frame, F frame → N (frame.close span.start none) ∧
      (frame.isElement name = true → N (frame.close span.stop (some span)))
  | .closer kind span => N (.error span) ∧ ∀ frame, F frame → N (frame.close span.start none) ∧
      (frame.isBlock kind = true → N (frame.close span.stop (some span)))
  | .nothing => True

/-- An element has its name whatever is in it. -/
theorem Frame.isElement_push (f : Frame) (n : Node) (name : String) :
    (f.push n).isElement name = f.isElement name := by
  cases f <;> rfl

/-- A block has its kind whatever is in it. -/
theorem Frame.isBlock_push (f : Frame) (n : Node) (kind : DirectiveKind) :
    (f.push n).isBlock kind = f.isBlock kind := by
  cases f <;> rfl

/-- **Steps keep an invariant.** Adding a piece (`Forest.Adds`) keeps properties of nodes and frames
if the piece brings along what it makes and a frame does not lose its property to a node in it. A
text has to be looked at only where it is added. -/
theorem Forest.Adds.holds {r : Reading} {f f' : Forest} {piece : Piece} {ds : List Diagnostic}
    (h : f.Adds r piece f' ds) (hf : f.Holds N F) (hpiece : piece.Brings r N F ds)
    (hpush : ∀ frame n, n.isText = false → F frame → F (frame.push n))
    (htext : ∀ n, piece = .node n → n.isText = true →
      ∀ frame ∈ f.frames.head?, F frame → F (frame.push n)) : f'.Holds N F := by
  have hclosed : ∀ (frame inner : Frame) stop closing,
      F frame → F (frame.push (inner.close stop closing)) :=
    fun frame inner stop closing => hpush frame _ (inner.isText_close stop closing)
  -- pieces that push, open, branch or close, each by the lemma on that move
  cases h with
  | node n =>
    refine hf.push hpiece.1 hpiece.2 fun frame hframe => ?_
    cases hn : n.isText with
    | false => exact hpush frame n hn
    | true => exact htext n rfl hn frame hframe
  | startTag e => exact hf.openFrame hpiece rfl
  | opener kind head => exact hf.openFrame hpiece rfl
  | branch hframes hkind helse =>
    refine ⟨fun n hn => ?_, fun frame hframe => ?_⟩
    · rw [nodes_startBranch hframes] at hn
      exact hf.nodes n hn
    · rcases List.mem_cons.mp hframe with rfl | hframe
      · exact hpiece.2 rfl _ hkind helse
          (hf.frames _ (by rw [hframes]; exact List.mem_cons_self ..))
      · exact hf.frames frame (by rw [hframes]; exact List.mem_cons_of_mem _ hframe)
  | endTag htarget =>
    exact hf.closeBy htarget (fun frame n => frame.isElement_push n _)
      (fun frame hframe => (hpiece.2 frame hframe).1)
      (fun frame hname hframe => (hpiece.2 frame hframe).2 hname) hclosed
  | closer htarget | closerOver _ htarget =>
    exact hf.closeBy htarget (fun frame n => frame.isBlock_push n _)
      (fun frame hframe => (hpiece.2 frame hframe).1)
      (fun frame hblock hframe => (hpiece.2 frame hframe).2 hblock) hclosed
  | strayEndTag | strayBranch | strayCloser =>
    exact hf.push hpiece.1 rfl fun frame _ => hpush frame _ rfl

end RsxInspect
