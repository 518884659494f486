import RsxInspect.Template.Builder

/-!
# Parts of a tree

The parts of a tree are the places of the source that its nodes were built from, in document order:
the tags of an element around its children, the head of each branch in front of what stands in it,
the closer of a block, and every other node as a whole (`Node.parts`). An open frame has the parts
that it was opened with, so a forest under construction has parts as well (`Forest.parts`).

Closing and abandoning frames only moves nodes up the tree: `parts_closeInnermost` and
`parts_abandon` say that the parts stay, but for a closing tag behind them. So whatever is added to
a builder becomes exactly one part, behind all others (`Builder.parts_addPiece`), and the parts of a
template are its pieces.
-/

namespace RsxInspect

/-- A part of a tree: braces with an expression, the head of a branch, or any other place, of which
nothing but the span is kept (`mark`). -/
inductive Part where
  | mark (span : Span)
  | interpolation (i : Interpolation)
  | head (h : BranchHead)

namespace Part

/-- Where a part stands. -/
def span : Part → Span
  | mark s => s
  | interpolation i => i.span
  | head h => h.span

/-- The part that a closing tag or a closer leaves, if there is one: its mark. -/
def closing (s : Option Span) : List Part := (s.map mark).toList

end Part

namespace Node

mutual

/-- The parts of a tree in document order. It recurs with `partsAll` over children and with
`partsBranches` over the branches of a block. -/
def parts : Node → List Part
  | .element e children => .mark e.startTag :: (partsAll children ++ Part.closing e.endTag)
  | .text t => [.mark t.span]
  | .comment s | .error s => [.mark s]
  | .interpolation i => [.interpolation i]
  | .directive d branches => partsBranches branches ++ Part.closing d.closing

def partsAll : List Node → List Part
  | [] => []
  | n :: ns => parts n ++ partsAll ns

def partsBranches : List Branch → List Part
  | [] => []
  | .mk head children :: branches => .head head :: (partsAll children ++ partsBranches branches)

end

theorem partsAll_append (ns ms : List Node) :
    partsAll (ns ++ ms) = partsAll ns ++ partsAll ms := by
  induction ns with
  | nil => rfl
  | cons n ns ih =>
    show parts n ++ partsAll (ns ++ ms) = (parts n ++ partsAll ns) ++ partsAll ms
    rw [ih, List.append_assoc]

theorem partsAll_push (ns : Array Node) (n : Node) :
    partsAll (ns.push n).toList = partsAll ns.toList ++ n.parts := by
  rw [Array.toList_push, partsAll_append]
  show _ ++ (parts n ++ []) = _
  rw [List.append_nil]

theorem partsBranches_append (bs cs : List Branch) :
    partsBranches (bs ++ cs) = partsBranches bs ++ partsBranches cs := by
  induction bs with
  | nil => rfl
  | cons b bs ih =>
    obtain ⟨head, children⟩ := b
    show Part.head head :: (partsAll children ++ partsBranches (bs ++ cs)) = _
    rw [ih, ← List.append_assoc]
    rfl

theorem partsBranches_push (bs : Array Branch) (head : BranchHead) (children : List Node) :
    partsBranches (bs.push ⟨head, children⟩).toList
      = partsBranches bs.toList ++ .head head :: partsAll children := by
  rw [Array.toList_push, partsBranches_append]
  show _ ++ Part.head head :: (partsAll children ++ []) = _
  rw [List.append_nil]

end Node

/-- The parts of an open frame: its start tag or its heads, and those of its children so far. -/
def Frame.parts : Frame → List Part
  | .element e children => .mark e.startTag :: Node.partsAll children.toList
  | .block b =>
    Node.partsBranches b.done.toList ++ .head b.head :: Node.partsAll b.children.toList

theorem Frame.parts_push (f : Frame) (n : Node) : (f.push n).parts = f.parts ++ n.parts := by
  cases f with
  | element e children =>
    show Part.mark e.startTag :: Node.partsAll (children.push n).toList = _
    rw [Node.partsAll_push]
    rfl
  | block b =>
    show _ ++ Part.head b.head :: Node.partsAll (b.children.push n).toList = _
    rw [Node.partsAll_push, ← List.cons_append, ← List.append_assoc]
    rfl

/-- A frame that is closed keeps its parts, with its closing tag or closer (`Part.closing`) behind
them. -/
theorem Frame.parts_close (f : Frame) (stop : Nat) (closing : Option Span) :
    (f.close stop closing).parts = f.parts ++ Part.closing closing := by
  cases f with
  | element e children => rfl
  | block b =>
    show Node.partsBranches (b.done.push ⟨b.head, b.children.toList⟩).toList ++ _ = _
    rw [Node.partsBranches_push]
    rfl

namespace Forest

/-- The parts of a forest: those of the roots, and those of the open frames from the outermost one
on, which is the last of `frames`. -/
def parts (f : Forest) : List Part :=
  Node.partsAll f.roots.toList ++ f.frames.reverse.flatMap Frame.parts

theorem parts_cons (roots : Array Node) (inner : Frame) (outer : List Frame) :
    (⟨roots, inner :: outer⟩ : Forest).parts = (⟨roots, outer⟩ : Forest).parts ++ inner.parts := by
  simp [parts, List.append_assoc]

theorem parts_push (f : Forest) (n : Node) : (f.push n).parts = f.parts ++ n.parts := by
  obtain ⟨roots, frames⟩ := f
  cases frames with
  | nil =>
    show Node.partsAll (roots.push n).toList ++ [] = (Node.partsAll roots.toList ++ []) ++ _
    rw [Node.partsAll_push, List.append_nil, List.append_nil]
  | cons inner outer =>
    show (⟨roots, inner.push n :: outer⟩ : Forest).parts = _
    rw [parts_cons, parts_cons, Frame.parts_push, List.append_assoc]

theorem parts_openFrame (f : Forest) (frame : Frame) :
    (f.openFrame frame).parts = f.parts ++ frame.parts :=
  parts_cons f.roots frame f.frames

theorem parts_closeInnermost (f : Forest) (stop : Nat) (closing : Option Span)
    (hopen : f.frames ≠ []) :
    (f.closeInnermost stop closing).parts = f.parts ++ Part.closing closing := by
  obtain ⟨roots, frames⟩ := f
  cases frames with
  | nil => exact absurd rfl hopen
  | cons inner outer =>
    show ((⟨roots, outer⟩ : Forest).push (inner.close stop closing)).parts = _
    rw [parts_push, Frame.parts_close, parts_cons, List.append_assoc]

theorem frames_push_length (f : Forest) (n : Node) :
    (f.push n).frames.length = f.frames.length := by
  obtain ⟨roots, frames⟩ := f
  cases frames <;> rfl

theorem frames_closeInnermost_length (f : Forest) (stop : Nat) (closing : Option Span) :
    (f.closeInnermost stop closing).frames.length = f.frames.length - 1 := by
  obtain ⟨roots, frames⟩ := f
  cases frames with
  | nil => rfl
  | cons inner outer => exact frames_push_length ⟨roots, outer⟩ _

end Forest

namespace Builder

/-- `abandon` keeps all parts, by induction on how many are abandoned, as long as there are so
many. -/
theorem parts_abandon (source : String) (stop n : Nat) (b : Builder) :
    (abandon source stop n b).forest.parts = b.forest.parts
      ∧ (abandon source stop n b).forest.frames.length = b.forest.frames.length - n := by
  induction n generalizing b with
  | zero => exact ⟨rfl, rfl⟩
  | succ n ih =>
    rw [abandon]
    -- with no frame left there is nothing to close; else the innermost goes into the one around it
    cases hframes : b.forest.frames with
    | nil => simp [hframes]
    | cons inner outer =>
      let noted := (b.log (.implicitClose (inner.unclosed.on inner.opening).kind
        (inner.unclosed.on inner.opening).span.start stop)).report source
          (inner.unclosed.on inner.opening)
      obtain ⟨hparts, hlength⟩ := ih (noted.closeInnermost stop none)
      have hopen : b.forest.frames ≠ [] := by
        rw [hframes]
        exact List.cons_ne_nil _ _
      refine ⟨?_, ?_⟩
      · show (abandon source stop n (noted.closeInnermost stop none)).forest.parts = _
        rw [hparts]
        show (b.forest.closeInnermost stop none).parts = _
        rw [Forest.parts_closeInnermost _ _ _ hopen]
        exact List.append_nil _
      · show (abandon source stop n (noted.closeInnermost stop none)).forest.frames.length = _
        rw [hlength]
        show (b.forest.closeInnermost stop none).frames.length - n = _
        rw [Forest.frames_closeInnermost_length, hframes]
        simp only [List.length_cons]
        omega

theorem parts_finish (b : Builder) (source : String) (stop : Nat) :
    Node.partsAll (b.finish source stop).forest.roots.toList = b.forest.parts := by
  obtain ⟨hparts, hlength⟩ := parts_abandon source stop b.forest.frames.length b
  rw [Nat.sub_self] at hlength
  rw [← hparts]
  show _ = Node.partsAll _ ++ _
  rw [List.length_eq_zero_iff.mp hlength]
  exact (List.append_nil _).symm

theorem parts_closeBy (b : Builder) (source : String) {n : Nat} (span : Span)
    (h : n < b.forest.frames.length) :
    (b.closeBy source n span).forest.parts = b.forest.parts ++ [.mark span] := by
  obtain ⟨hparts, hlength⟩ := parts_abandon source span.start n b
  have hopen : (abandon source span.start n b).forest.frames ≠ [] := by
    intro hnil
    rw [hnil, List.length_nil] at hlength
    omega
  show ((abandon source span.start n b).forest.closeInnermost span.stop (some span)).parts = _
  rw [Forest.parts_closeInnermost _ _ _ hopen, hparts]
  rfl

theorem parts_push_error (b : Builder) (span : Span) :
    (b.push (.error span)).forest.parts = b.forest.parts ++ [.mark span] :=
  Forest.parts_push b.forest (.error span)

/-- `addEndTag` leaves the mark of the end tag, whether it closes something or is stray. -/
theorem parts_addEndTag (b : Builder) (source name : String) (span : Span) :
    (b.addEndTag source name span).forest.parts = b.forest.parts ++ [.mark span] := by
  unfold addEndTag
  split
  · rename_i n hn
    exact parts_closeBy b source span (List.findIdx?_eq_some_iff_getElem.mp hn).1
  · exact parts_push_error _ span

/-- So does a closer, in each of the cases of `Builder.addCloser`. -/
theorem parts_addCloser (b : Builder) (source : String) (kind : DirectiveKind) (span : Span) :
    (b.addCloser source kind span).forest.parts = b.forest.parts ++ [.mark span] := by
  unfold addCloser
  -- what is reported does not touch the forest
  extract_lets target problem noted
  have hforest : noted.forest = b.forest := by
    unfold noted
    split <;> rfl
  have htarget : b.forest.frames.findIdx? (·.isBlock kind) = target := rfl
  clear_value noted target
  cases target with
  | some n =>
    have hlt : n < noted.forest.frames.length := by
      rw [hforest]
      exact (List.findIdx?_eq_some_iff_getElem.mp htarget).1
    show (noted.closeBy source n span).forest.parts = _
    rw [parts_closeBy noted source span hlt, hforest]
  | none =>
    show (noted.push (.error span)).forest.parts = _
    rw [parts_push_error, hforest]

end Builder

/-! ### From pieces to parts

What a piece `Becomes` is one part, whether it is added as a node, opens a frame, goes on with a
branch, or closes something. -/

/-- The part `p` can stand for a piece in a tree. The head of a branch that belongs to nothing
leaves no more than its place, so a branch can become either. -/
def Piece.Becomes (r : Reading) : Piece → Part → Prop
  | .node n, p => n.parts = [p]
  | .startTag e, p => p = .mark e.startTag
  | .endTag _ span, p | .closer _ span, p => p = .mark span
  | .opener _ head, p => p = .head head
  | .branch word run span, p =>
    p = .mark span ∨
      p = .head ⟨Builder.keywordOf word, (Builder.branchExpression r word run span).1, none, span⟩
  | .nothing, _ => False

namespace Builder

theorem parts_addBranch (b : Builder) (r : Reading) (word : BranchWord) (run : List Token)
    (span : Span) :
    ∃ p, (Piece.branch word run span).Becomes r p
      ∧ (b.addBranch r word run span).forest.parts = b.forest.parts ++ [p] := by
  have hstray : ∀ problem : Problem,
      (b.addStrayBranch r.source problem span).forest.parts = b.forest.parts ++ [.mark span] :=
    fun problem => parts_push_error _ span
  unfold addBranch
  split
  · rename_i block outer hframes
    split
    · split
      · exact ⟨_, .inl rfl, hstray _⟩
      · -- the branch that was open so far is done, and the new head stands behind it
        refine ⟨_, .inr rfl, ?_⟩
        show (⟨b.forest.roots, .block (block.startBranch _) :: outer⟩ : Forest).parts = _
        have hforest : b.forest = ⟨b.forest.roots, .block block :: outer⟩ := by
          rw [← hframes]
        rw [hforest, Forest.parts_cons, Forest.parts_cons, List.append_assoc]
        congr 1
        show Node.partsBranches (block.done.push ⟨block.head, block.children.toList⟩).toList ++ _ = _
        rw [Node.partsBranches_push]
        rfl
    · exact ⟨_, .inl rfl, hstray _⟩
  · exact ⟨_, .inl rfl, hstray _⟩

/-- **A piece becomes one part.** Adding a piece puts one part behind all others, one that the piece
`Becomes`. -/
theorem parts_addPiece (b : Builder) (r : Reading) {piece : Piece}
    (h : ∃ p, piece.Becomes r p) :
    ∃ p, piece.Becomes r p ∧ (b.addPiece r piece).forest.parts = b.forest.parts ++ [p] := by
  cases piece with
  | node n =>
    obtain ⟨p, hp⟩ := h
    refine ⟨p, hp, ?_⟩
    show (b.forest.push n).parts = _
    rw [Forest.parts_push]
    exact congrArg _ hp
  | startTag e => exact ⟨_, rfl, Forest.parts_openFrame b.forest (.element e #[])⟩
  | endTag name span => exact ⟨_, rfl, parts_addEndTag b r.source name span⟩
  | opener kind head =>
    exact ⟨_, rfl, Forest.parts_openFrame b.forest (.block ⟨kind, #[], head, #[]⟩)⟩
  | branch word run span => exact parts_addBranch b r word run span
  | closer kind span => exact ⟨_, rfl, parts_addCloser b r.source kind span⟩
  | nothing =>
    obtain ⟨p, hp⟩ := h
    exact hp.elim

theorem parts_add (b : Builder) (r : Reading) {read : PieceRead}
    (h : ∃ p, read.piece.Becomes r p) :
    ∃ p, read.piece.Becomes r p ∧ (b.add r read).forest.parts = b.forest.parts ++ [p] :=
  parts_addPiece { b with notes := (b.notes.logAll read.events).reportAll r.source read.diagnostics }
    r h

end Builder

end RsxInspect
