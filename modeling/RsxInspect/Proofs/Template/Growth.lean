import RsxInspect.Template.Builder

/-!
# Pieces that fit

Where nothing is wrong, a run of tokens turns one builder into another, whatever it holds already
and whatever comes behind. `Builds r ts rest b c` says so for the tokens `ts` in front of `rest`.
The bricks:

* `Builds.refl` and `Builds.trans`: runs compose.
* `Builds.piece`: a piece without diagnostics that takes exactly the tokens is a run.
* `Builder.pushAll`: what runs of nodes come to, at the top (`pushAll_roots`) and in a frame
  (`pushAll_element`, `pushAll_block`).
* `addEndTag_innermost`, `addCloser_innermost` and `addBranch_innermost`: a frame that is opened
  takes the nodes behind it, and the tag or the braces that belong to it make one node of it.

Together they read whatever is written piece by piece, by induction on what was written.
-/

namespace RsxInspect

namespace OpenBlock

/-- The branches of a block that is closed now: those before, and the one that is open. -/
def branches (b : OpenBlock) : List Branch := (b.done.push ⟨b.head, b.children.toList⟩).toList

/-- A branch that `startBranch` opens stands behind all `branches`. -/
theorem branches_startBranch (b : OpenBlock) (head : BranchHead) (children : Array Node) :
    branches { b.startBranch head with children } = b.branches ++ [⟨head, children.toList⟩] := by
  unfold branches
  rw [Array.toList_push, Array.toList_push]
  show (b.done.push ⟨b.head, b.children.toList⟩).toList ++ _ = _
  rw [Array.toList_push]
  rfl

end OpenBlock

/-- Nothing to report leaves the notes as they are. -/
theorem Notes.reportAll_nil (n : Notes) (source : String) : n.reportAll source [] = n := rfl

namespace Builder

variable {r : Reading} {b c d : Builder} {t : Token} {ts us rest : List Token}

/-! ### Runs

A run is a part of the loop over pieces. It leads from one builder to another whatever was taken
before, so runs can be put one behind the other. -/

/-- In front of `rest` the tokens `ts` are read in whole pieces, which turn the builder `b` into
`c`. -/
def Builds (r : Reading) (ts rest : List Token) (b c : Builder) : Prop :=
  ∀ taken stop, ∃ stop',
    readFrom r ⟨b, taken, stop⟩ (ts ++ rest) = readFrom r ⟨c, taken + ts.length, stop'⟩ rest

/-- No tokens turn a builder into itself: `Builds` is reflexive. -/
theorem Builds.refl (r : Reading) (rest : List Token) (b : Builder) : Builds r [] rest b b :=
  fun _ stop => ⟨stop, rfl⟩

/-- Runs of `Builds` compose: what stands behind the first one is the second one and the rest. -/
theorem Builds.trans (h : Builds r ts (us ++ rest) b c) (h' : Builds r us rest c d) :
    Builds r (ts ++ us) rest b d := by
  intro taken stop
  obtain ⟨mid, hts⟩ := h taken stop
  obtain ⟨stop', hus⟩ := h' (taken + ts.length) mid
  refine ⟨stop', ?_⟩
  rw [List.append_assoc, hts, hus, List.length_append, Nat.add_assoc]

/-- A piece that nothing is wrong with is a run, if it takes these tokens in front of the rest. -/
theorem Builds.piece (piece : Piece) (ht : t.kind ≠ .templateClose)
    (h : Piece.read r t (ts ++ rest) = ⟨piece, ts.length, [], []⟩) :
    Builds r (t :: ts) rest b (b.addPiece r piece) := by
  intro taken stop
  refine ⟨endOf t (ts ++ rest) ts.length, ?_⟩
  rw [List.cons_append, readFrom, if_neg ht, h]
  dsimp only
  rw [List.drop_left, List.length_cons, Nat.add_assoc, Nat.add_comm 1]
  rfl

/-! ### Nodes in a frame

What is added while a frame is open goes into its list of children, so a frame and the nodes that
come into it can be followed as one. -/

/-- Adds nodes, the first one first. -/
def pushAll (b : Builder) (ns : List Node) : Builder := ns.foldl push b

/-- No nodes change nothing. -/
theorem pushAll_nil (b : Builder) : b.pushAll [] = b := rfl

/-- The first node is pushed first. -/
theorem pushAll_cons (b : Builder) (n : Node) (ns : List Node) :
    b.pushAll (n :: ns) = (b.push n).pushAll ns := rfl

/-- `pushAll` makes roots of nodes at the top. -/
theorem pushAll_roots (roots : Array Node) (notes : Notes) (ns : List Node) :
    (Builder.mk ⟨roots, []⟩ notes).pushAll ns = ⟨⟨(roots.toList ++ ns).toArray, []⟩, notes⟩ := by
  induction ns generalizing roots with
  | nil => simp [pushAll_nil]
  | cons n ns ih =>
    rw [pushAll_cons]
    show (Builder.mk ⟨roots.push n, []⟩ notes).pushAll ns = _
    rw [ih]
    simp

/-- Nodes in an element become its children. -/
theorem pushAll_element (b : Builder) (e : Element) (children : Array Node) (ns : List Node) :
    (b.openFrame (.element e children)).pushAll ns
      = b.openFrame (.element e (children.toList ++ ns).toArray) := by
  induction ns generalizing children with
  | nil => simp [pushAll_nil]
  | cons n ns ih =>
    rw [pushAll_cons]
    show (b.openFrame (.element e (children.push n))).pushAll ns = _
    rw [ih]
    simp

/-- Nodes in a block become the children of its last branch. -/
theorem pushAll_block (b : Builder) (block : OpenBlock) (ns : List Node) :
    (b.openFrame (.block block)).pushAll ns
      = b.openFrame (.block { block with children := (block.children.toList ++ ns).toArray }) := by
  induction ns generalizing block with
  | nil => simp [pushAll_nil]
  | cons n ns ih =>
    rw [pushAll_cons]
    show (b.openFrame (.block { block with children := block.children.push n })).pushAll ns = _
    rw [ih]
    simp

/-! ### What closes a frame

In all three the frame that is meant is the innermost one, so nothing is abandoned and nothing
reported. -/

/-- A name is the same as itself, so an end tag finds the element that it is written for. -/
theorem sameName_refl (name : String) : Vocabulary.sameName name name = true :=
  beq_self_eq_true _

/-- `addEndTag` for the innermost element makes one node of it and what is in it. -/
theorem addEndTag_innermost (b : Builder) (source : String) (e : Element) (children : Array Node)
    (span : Span) :
    (b.openFrame (.element e children)).addEndTag source e.name span
      = b.push (Frame.close (.element e children) span.stop (some span)) := by
  have hfind : (b.openFrame (.element e children)).forest.frames.findIdx? (·.isElement e.name)
      = some 0 := by
    show List.findIdx? _ (Frame.element e children :: b.forest.frames) = some 0
    rw [List.findIdx?_cons, Frame.isElement, sameName_refl]
    rfl
  rw [addEndTag, hfind]
  rfl

/-- `addCloser` for the innermost block makes one node of it, with all its branches. -/
theorem addCloser_innermost (b : Builder) (source : String) (block : OpenBlock) (span : Span) :
    (b.openFrame (.block block)).addCloser source block.kind span
      = b.push (Frame.close (.block block) span.stop (some span)) := by
  have hfind : (b.openFrame (.block block)).forest.frames.findIdx? (·.isBlock block.kind)
      = some 0 := by
    show List.findIdx? _ (Frame.block block :: b.forest.frames) = some 0
    rw [List.findIdx?_cons, Frame.isBlock, beq_self_eq_true]
    rfl
  unfold addCloser
  rw [hfind]
  rfl

/-- `addBranch` for the innermost block, if that is a choice without a last branch and nothing is
wrong with the head. -/
theorem addBranch_innermost (b : Builder) (r : Reading) {block : OpenBlock} {word : BranchWord}
    {run : List Token} {span : Span} {x : Option Expression} (hkind : block.kind = .choice)
    (helse : block.hasElse = false) (hx : branchExpression r word run span = (x, [])) :
    (b.openFrame (.block block)).addBranch r word run span
      = b.openFrame (.block (block.startBranch ⟨keywordOf word, x, none, span⟩)) := by
  simp only [addBranch, openFrame, Forest.openFrame, hkind, helse, hx]
  rfl

end Builder

end RsxInspect
