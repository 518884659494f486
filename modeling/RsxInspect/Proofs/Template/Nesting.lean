import RsxInspect.Proofs.Template.Lossless
import RsxInspect.Proofs.Template.Ordered
import RsxInspect.Proofs.Template.StartTag
import RsxInspect.Proofs.Template.Steps

/-!
# Nodes in their places

A node is nested if what it is made of stands in it in order: the attributes of an element in its
start tag, its children between its tags, and the heads and children of a block between its first
head and its closer (`Element.Nested`, `Directive.Nested`). The bricks:

* `Frame.NestedTo`: a frame is nested up to an offset if it would be nested when it is closed there.
  What is pushed to it moves the offset on (`NestedTo.push`, `NestedTo.startBranch`).
* `Forest.NestedTo`: so is a forest under construction, each frame up to the one in it (`OpenTo`).
* `Piece.NestedAt`: a piece stands where its tokens stand (`Piece.read_nestedAt`).

Frames that are abandoned end where the next piece starts, or where the last one ended, so each kind
of step keeps the forest nested (`Forest.Adds.nested`).
-/

namespace RsxInspect

open RsxInspect.Span (Ordered)

/-- An element stands around its children, and its start tag around its attributes: start tag,
children and end tag are in order in the span of the element. -/
structure Element.Nested (e : Element) (children : List Node) : Prop where
  start : e.span.start = e.startTag.start
  startTag : e.startTag.start < e.startTag.stop
  stop : ∀ s, e.endTag = some s → s.start < s.stop ∧ s.stop = e.span.stop
  children : Ordered e.startTag.stop (children.map Node.span)
    ((e.endTag.map Span.start).getD e.span.stop)
  attributes : Ordered e.startTag.start (e.attributes.map Attribute.span) e.startTag.stop
  values : ∀ a ∈ e.attributes, ∀ v, a.value = some v → a.span.Encloses v.span

/-- The heads of some branches, each in front of its children. -/
def Branch.spans (branches : List Branch) : List Span :=
  branches.flatMap fun b => b.head.span :: b.children.map Node.span

/-- A block stands around its heads and their children (`Branch.spans`), from the first head on. -/
structure Directive.Nested (d : Directive) (branches : List Branch) : Prop where
  start : branches.head?.map (·.head.span.start) = some d.span.start
  stop : ∀ s, d.closing = some s → s.start < s.stop ∧ s.stop = d.span.stop
  branches : Ordered d.span.start (Branch.spans branches)
    ((d.closing.map Span.start).getD d.span.stop)

/-- The children of all branches are a part of the row of heads and children. -/
theorem Branch.sublist_spans (branches : List Branch) :
    ((branches.flatMap Branch.children).map Node.span).Sublist (Branch.spans branches) := by
  rw [List.map_flatMap]
  unfold Branch.spans
  induction branches with
  | nil => exact .slnil
  | cons b branches ih =>
    rw [List.flatMap_cons, List.flatMap_cons]
    exact (List.sublist_cons_self ..).append ih

/-- Where the content of a node ends: at what closes it, or at its end. -/
theorem closing_start_le {closing : Option Span} {stop : Nat}
    (h : ∀ s, closing = some s → s.start < s.stop ∧ s.stop = stop) :
    (closing.map Span.start).getD stop ≤ stop := by
  cases closing with
  | none => exact Nat.le_refl _
  | some s =>
    obtain ⟨hs, hstop⟩ := h s rfl
    exact Nat.le_trans (Nat.le_of_lt hs) (Nat.le_of_eq hstop)

namespace Node

/-- What a node is made of stands in it in order. Text, interpolations and errors are made of
nothing. -/
def Nested : Node → Prop
  | element e children => e.Nested children
  | directive d branches => d.Nested branches
  | _ => True

/-- The children of a `Nested` node stand in it in order behind its first byte, those of all
branches included. -/
theorem Nested.ordered {n : Node} (h : n.Nested) (hspan : n.span.start < n.span.stop) :
    Ordered (n.span.start + 1) (n.children.map span) n.span.stop := by
  cases n with
  | element e children =>
    obtain ⟨hstart, htag, hstop, hchildren, -, -⟩ : e.Nested children := h
    refine (hchildren.mono (closing_start_le hstop)).mono_left ?_
    show e.span.start + 1 ≤ e.startTag.stop
    rw [hstart]
    exact htag
  | directive d branches =>
    obtain ⟨hstart, hstop, hbranches⟩ : d.Nested branches := h
    cases branches with
    | nil => cases hstart
    | cons first branches =>
      -- the first head stands in front of all children
      obtain ⟨hfirst, hhead, hrest⟩ := hbranches
      have hchildren : (Node.directive d (first :: branches)).children.map span
          = first.children.map span ++ (branches.flatMap Branch.children).map span := by
        rw [← List.map_append]
        rfl
      rw [hchildren]
      refine (Ordered.mono (hrest.sublist ?_) (closing_start_le hstop)).mono_left ?_
      · exact (List.Sublist.refl _).append (Branch.sublist_spans branches)
      · exact Nat.lt_of_le_of_lt hfirst hhead
  | _ => exact hspan

end Node

/-! ### Frames

A frame is not a node yet, since its end is not known. What is said of it is said of all that it may
become. -/

/-- The rows of two lists of branches, one after the other. -/
theorem Branch.spans_append (bs cs : List Branch) : spans (bs ++ cs) = spans bs ++ spans cs :=
  List.flatMap_append

/-- The `branches` of an open block: those that are done and the one that is open. -/
theorem OpenBlock.branches_eq (b : OpenBlock) :
    b.branches = b.done.toList ++ [⟨b.head, b.children.toList⟩] :=
  Array.toList_push

/-- So its row ends with the open head and the children behind it. -/
theorem OpenBlock.spans_branches (b : OpenBlock) :
    Branch.spans b.branches
      = Branch.spans b.done.toList ++ b.head.span :: b.children.toList.map Node.span := by
  rw [branches_eq, Branch.spans_append]
  exact congrArg _ (List.append_nil _)

/-- The first head of a block is that of its first branch, done or open. -/
theorem OpenBlock.head?_branches (b : OpenBlock) :
    b.branches.head?.map (·.head.span.start) = some b.firstHead.start := by
  rw [branches_eq]
  unfold firstHead
  rw [← Array.getElem?_toList]
  cases b.done.toList with
  | nil => rfl
  | cons first done => rfl

/-- A further branch leaves the first head where it is. -/
theorem OpenBlock.firstHead_startBranch (b : OpenBlock) (head : BranchHead) :
    (b.startBranch head).firstHead = b.firstHead := by
  unfold startBranch firstHead
  rw [← Array.getElem?_toList, ← Array.getElem?_toList, Array.toList_push]
  cases b.done.toList <;> rfl

namespace Frame

/-- Closed at the offset without a closer, the frame would be a nested node. -/
def NestedTo (f : Frame) (stop : Nat) : Prop := (f.close stop none).Nested

/-- Where a frame starts, however it is closed: at its start tag or at its first head. -/
def start (f : Frame) : Nat := (f.close 0 none).span.start

variable {f : Frame} {a b : Nat}

/-- The span of what `close` gives runs from there to where it is closed. -/
theorem span_close (f : Frame) (stop : Nat) (closing : Option Span) :
    (f.close stop closing).span = ⟨f.start, stop⟩ := by
  cases f <;> rfl

/-- A frame that is `NestedTo` an offset could be closed later as well. -/
theorem NestedTo.mono (h : f.NestedTo a) (hb : a ≤ b) : f.NestedTo b := by
  cases f with
  | element e children =>
    obtain ⟨hstart, htag, hstop, hchildren, hattributes, hvalues⟩ := h
    exact ⟨hstart, htag, fun s hs => (nomatch hs), hchildren.mono hb, hattributes, hvalues⟩
  | block block =>
    obtain ⟨hstart, hstop, hbranches⟩ := h
    exact ⟨hstart, fun s hs => (nomatch hs), hbranches.mono hb⟩

/-- What closes a frame stands behind all that is in it, so the node is nested with its closer
too. -/
theorem NestedTo.close {s : Span} (h : f.NestedTo s.start) (hs : s.start < s.stop) :
    (f.close s.stop (some s)).Nested := by
  have hclosing : ∀ t, some s = some t → t.start < t.stop ∧ t.stop = s.stop := by
    intro t ht
    cases ht
    exact ⟨hs, rfl⟩
  cases f with
  | element e children =>
    obtain ⟨hstart, htag, hstop, hchildren, hattributes, hvalues⟩ := h
    exact ⟨hstart, htag, hclosing, hchildren, hattributes, hvalues⟩
  | block block =>
    obtain ⟨hstart, hstop, hbranches⟩ := h
    exact ⟨hstart, hclosing, hbranches⟩

/-- A node that starts where the frame could be closed joins it, and the frame could be closed
behind the node. -/
theorem NestedTo.push {n : Node} (h : f.NestedTo n.span.start) (hn : n.span.start < n.span.stop) :
    (f.push n).NestedTo n.span.stop := by
  -- both kinds of frame put the node behind their last child, and it starts where they ended
  cases f with
  | element e children =>
    obtain ⟨hstart, htag, hstop, hchildren, hattributes, hvalues⟩ := h
    refine ⟨hstart, htag, fun s hs => (nomatch hs), ?_, hattributes, hvalues⟩
    show Ordered e.startTag.stop ((children.push n).toList.map Node.span) n.span.stop
    rw [Array.toList_push, List.map_append]
    exact Ordered.push hchildren hn
  | block block =>
    obtain ⟨hstart, hstop, hbranches⟩ := h
    have hpushed : ({ block with children := block.children.push n } : OpenBlock).branches
        = block.done.toList ++ [⟨block.head, block.children.toList ++ [n]⟩] := by
      rw [OpenBlock.branches_eq, Array.toList_push]
    refine ⟨?_, fun s hs => (nomatch hs), ?_⟩
    · exact OpenBlock.head?_branches { block with children := block.children.push n }
    · show Ordered block.firstHead.start
        (Branch.spans ({ block with children := block.children.push n } : OpenBlock).branches) _
      have hspans : Ordered block.firstHead.start (Branch.spans block.branches) n.span.start :=
        hbranches
      rw [OpenBlock.spans_branches] at hspans ⊢
      rw [Array.toList_push, List.map_append, ← List.cons_append, ← List.append_assoc]
      exact Ordered.push hspans hn

/-- A nested frame takes some bytes, since a start tag and a head do. -/
theorem NestedTo.start_lt (h : f.NestedTo b) : f.start < b := by
  cases f with
  | element e children =>
    obtain ⟨hstart, htag, -, hchildren, -, -⟩ := h
    show e.span.start < b
    exact Nat.lt_of_le_of_lt (Nat.le_of_eq hstart) (Nat.lt_of_lt_of_le htag hchildren.le)
  | block block =>
    obtain ⟨-, -, hbranches⟩ := h
    have hspans : Ordered block.firstHead.start (Branch.spans block.branches) b := hbranches
    show block.firstHead.start < b
    have hmem : block.head.span ∈ Branch.spans block.branches := by
      rw [OpenBlock.spans_branches]
      exact List.mem_append_right _ (List.mem_cons_self ..)
    obtain ⟨hle, hlt, hstop⟩ := hspans.mem hmem
    omega

/-- A further branch of a block moves the offset behind its head. -/
theorem NestedTo.startBranch {block : OpenBlock} {head : BranchHead}
    (h : (Frame.block block).NestedTo head.span.start) (hhead : head.span.start < head.span.stop) :
    (Frame.block (block.startBranch head)).NestedTo head.span.stop := by
  obtain ⟨-, -, hbranches⟩ := h
  have hspans : Ordered block.firstHead.start (Branch.spans block.branches) head.span.start :=
    hbranches
  refine ⟨OpenBlock.head?_branches _, fun s hs => (nomatch hs), ?_⟩
  show Ordered (block.startBranch head).firstHead.start
    (Branch.spans (block.startBranch head).branches) head.span.stop
  rw [OpenBlock.firstHead_startBranch, OpenBlock.spans_branches]
  exact Ordered.push hspans hhead

/-- A start tag on its own is nested up to its end, with nothing in it. -/
theorem nestedTo_startTag {e : Element} (h : e.Nested []) :
    (Frame.element e #[]).NestedTo e.startTag.stop :=
  ⟨h.start, h.startTag, fun _ hs => (nomatch hs), Nat.le_refl _, h.attributes, h.values⟩

/-- So is a head. -/
theorem nestedTo_head (kind : DirectiveKind) {head : BranchHead}
    (h : head.span.start < head.span.stop) :
    (Frame.block ⟨kind, #[], head, #[]⟩).NestedTo head.span.stop :=
  ⟨rfl, fun _ hs => (nomatch hs), Nat.le_refl _, h, Nat.le_refl _⟩

end Frame

/-! ### Forests

The roots come first, then the frames from the outermost to the innermost, in which the next piece
stands. -/

namespace Forest

/-- The open frames are nested, each one up to the start of the frame in it, and the roots stand in
order in front of the outermost. The recursion is on the frames, the innermost first. -/
def OpenTo (roots : List Node) (a : Nat) : List Frame → Nat → Prop
  | [], b => Ordered a (roots.map Node.span) b
  | inner :: outer, b => inner.NestedTo b ∧ OpenTo roots a outer inner.start

/-- All that is complete in a forest is nested, and what is open is so between the two offsets. -/
structure NestedTo (f : Forest) (a b : Nat) : Prop where
  nodes : ∀ n ∈ f.nodes, n.Nested
  frames : OpenTo f.roots.toList a f.frames b

variable {f : Forest} {a b : Nat}

/-- The next piece may stand further behind. -/
theorem NestedTo.mono {c : Nat} (h : f.NestedTo a b) (hc : b ≤ c) : f.NestedTo a c := by
  refine ⟨h.nodes, ?_⟩
  have hframes := h.frames
  cases hcase : f.frames with
  | nil =>
    rw [hcase] at hframes
    exact Ordered.mono hframes hc
  | cons inner outer =>
    rw [hcase] at hframes
    exact ⟨hframes.1.mono hc, hframes.2⟩

/-- A nested node joins the innermost frame, or the roots if none is open. -/
theorem NestedTo.push {n : Node} (h : f.NestedTo a n.span.start) (hn : n.span.start < n.span.stop)
    (hnested : ∀ m ∈ n.subtree, m.Nested) : (f.push n).NestedTo a n.span.stop := by
  refine ⟨fun m hm => ?_, ?_⟩
  · rcases List.mem_append.mp ((f.nodes_push n).mem_iff.mp hm) with hm | hm
    · exact hnested m hm
    · exact h.nodes m hm
  · have hframes := h.frames
    obtain ⟨roots, frames⟩ := f
    cases frames with
    | nil =>
      show Ordered a ((roots.push n).toList.map Node.span) n.span.stop
      rw [Array.toList_push, List.map_append]
      exact Ordered.push hframes hn
    | cons inner outer =>
      -- the innermost frame takes the node, and starts where it did
      have hstart : (inner.push n).start = inner.start := by
        cases inner <;> rfl
      show (inner.push n).NestedTo n.span.stop ∧ OpenTo roots.toList a outer (inner.push n).start
      rw [hstart]
      exact ⟨hframes.1.push hn, hframes.2⟩

/-- A frame that is opened starts where the forest ended. -/
theorem NestedTo.openFrame {frame : Frame} (h : f.NestedTo a frame.start)
    (hframe : frame.NestedTo b) (hempty : frame.children = []) : (f.openFrame frame).NestedTo a b := by
  refine ⟨fun n hn => ?_, hframe, h.frames⟩
  rw [f.nodes_openFrame hempty] at hn
  exact h.nodes n hn

/-- A frame that is closed becomes a node that what is around it takes up, at whatever offset it may
be closed. -/
theorem NestedTo.closeWith {inner : Frame} {outer : List Frame} {stop : Nat}
    {closing : Option Span} (h : f.NestedTo a b) (hframes : f.frames = inner :: outer)
    (hnested : (inner.close stop closing).Nested) (hstop : inner.start < stop) :
    (f.closeInnermost stop closing).NestedTo a stop := by
  have hopen := h.frames
  rw [hframes] at hopen
  have hnodes := f.nodes_closeInnermost hframes stop closing
  obtain ⟨roots, frames⟩ := f
  obtain rfl : frames = inner :: outer := hframes
  have hspan := inner.span_close stop closing
  -- without the innermost frame the forest is nested up to where that starts
  have houter : (⟨roots, outer⟩ : Forest).NestedTo a (inner.close stop closing).span.start := by
    rw [hspan]
    refine ⟨fun n hn => h.nodes n ?_, hopen.2⟩
    rcases List.mem_append.mp hn with hn | hn
    · exact List.mem_append_left _ hn
    · exact List.mem_append_right _ (List.mem_append_right _ hn)
  have hpush := houter.push (by rw [hspan]; exact hstop) ?_
  · rw [hspan] at hpush
    exact hpush
  · intro m hm
    rw [Frame.subtree_close] at hm
    rcases List.mem_cons.mp hm with rfl | hm
    · exact hnested
    · exact h.nodes m (List.mem_append_right _ (List.mem_append_left _ hm))

/-- A frame that `closeInnermost` abandons ends where the offset says, which is where the forest
ended or later. -/
theorem NestedTo.closeInnermost (h : f.NestedTo a b) {stop : Nat} (hstop : b ≤ stop) :
    (f.closeInnermost stop none).NestedTo a stop := by
  cases hframes : f.frames with
  | nil =>
    rw [Forest.closeInnermost, hframes]
    exact h.mono hstop
  | cons inner outer =>
    have hopen := h.frames
    rw [hframes] at hopen
    exact h.closeWith hframes (hopen.1.mono hstop) (Nat.lt_of_lt_of_le hopen.1.start_lt hstop)

/-- So do those that `abandon` closes, by induction on the number. -/
theorem NestedTo.abandon (h : f.NestedTo a b) {stop : Nat} (hstop : b ≤ stop) (n : Nat) :
    (f.abandon stop n).NestedTo a stop := by
  -- from the second frame on, what is in a frame ends at the same offset
  induction n generalizing f b with
  | zero => exact h.mono hstop
  | succ n ih => exact ih (h.closeInnermost hstop) (Nat.le_refl _)

/-- `closeBy` abandons the frames inside at the start of the span and closes the one it is for at
its end. -/
theorem NestedTo.closeBy {s : Span} (h : f.NestedTo a s.start) (hs : s.start < s.stop) {n : Nat}
    {p : Frame → Bool} (htarget : f.frames.findIdx? p = some n) :
    (f.closeBy n s).NestedTo a s.stop := by
  have habandon := h.abandon (Nat.le_refl _) n
  obtain ⟨inner, outer, hframes⟩ := exists_target htarget s.start
  have hopen := habandon.frames
  rw [hframes] at hopen
  exact habandon.closeWith hframes (hopen.1.close hs) (Nat.lt_trans hopen.1.start_lt hs)

end Forest

/-- The piece stands in the place `s`. A node or an element that it becomes is nested and has
nothing in it yet. -/
def Piece.NestedAt (s : Span) : Piece → Prop
  | .node n => n.span = s ∧ n.Nested ∧ n.children = []
  | .startTag e => e.span = s ∧ e.startTag = s ∧ e.Nested []
  | .opener _ head => head.span = s
  | .endTag _ span | .closer _ span | .branch _ _ span => span = s
  | .nothing => False

/-- **Every step keeps a forest nested**, whatever the piece is added to. -/
theorem Forest.Adds.nested {r : Reading} {f f' : Forest} {piece : Piece} {ds : List Diagnostic}
    {a : Nat} {s : Span} (h : f.Adds r piece f' ds) (hf : f.NestedTo a s.start)
    (hs : s.start < s.stop) (hpiece : piece.NestedAt s) : f'.NestedTo a s.stop := by
  -- an error node in the place of the piece
  have herror : (f.push (.error s)).NestedTo a s.stop := by
    refine hf.push hs fun m hm => ?_
    rw [List.mem_singleton.mp hm]
    trivial
  cases h with
  | node n =>
    obtain ⟨rfl, hnested, hchildren⟩ := hpiece
    refine hf.push hs fun m hm => ?_
    rw [Node.subtree_eq, hchildren] at hm
    rw [List.mem_singleton.mp hm]
    exact hnested
  | startTag e =>
    obtain ⟨hspan, rfl, hnested⟩ := hpiece
    have hstart : (Frame.element e #[]).start = e.startTag.start := hnested.start
    exact NestedTo.openFrame (hstart ▸ hf) (Frame.nestedTo_startTag hnested) rfl
  | opener kind head =>
    obtain rfl : head.span = s := hpiece
    have hempty : (Frame.block ⟨kind, #[], head, #[]⟩).children = [] := rfl
    exact NestedTo.openFrame hf (Frame.nestedTo_head kind hs) hempty
  | @branch word run span block outer hframes hkind =>
    obtain rfl : span = s := hpiece
    have hopen := hf.frames
    rw [hframes] at hopen
    refine ⟨fun n hn => ?_, ?_⟩
    · rw [nodes_startBranch hframes] at hn
      exact hf.nodes n hn
    · let head : BranchHead :=
        ⟨Builder.keywordOf word, (Builder.branchExpression r word run span).1, none, span⟩
      have hstart : (Frame.block (block.startBranch head)).start = (Frame.block block).start := by
        show (block.startBranch head).firstHead.start = block.firstHead.start
        rw [OpenBlock.firstHead_startBranch]
      refine ⟨Frame.NestedTo.startBranch hopen.1 hs, ?_⟩
      show OpenTo f.roots.toList a outer (Frame.block (block.startBranch head)).start
      rw [hstart]
      exact hopen.2
  | endTag htarget =>
    cases hpiece
    exact hf.closeBy hs htarget
  | closer htarget =>
    cases hpiece
    exact hf.closeBy hs htarget
  | closerOver innermost htarget =>
    cases hpiece
    exact hf.closeBy hs htarget
  | strayEndTag =>
    cases hpiece
    exact herror
  | strayBranch =>
    cases hpiece
    exact herror
  | strayCloser =>
    cases hpiece
    exact herror

/-! ### Pieces

Tokens stand in order, so what is read from a front of them does, too. -/

/-- The span of what `AttributeValue.ofToken` gives is that of the token. -/
theorem AttributeValue.span_ofToken (r : Reading) (t : Token) :
    (AttributeValue.ofToken r t).1.span = t.span := by
  unfold ofToken
  dsimp only
  split <;> rfl

/-- An attribute stands where its tokens stand (`AttributeTokens`), and its value in it behind the
name. -/
theorem AttributeTokens.ordered {r : Reading} {ts : List Token} {x : Attribute}
    {ds : List Diagnostic} {a b : Nat} (h : AttributeTokens r ts x ds)
    (hts : Ordered a (ts.map Token.span) b) :
    Ordered a [x.span] b ∧ ∀ v, x.value = some v → x.span.Encloses v.span := by
  cases h with
  | bare ht => exact ⟨hts, fun v hv => (nomatch hv)⟩
  | @unvalued t equals ht hequals =>
    obtain ⟨ha, ht, hgap, hequals, hb⟩ := hts
    have hb : equals.span.stop ≤ b := hb
    refine ⟨⟨?_, ?_, ?_⟩, fun v hv => (nomatch hv)⟩ <;> simp only [Span.cover, Ordered] <;> omega
  | @valued t equals v ht hequals hv =>
    obtain ⟨ha, ht, hgap, hequals, hgap', hv, hb⟩ := hts
    have hb : v.span.stop ≤ b := hb
    refine ⟨?_, fun w hw => ?_⟩
    · refine ⟨?_, ?_, ?_⟩ <;> simp only [Span.cover, Ordered] <;> omega
    · cases hw
      rw [AttributeValue.span_ofToken]
      simp only [Span.Encloses, Span.cover]
      omega

/-- The attributes of a start tag are in order among its tokens, by induction on `TagTokens`. -/
theorem TagTokens.ordered {r : Reading} {ts : List Token} {as : List Attribute}
    {last : Option TokenKind} {ds : List Diagnostic} {a b : Nat} (h : TagTokens r ts as last ds)
    (hts : Ordered a (ts.map Token.span) b) :
    Ordered a (as.map Attribute.span) b ∧
      ∀ x ∈ as, ∀ v, x.value = some v → x.span.Encloses v.span := by
  induction h generalizing a with
  | unended => exact ⟨hts, fun x hx => (nomatch hx)⟩
  | ended ht => exact ⟨Ordered.le hts, fun x hx => (nomatch hx)⟩
  | attr hx rest ih =>
    rw [List.map_append] at hts
    obtain ⟨c, hus, hrest⟩ := Ordered.append_iff.mp hts
    obtain ⟨hspan, hvalue⟩ := hx.ordered hus
    obtain ⟨hspans, hvalues⟩ := ih hrest
    refine ⟨Ordered.append_iff.mpr ⟨c, hspan, hspans⟩, ?_⟩
    exact List.forall_mem_cons.mpr ⟨hvalue, hvalues⟩
  | bad ht rest ih =>
    exact ih (hts.2.2.mono_left (Nat.le_trans hts.1 (Nat.le_of_lt hts.2.1)))
  | stray htag hself hclose rest ih =>
    exact ih (hts.2.2.mono_left (Nat.le_trans hts.1 (Nat.le_of_lt hts.2.1)))

section Pieces

variable (r : Reading) {first : Token} {ts : List Token} {source : String} {a b : Nat}

/-- An error node is `NestedAt` its place. -/
theorem Piece.nestedAt_error (s : Span) : (Piece.node (.error s)).NestedAt s :=
  ⟨rfl, trivial, rfl⟩

/-- What `readStartTag` gives starts with its tag, and the tag holds its attributes in order. -/
theorem readStartTag_nestedAt (hle : (readStartTag r first ts).taken ≤ ts.length)
    (hspaced : Spaced source a ((first :: ts).map Token.span) b) :
    (readStartTag r first ts).piece.NestedAt (spanOf first ts (readStartTag r first ts).taken) := by
  rcases readStartTag_cases r first ts with
    ⟨hpiece, -⟩ | ⟨name, us, as, last, ds, htake, -, -, htokens, hpiece, -⟩
  · rw [hpiece]
    exact Piece.nestedAt_error _
  · have hspan := (hspaced.group hle).ordered.2.1
    have htag := hspaced.ordered_take hle
    rw [htake] at htag
    obtain ⟨hattributes, hvalues⟩ := htokens.ordered htag.2.2
    -- the attributes stand behind the name
    have hbehind : first.span.start ≤ name.span.stop := by
      have hfirst := hspaced.ordered.2.1
      have hname := htag.1
      have hname' := htag.2.1
      omega
    rw [hpiece]
    generalize hspan' : spanOf first ts (readStartTag r first ts).taken = span at hspan ⊢
    subst hspan'
    have hnested : Element.Nested ⟨r.textOf name, as, spanOf first ts (readStartTag r first ts).taken,
        none, last == some .selfClose, spanOf first ts (readStartTag r first ts).taken⟩ [] :=
      ⟨rfl, hspan, fun s hs => (nomatch hs), Nat.le_refl _, hattributes.mono_left hbehind, hvalues⟩
    dsimp only
    split
    · exact ⟨rfl, hnested, rfl⟩
    · exact ⟨rfl, rfl, hnested⟩

/-- What `readEndTag` gives has no more than its span. -/
theorem readEndTag_nestedAt :
    (readEndTag r first ts).piece.NestedAt (spanOf first ts (readEndTag r first ts).taken) := by
  unfold readEndTag
  cases ts.head?.filter (·.kind == .tagName) with
  | none => exact Piece.nestedAt_error _
  | some name => exact rfl

/-- What `readBraces` takes becomes a node without children, a head, or a closer, on the span of the
braces. -/
theorem readBraces_nestedAt :
    (readBraces r first ts).piece.NestedAt (spanOf first ts (readBraces r first ts).taken) := by
  have hinterpolation : ∀ skip raw, (readInterpolation r first ts skip raw).piece.NestedAt
      (spanOf first ts (readInterpolation r first ts skip raw).taken) :=
    fun skip raw => ⟨rfl, trivial, rfl⟩
  have hopener : ∀ keyword kind, (readOpener r first ts keyword kind).piece.NestedAt
      (spanOf first ts (readOpener r first ts keyword kind).taken) := by
    intro keyword kind
    cases kind <;> rfl
  unfold readBraces
  split
  · exact hopener _ _
  · exact hopener _ _
  · rfl
  · rfl
  · rfl
  · rfl
  · exact hinterpolation _ _
  · exact hinterpolation _ _

/-- What `readText` gives is one node from its first to its last token. -/
theorem readText_nestedAt (hle : (readText r first ts).taken ≤ ts.length)
    (hspaced : Spaced source a ((first :: ts).map Token.span) b) :
    (readText r first ts).piece.NestedAt (spanOf first ts (readText r first ts).taken) := by
  refine ⟨?_, trivial, rfl⟩
  -- the span of the text is that of its tokens
  obtain ⟨u, v, hu, hv, hplace⟩ := ((readText_standsFor r first hspaced).readFrom _ rfl).place
  obtain ⟨u', v', hu', hv', hspan⟩ := place_spanOf first hle
  cases hu.symm.trans hu'
  cases hv.symm.trans hv'
  rw [hspan]
  exact hplace

/-- **Every piece stands where its tokens stand.** The cases are those of `Piece.read`. -/
theorem Piece.read_nestedAt (htrace : Trace .template (first :: ts))
    (hfirst : first.kind ≠ .templateClose)
    (hspaced : Spaced source a ((first :: ts).map Token.span) b) :
    (Piece.read r first ts).piece.NestedAt (spanOf first ts (Piece.read r first ts).taken) := by
  have hle := (Piece.read_stops r htrace hfirst).1
  rcases htrace.piece_cases hfirst with
    ⟨hkind, -⟩ | ⟨hkind, -⟩ | ⟨hkind, -⟩ | ⟨hkind, -⟩ | ⟨hkind, -⟩
  · rw [Piece.read, hkind]
    exact ⟨rfl, trivial, rfl⟩
  · rw [Piece.read, hkind] at hle ⊢
    exact readText_nestedAt r hle hspaced
  · rw [Piece.read, hkind] at hle ⊢
    exact readStartTag_nestedAt r hle hspaced
  · rw [Piece.read, hkind]
    exact readEndTag_nestedAt r
  · rw [Piece.read, hkind]
    exact readBraces_nestedAt r

end Pieces

end RsxInspect
