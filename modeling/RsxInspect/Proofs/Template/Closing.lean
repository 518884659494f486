import RsxInspect.Proofs.Diagnostic.Log
import RsxInspect.Proofs.Template.Steps

/-!
# What closes what

An end tag closes the innermost element of its name, and a closer the innermost block of its kind;
both are a `Closer`. Whatever is open inside of it is closed first, from the innermost frame
outwards: each frame becomes the last child of the one around it (`Frame.absorb`) and is reported
once (`Frame.neverClosed`). All else stays as it was, and if there is nothing to close, so does
everything that is open. The bricks:

* `exists_split_of_findIdx?`: the target cuts the stack of frames into those above and those below.
* `Forest.abandon_eq_absorb`: abandoning the frames above leaves the target with all of them in it.
* `Builder.closeBy_appends`: then the target itself is closed and becomes a node of the frame below,
  or a root (`Forest.Appends`).
* `closedBy_or_straysBy_endTag` and `closedBy_or_straysBy_block`: the two functions of the builder,
  each with its own diagnostics, do this or add an error node.

`Builder.closes_innermost` is both in one. It holds of every builder, so of every stack of frames,
whatever elements and blocks it mixes.
-/

namespace RsxInspect

/-- What closes frames: an end tag with a name, or the closer of a block. -/
inductive Closer where
  | endTag (name : String)
  | block (kind : DirectiveKind)

namespace Closer

/-- The `Piece` that a closer is read as, at a span. -/
def piece : Closer → Span → Piece
  | endTag name, span => .endTag name span
  | block kind, span => .closer kind span

/-- An end tag closes elements of its name, in capitals or not (`Frame.isElement`), and a closer
blocks of its kind. -/
def closes : Closer → Frame → Bool
  | endTag name, .element e _ => Vocabulary.sameName e.name name
  | block kind, .block b => b.kind == kind
  | _, _ => false

/-- The `Problem` if it closes nothing, where these frames are open, innermost first. The message of
a closer tells whether blocks of the other kind are open. -/
def stray : Closer → List Frame → Problem
  | endTag name, _ => .endTagWithoutStart name
  | block kind, inner :: _ => .closerOver kind inner.construct
  | block kind, [] => .closerAlone kind

/-- The problems with it if these frames, innermost first, stand above the one that it closes. An
end tag says nothing itself; a closer names the innermost construct that it passes. -/
def passes : Closer → List Frame → List Problem
  | block kind, inner :: _ => [.closerOver kind inner.construct]
  | _, _ => []

/-- So what is wrong is never folded with bad characters. -/
theorem stray_kind (closer : Closer) (frames : List Frame) (span : Span) :
    ((closer.stray frames).on span).kind ≠ .badCharacter := by
  cases closer <;> cases frames <;> exact DiagnosticKind.noConfusion

end Closer

namespace Frame

/-- The frame `f` when those that are open in it, outermost first, are closed at offset `stop`: each
has become the last child of the one around it. -/
def absorb (stop : Nat) (f : Frame) : List Frame → Frame
  | [] => f
  | g :: inner => f.push ((g.absorb stop inner).close stop none)

/-- The `Diagnostic` of a frame that is never closed: on the start tag of an element, on the first
head of a block. -/
def neverClosed : Frame → Diagnostic
  | element e _ => ⟨.missingTagClose, e.startTag, s!"`<{e.name}>` is never closed"⟩
  | block b => ⟨.unterminatedDirective, b.firstHead,
      s!"`{b.kind.keyword}` is missing `{b.kind.closer}`"⟩

/-- That is what `Builder.abandon` reports of it. -/
theorem neverClosed_eq (f : Frame) : f.unclosed.on f.opening = f.neverClosed := by
  cases f <;> rfl

end Frame

namespace Forest

/-- The second forest is the first one with a node more: behind the children of the innermost
element, in the last branch of the innermost block, or behind the roots. Frames below the innermost
one are untouched. -/
inductive Appends (n : Node) : Forest → Forest → Prop where
  | root (roots : Array Node) : Appends n ⟨roots, []⟩ ⟨roots.push n, []⟩
  | child (roots : Array Node) (e : Element) (children : Array Node) (outer : List Frame) :
      Appends n ⟨roots, .element e children :: outer⟩
        ⟨roots, .element e (children.push n) :: outer⟩
  | branch (roots : Array Node) (b : OpenBlock) (outer : List Frame) :
      Appends n ⟨roots, .block b :: outer⟩
        ⟨roots, .block ⟨b.kind, b.done, b.head, b.children.push n⟩ :: outer⟩

/-- Pushing a node (`Forest.push`) appends it. -/
theorem appends_push (f : Forest) (n : Node) : Appends n f (f.push n) := by
  obtain ⟨roots, frames⟩ := f
  match frames with
  | [] => exact .root roots
  | .element e children :: outer => exact .child roots e children outer
  | .block b :: outer => exact .branch roots b outer

/-- The last frame that is abandoned is closed last, so `Forest.abandon` can be unfolded at its end
as well. -/
theorem abandon_succ (f : Forest) (stop n : Nat) :
    f.abandon stop (n + 1) = (f.abandon stop n).closeInnermost stop none := by
  induction n generalizing f with
  | zero => rfl
  | succ n ih => exact ih (f.closeInnermost stop none)

/-- Frames that are abandoned go into each other, and the outermost one of them into the target
(`Frame.absorb`). By induction on the frames above, outermost first. -/
theorem abandon_eq_absorb (roots : Array Node) (above : List Frame) (target : Frame)
    (below : List Frame) (stop : Nat) :
    (⟨roots, above.reverse ++ target :: below⟩ : Forest).abandon stop above.length
      = ⟨roots, target.absorb stop above :: below⟩ := by
  induction above generalizing target below with
  | nil => rfl
  | cons g inner ih =>
    -- first those in the outermost one are abandoned, with that as their target
    rw [List.reverse_cons, List.append_assoc, List.length_cons, abandon_succ]
    show ((⟨roots, inner.reverse ++ g :: target :: below⟩ : Forest).abandon stop
      inner.length).closeInnermost stop none = _
    rw [ih]
    rfl

end Forest

/-- Where something in a list is closed, the list is cut at the first such thing: nothing in front
of it would be closed. -/
theorem exists_split_of_findIdx? {α : Type} {xs : List α} {p : α → Bool} {n : Nat}
    (h : xs.findIdx? p = some n) : ∃ front x back, xs = front ++ x :: back ∧ front.length = n ∧
      p x = true ∧ ∀ y ∈ front, p y = false := by
  obtain ⟨hn, hx, hfront⟩ := List.findIdx?_eq_some_iff_getElem.mp h
  have hlength : (xs.take n).length = n := List.length_take_of_le (Nat.le_of_lt hn)
  refine ⟨xs.take n, xs[n], xs.drop (n + 1), ?_, hlength, hx, fun y hy => ?_⟩
  · rw [List.getElem_cons_drop, List.take_append_drop]
  · obtain ⟨i, hi, rfl⟩ := List.getElem_of_mem hy
    rw [List.length_take] at hi
    rw [List.getElem_take]
    exact Bool.eq_false_iff.mpr (hfront i (by omega))

namespace Builder

variable {b c : Builder} {r : Reading} {closer : Closer} {span : Span}

/-- The closer closes the frame `target`, which goes behind the nodes in `below`, with all that is
open in it, the frames `above`, outermost first. The diagnostics come in this order: the closer
itself, then the frames above from the innermost one on. -/
structure ClosedBy (closer : Closer) (span : Span) (above : List Frame) (target : Frame)
    (below : List Frame) (b c : Builder) : Prop where
  frames : b.forest.frames = above.reverse ++ target :: below
  closes : closer.closes target = true
  innermost : ∀ frame ∈ above, closer.closes frame = false
  forest : Forest.Appends ((target.absorb span.start above).close span.stop (some span))
    ⟨b.forest.roots, below⟩ c.forest
  findings : c.notes.findings.reverse = b.notes.findings.reverse
    ++ (closer.passes above.reverse).map (·.on span) ++ above.reverse.map Frame.neverClosed

/-- There is nothing that the closer could close, so it becomes an error node, with one diagnostic
(`Closer.stray`). -/
structure StraysBy (closer : Closer) (span : Span) (b c : Builder) : Prop where
  nothing : ∀ frame ∈ b.forest.frames, closer.closes frame = false
  forest : Forest.Appends (.error span) b.forest c.forest
  findings : c.notes.findings.reverse = b.notes.findings.reverse
    ++ [(closer.stray b.forest.frames).on span]

/-- What the frames above the target become if it is closed: they are absorbed, and the target is
appended to the frame below. The notes get what `Forest.neverClosed` says of the frames above. -/
theorem closeBy_appends (b : Builder) (source : String) {above below : List Frame} {target : Frame}
    (span : Span) (hframes : b.forest.frames = above.reverse ++ target :: below) :
    Forest.Appends ((target.absorb span.start above).close span.stop (some span))
        ⟨b.forest.roots, below⟩ (b.closeBy source above.length span).forest ∧
      (b.closeBy source above.length span).notes.findings
        = (above.reverse.map Frame.neverClosed).reverse ++ b.notes.findings := by
  obtain ⟨hforest, hfindings⟩ := b.closeBy_eq source above.length span
  constructor
  · have hb : b.forest = ⟨b.forest.roots, above.reverse ++ target :: below⟩ :=
      congrArg (Forest.mk b.forest.roots) hframes
    rw [hforest, Forest.closeBy, hb, Forest.abandon_eq_absorb]
    exact Forest.appends_push ⟨b.forest.roots, below⟩ _
  · have habove : b.forest.neverClosed above.length = above.reverse.map Frame.neverClosed := by
      rw [Forest.neverClosed, hframes, ← List.length_reverse, List.take_left]
      exact List.map_congr_left fun frame _ => frame.neverClosed_eq
    rw [hfindings, habove]
    refine Findings.recordAll_of_not_bad (fun d hd => ?_) _
    obtain ⟨frame, -, rfl⟩ := List.mem_map.mp hd
    cases frame <;> exact DiagnosticKind.noConfusion

/-- `addEndTag` closes the innermost element of its name or strays. What it passes is reported, but
not the tag. -/
theorem closedBy_or_straysBy_endTag (r : Reading) (b : Builder) (name : String) (span : Span) :
    (∃ above target below,
        ClosedBy (.endTag name) span above target below b (b.addEndTag r.source name span)) ∨
      StraysBy (.endTag name) span b (b.addEndTag r.source name span) := by
  have hcloses : ∀ frame : Frame, (Closer.endTag name).closes frame = frame.isElement name := by
    intro frame
    cases frame <;> rfl
  unfold addEndTag
  -- found, the target splits the frames; not found, the tag strays and no frame is touched
  split
  · rename_i n hn
    obtain ⟨inner, target, below, hframes, rfl, htarget, hinner⟩ :=
      exists_split_of_findIdx? hn
    rw [← inner.reverse_reverse] at hframes
    obtain ⟨hforest, hfindings⟩ := b.closeBy_appends r.source span hframes
    rw [List.length_reverse] at hforest hfindings
    refine .inl ⟨inner.reverse, target, below, hframes, (hcloses target).trans htarget,
      fun frame hframe => ?_, hforest, ?_⟩
    · exact (hcloses frame).trans (hinner frame (List.mem_reverse.mp hframe))
    · rw [hfindings]
      simp [Closer.passes]
  · rename_i hnone
    refine .inr ⟨fun frame hframe => ?_, Forest.appends_push b.forest _, ?_⟩
    · exact (hcloses frame).trans (List.findIdx?_eq_none_iff.mp hnone frame hframe)
    · have hrecord : b.notes.findings.record r.source
          (((Closer.endTag name).stray b.forest.frames).on span) = _ :=
        Findings.record_of_not_bad ((Closer.endTag name).stray_kind b.forest.frames span) _
      exact (congrArg List.reverse hrecord).trans List.reverse_cons

/-- `addCloser` closes the innermost block of its kind or strays. Here the closer is reported as
well if frames stand above the block. -/
theorem closedBy_or_straysBy_block (r : Reading) (b : Builder) (kind : DirectiveKind)
    (span : Span) :
    (∃ above target below,
        ClosedBy (.block kind) span above target below b (b.addCloser r.source kind span)) ∨
      StraysBy (.block kind) span b (b.addCloser r.source kind span) := by
  have hcloses : ∀ frame : Frame, (Closer.block kind).closes frame = frame.isBlock kind := by
    intro frame
    cases frame <;> rfl
  cases htarget : b.forest.frames.findIdx? (·.isBlock kind) with
  | none =>
    -- what is wrong is read off the innermost frame
    have hadd : b.addCloser r.source kind span
        = ((b.log (.mismatchedClose kind span.start false)).report r.source
          (((Closer.block kind).stray b.forest.frames).on span)).push (.error span) := by
      unfold addCloser
      rw [htarget]
      cases b.forest.frames <;> rfl
    refine .inr ⟨fun frame hframe => ?_, ?_, ?_⟩
    · exact (hcloses frame).trans (List.findIdx?_eq_none_iff.mp htarget frame hframe)
    · rw [hadd]
      exact Forest.appends_push b.forest _
    · have hrecord : b.notes.findings.record r.source
          (((Closer.block kind).stray b.forest.frames).on span) = _ :=
        Findings.record_of_not_bad ((Closer.block kind).stray_kind b.forest.frames span) _
      rw [hadd]
      exact (congrArg List.reverse hrecord).trans List.reverse_cons
  | some n =>
    obtain ⟨inner, target, below, hframes, rfl, hblock, hinner⟩ :=
      exists_split_of_findIdx? htarget
    rw [← inner.reverse_reverse] at hframes
    -- the closer is reported first, if it is not the innermost frame that it closes
    obtain ⟨noted, hforest, hfindings, hadd⟩ : ∃ noted : Builder, noted.forest = b.forest ∧
        noted.notes.findings
          = ((Closer.block kind).passes inner).map (·.on span) ++ b.notes.findings ∧
        b.addCloser r.source kind span = noted.closeBy r.source inner.length span := by
      cases inner with
      | nil =>
        refine ⟨b, rfl, rfl, ?_⟩
        unfold addCloser
        rw [htarget]
        rfl
      | cons frame inner =>
        refine ⟨(b.log (.mismatchedClose kind span.start true)).report r.source
          ((Problem.closerOver kind frame.construct).on span), rfl,
          Findings.record_of_not_bad ((Closer.block kind).stray_kind [frame] span) _, ?_⟩
        rw [List.reverse_reverse] at hframes
        unfold addCloser
        rw [htarget, hframes]
        rfl
    obtain ⟨happends, hclosed⟩ := noted.closeBy_appends r.source span (hforest ▸ hframes)
    rw [List.length_reverse] at happends hclosed
    refine .inl ⟨inner.reverse, target, below, hframes, (hcloses target).trans hblock,
      fun frame hframe => ?_, ?_, ?_⟩
    · exact (hcloses frame).trans (hinner frame (List.mem_reverse.mp hframe))
    · rw [hadd, ← hforest]
      exact happends
    · rw [hadd, hclosed, hfindings]
      cases inner <;> simp [Closer.passes]

/-- **What closes what.** Whatever is open, an end tag or the closer of a block closes the innermost
frame that it can close and all that is open in that (`ClosedBy`), or nothing if there is no such
frame (`StraysBy`). -/
theorem closes_innermost (r : Reading) (b : Builder) (closer : Closer) (span : Span) :
    (∃ above target below,
        ClosedBy closer span above target below b (b.addPiece r (closer.piece span))) ∨
      StraysBy closer span b (b.addPiece r (closer.piece span)) := by
  cases closer with
  | endTag name => exact closedBy_or_straysBy_endTag r b name span
  | block kind => exact closedBy_or_straysBy_block r b kind span

end Builder

end RsxInspect
