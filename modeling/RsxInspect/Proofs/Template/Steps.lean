import RsxInspect.Proofs.Template.Nodes
import RsxInspect.Proofs.Template.Parts

/-!
# What adding a piece does

`Forest.Adds` lists what a piece can make of a forest, each time with the diagnostics that it
reports: nodes are pushed, frames are opened, a branch starts, or the frames above a target are
abandoned and the target is closed. It says nothing of the log of events and of the limit on
diagnostics, so `Builder.Does` puts the two together again.

`Builder.add_adds` shows that a builder does nothing else, so an invariant of the loop over the
pieces of a template is shown once for each entry of the list.
-/

namespace RsxInspect

namespace Forest

/-- Closes the `n` innermost frames at offset `stop`, without anything that closes them. -/
def abandon (stop : Nat) : Nat → Forest → Forest
  | 0, f => f
  | n + 1, f => abandon stop n (f.closeInnermost stop none)

/-- Closes the frame under the `n` innermost ones, which are abandoned, by what stands at `span`. -/
def closeBy (f : Forest) (n : Nat) (span : Span) : Forest :=
  (f.abandon span.start n).closeInnermost span.stop (some span)

/-- What is reported on the `n` innermost frames when they are abandoned (`Frame.unclosed`), the
innermost one first. -/
def neverClosed (f : Forest) (n : Nat) : List Diagnostic :=
  (f.frames.take n).map fun frame => frame.unclosed.on frame.opening

/-- Adding a piece to a forest makes the second forest of it and reports the diagnostics. Targets
are found from the innermost frame on, by `findIdx?`, so `n` frames are abandoned in front of
the one at index `n`. -/
inductive Adds (r : Reading) (f : Forest) : Piece → Forest → List Diagnostic → Prop where
  | node (n : Node) : Adds r f (.node n) (f.push n) []
  | startTag (e : Element) : Adds r f (.startTag e) (f.openFrame (.element e #[])) []
  | endTag {name : String} {span : Span} {n : Nat}
      (h : f.frames.findIdx? (·.isElement name) = some n) :
      Adds r f (.endTag name span) (f.closeBy n span) (f.neverClosed n)
  | strayEndTag {name : String} {span : Span} :
      Adds r f (.endTag name span) (f.push (.error span))
        [(Problem.endTagWithoutStart name).on span]
  | opener (kind : DirectiveKind) (head : BranchHead) :
      Adds r f (.opener kind head) (f.openFrame (.block ⟨kind, #[], head, #[]⟩)) []
  | branch {word : BranchWord} {run : List Token} {span : Span} {block : OpenBlock}
      {outer : List Frame} (h : f.frames = .block block :: outer) (hkind : block.kind = .choice)
      (helse : block.hasElse = false) :
      Adds r f (.branch word run span)
        { f with
          frames := .block (block.startBranch ⟨Builder.keywordOf word,
            (Builder.branchExpression r word run span).1, none, span⟩) :: outer }
        (Builder.branchExpression r word run span).2
  | strayBranch {word : BranchWord} {run : List Token} {span : Span} {problem : Problem}
      (h : problem = .branchAfterElse word ∨ problem = .branchOutsideChoice word) :
      Adds r f (.branch word run span) (f.push (.error span)) [problem.on span]
  | closer {kind : DirectiveKind} {span : Span}
      (h : f.frames.findIdx? (·.isBlock kind) = some 0) :
      Adds r f (.closer kind span) (f.closeBy 0 span) []
  | closerOver {kind : DirectiveKind} {span : Span} {n : Nat} (innermost : OpenConstruct)
      (h : f.frames.findIdx? (·.isBlock kind) = some (n + 1)) :
      Adds r f (.closer kind span) (f.closeBy (n + 1) span)
        ((Problem.closerOver kind innermost).on span :: f.neverClosed (n + 1))
  | strayCloser {kind : DirectiveKind} {span : Span} {problem : Problem}
      (h : f.frames.findIdx? (·.isBlock kind) = none)
      (hproblem : problem.kind = .mismatchedDirectiveClose) :
      Adds r f (.closer kind span) (f.push (.error span)) [problem.on span]

theorem frames_abandon_length (f : Forest) (stop n : Nat) :
    (f.abandon stop n).frames.length = f.frames.length - n := by
  induction n generalizing f with
  | zero => rfl
  | succ n ih =>
    rw [abandon, ih, frames_closeInnermost_length, Nat.sub_sub, Nat.add_comm 1]

/-- Where all frames are abandoned nothing is open, since each step of `abandon` closes one. -/
theorem frames_abandon_all (f : Forest) (stop : Nat) :
    (f.abandon stop f.frames.length).frames = [] := by
  rw [← List.length_eq_zero_iff, frames_abandon_length, Nat.sub_self]

/-- Behind the frames that are abandoned stands the target, the first frame that `p` holds of. -/
theorem exists_target {f : Forest} {n : Nat} {p : Frame → Bool} (h : f.frames.findIdx? p = some n)
    (stop : Nat) : ∃ inner outer, (f.abandon stop n).frames = inner :: outer := by
  have hlt : n < f.frames.length := (List.findIdx?_eq_some_iff_getElem.mp h).1
  apply List.exists_cons_of_length_pos
  rw [frames_abandon_length]
  omega

/-- A node that is added says nothing new about the frame that it comes into, so `neverClosed` is
the same. -/
theorem neverClosed_push (f : Forest) (node : Node) (n : Nat) :
    (f.push node).neverClosed n = f.neverClosed n := by
  obtain ⟨roots, frames⟩ := f
  cases frames with
  | nil => rfl
  | cons inner outer =>
    cases n with
    | zero => rfl
    | succ n => cases inner <;> rfl

end Forest

/-- The events are no diagnostics, so `logAll` does not change the findings. -/
theorem Notes.findings_logAll (notes : Notes) (events : List Event) :
    (notes.logAll events).findings = notes.findings := by
  unfold logAll
  induction events generalizing notes with
  | nil => rfl
  | cons e es ih => exact ih (notes.log e)

namespace Builder

variable {b : Builder} {source : String}

/-- Abandoning frames in a builder does to its forest what `Forest.abandon` says, and reports
`neverClosed`, apart from the log of events. The induction is on the number of frames. -/
theorem abandon_eq (source : String) (stop n : Nat) (b : Builder) :
    (abandon source stop n b).forest = b.forest.abandon stop n
      ∧ (abandon source stop n b).notes.findings
        = b.notes.findings.recordAll source (b.forest.neverClosed n) := by
  induction n generalizing b with
  | zero => exact ⟨rfl, rfl⟩
  | succ n ih =>
    rw [abandon]
    cases hframes : b.forest.frames with
    | nil =>
      -- nothing is open, so nothing happens however often
      have hstays : ∀ m, b.forest.abandon stop m = b.forest := by
        intro m
        induction m with
        | zero => rfl
        | succ m ih =>
          rw [Forest.abandon, Forest.closeInnermost, hframes]
          exact ih
      refine ⟨(hstays _).symm, ?_⟩
      rw [Forest.neverClosed, hframes]
      rfl
    | cons inner outer =>
      obtain ⟨hforest, hfindings⟩ := ih (((b.log (.implicitClose (inner.unclosed.on
        inner.opening).kind (inner.unclosed.on inner.opening).span.start stop)).report source
          (inner.unclosed.on inner.opening)).closeInnermost stop none)
      refine ⟨hforest, hfindings.trans ?_⟩
      -- the frames behind the innermost one are reported as they were before
      have hbehind : (b.forest.closeInnermost stop none).neverClosed n
          = (outer.take n).map fun frame => frame.unclosed.on frame.opening := by
        rw [Forest.closeInnermost, hframes]
        exact Forest.neverClosed_push _ _ n
      show Findings.recordAll source _ ((b.forest.closeInnermost stop none).neverClosed n) = _
      rw [hbehind, Forest.neverClosed, hframes]
      rfl

theorem closeBy_eq (b : Builder) (source : String) (n : Nat) (span : Span) :
    (b.closeBy source n span).forest = b.forest.closeBy n span
      ∧ (b.closeBy source n span).notes.findings
        = b.notes.findings.recordAll source (b.forest.neverClosed n) := by
  obtain ⟨hforest, hfindings⟩ := abandon_eq source span.start n b
  exact ⟨congrArg (·.closeInnermost span.stop (some span)) hforest, hfindings⟩

theorem finish_eq (b : Builder) (source : String) (stop : Nat) :
    (b.finish source stop).forest = b.forest.abandon stop b.forest.frames.length
      ∧ (b.finish source stop).notes.findings = b.notes.findings.recordAll source
        (b.forest.frames.map fun frame => frame.unclosed.on frame.opening) := by
  have habandon := abandon_eq source stop b.forest.frames.length b
  rw [Forest.neverClosed, List.take_length] at habandon
  exact habandon

/-- The builder turns the one forest into the other and records the diagnostics, as `Forest.Adds`
says. -/
def Does (r : Reading) (b : Builder) (piece : Piece) (c : Builder) : Prop :=
  ∃ ds, b.forest.Adds r piece c.forest ds ∧
    c.notes.findings = b.notes.findings.recordAll r.source ds

theorem does_addEndTag (r : Reading) (b : Builder) (name : String) (span : Span) :
    b.Does r (.endTag name span) (b.addEndTag r.source name span) := by
  unfold addEndTag
  split
  · rename_i n hn
    obtain ⟨hforest, hfindings⟩ := b.closeBy_eq r.source n span
    exact ⟨_, hforest ▸ .endTag hn, hfindings⟩
  · exact ⟨_, .strayEndTag, rfl⟩

/-- The cases of `addCloser`: its block is innermost, its block is further out, there is none of its
kind, or nothing is open. -/
theorem does_addCloser (r : Reading) (b : Builder) (kind : DirectiveKind) (span : Span) :
    b.Does r (.closer kind span) (b.addCloser r.source kind span) := by
  unfold addCloser
  extract_lets target problem noted
  cases htarget : b.forest.frames.findIdx? (·.isBlock kind) with
  | none =>
    have hnone : target = none := htarget
    have hproblem : problem.kind = .mismatchedDirectiveClose := by
      unfold problem
      split <;> rfl
    unfold noted
    rw [hnone, if_neg (by simp)]
    exact ⟨_, .strayCloser htarget hproblem, rfl⟩
  | some n =>
    have hsome : target = some n := htarget
    cases n with
    | zero =>
      have hnoted : noted = b := if_pos hsome
      rw [hsome, hnoted]
      obtain ⟨hforest, hfindings⟩ := b.closeBy_eq r.source 0 span
      exact ⟨_, hforest ▸ .closer htarget, hfindings⟩
    | succ n =>
      -- something is open, since the target is
      obtain ⟨innermost, hinnermost⟩ : ∃ innermost, problem = .closerOver kind innermost := by
        unfold problem
        cases hframes : b.forest.frames with
        | nil =>
          rw [hframes] at htarget
          cases htarget
        | cons inner outer => exact ⟨_, rfl⟩
      have hnoted : noted = (b.log (.mismatchedClose kind span.start target.isSome)).report r.source
          (problem.on span) := if_neg (by rw [hsome]; simp)
      rw [hsome, hnoted, hinnermost]
      obtain ⟨hforest, hfindings⟩ := ((b.log (.mismatchedClose kind span.start target.isSome)).report
        r.source ((Problem.closerOver kind innermost).on span)).closeBy_eq r.source (n + 1) span
      refine ⟨(Problem.closerOver kind innermost).on span :: b.forest.neverClosed (n + 1), ?_,
        hfindings⟩
      exact hforest ▸ .closerOver innermost htarget

theorem does_addBranch (r : Reading) (b : Builder) (word : BranchWord) (run : List Token)
    (span : Span) : b.Does r (.branch word run span) (b.addBranch r word run span) := by
  unfold addBranch
  split
  · rename_i block outer hframes
    split
    · rename_i hkind
      split
      · exact ⟨_, .strayBranch (.inl rfl), rfl⟩
      · rename_i helse
        exact ⟨_, .branch hframes hkind (Bool.eq_false_iff.mpr helse), rfl⟩
    · exact ⟨_, .strayBranch (.inr rfl), rfl⟩
  · exact ⟨_, .strayBranch (.inr rfl), rfl⟩

theorem does_addPiece (r : Reading) (b : Builder) {piece : Piece} (h : piece ≠ .nothing) :
    b.Does r piece (b.addPiece r piece) := by
  cases piece with
  | node n => exact ⟨_, .node n, rfl⟩
  | startTag e => exact ⟨_, .startTag e, rfl⟩
  | endTag name span => exact does_addEndTag r b name span
  | opener kind head => exact ⟨_, .opener kind head, rfl⟩
  | branch word run span => exact does_addBranch r b word run span
  | closer kind span => exact does_addCloser r b kind span
  | nothing => exact absurd rfl h

/-- **What adding a piece does.** It is on the list, and the diagnostics of the piece itself come
first. A piece that is `nothing` stands for no step. -/
theorem add_adds (r : Reading) (b : Builder) {read : PieceRead} (h : read.piece ≠ .nothing) :
    ∃ ds, b.forest.Adds r read.piece (b.add r read).forest ds ∧
      (b.add r read).notes.findings
        = b.notes.findings.recordAll r.source (read.diagnostics ++ ds) := by
  obtain ⟨ds, hadds, hfindings⟩ := does_addPiece r
    { b with notes := (b.notes.logAll read.events).reportAll r.source read.diagnostics } h
  refine ⟨ds, hadds, hfindings.trans ?_⟩
  show ((b.notes.logAll read.events).findings.recordAll r.source read.diagnostics).recordAll
    r.source ds = _
  rw [Notes.findings_logAll]
  exact List.foldl_append.symm

end Builder

end RsxInspect
