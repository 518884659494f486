import RsxInspect.Proofs.Template.ErasedPieces

/-!
# Turning trees off only erases trees

A file that is read without trees is the file that is read with trees, with the trees left out
(`Document.withoutTrees`), and its diagnostics are the same ones in the same order, save that one is
missing for each run that a tree is wanted of and that the grammar refuses (`erased_parse?`).
Whether trees are wanted decides nothing else: the two loops over a template and over a file do the
same on both sides, one piece and one section after the other.

The relation between the two sides has a form for each thing that is carried along: `Notes.Silenced`
for notes, `Builder.Erased` for builders, `SectionRead.Erased` for sections. Each of them names the
diagnostics `lost` that are missing on the second side. The bricks are one lemma for each thing that
a builder can do, then `Builder.readFrom_erased` and `readFrom_erased` for the two loops.
-/

namespace RsxInspect

variable {source : String} {a b : Nat} {lost more ds es : List Diagnostic}

/-! ### Notes

Leaving out a diagnostic could change how bad characters next to each other are folded. It does not,
since none is left out between two of them. -/

/-- The second notes are the first ones without the diagnostics of `lost`; all bad characters end at
`a` or before, so that what comes behind `a` is folded in the same way on both sides. -/
structure Notes.Silenced (a : Nat) (lost : List Diagnostic) (on off : Notes) : Prop where
  findings : Findings.Silenced a lost on.findings off.findings
  events : off.events = on.events

namespace Notes.Silenced

variable {on off : Notes}

theorem reportAll (h : on.Silenced a lost off) (hds : RsxInspect.Silenced a more ds es b) :
    (on.reportAll source ds).Silenced b (lost ++ more) (off.reportAll source es) :=
  ⟨h.findings.recordAll hds, h.events⟩

/-- What both report keeps one `Silenced` in the other: it is missing in neither. It must not be a
bad character, which could be folded into one that is there. -/
theorem reportSame (h : on.Silenced a lost off) (hds : ∀ d ∈ ds, d.kind ≠ .badCharacter) :
    (on.reportAll source ds).Silenced a lost (off.reportAll source ds) := by
  have hreport : (on.reportAll source ds).Silenced a (lost ++ []) (off.reportAll source ds) :=
    h.reportAll (.same a hds)
  rwa [List.append_nil] at hreport

theorem log (h : on.Silenced a lost off) (e : Event) :
    (on.log e).Silenced a lost (off.log e) :=
  ⟨h.findings, congrArg (e :: ·) h.events⟩

theorem logAll (h : on.Silenced a lost off) (events : List Event) :
    (on.logAll events).Silenced a lost (off.logAll events) := by
  unfold Notes.logAll
  induction events generalizing on off with
  | nil => exact h
  | cons e es ih => exact ih (h.log e)

end Notes.Silenced

/-! ### Builders

Whatever a builder does looks at kinds, names and spans, and never at a tree. -/

/-- The second builder is the first one without trees (`Forest.withoutTrees`) and without the
diagnostics of `lost`. -/
structure Builder.Erased (a : Nat) (lost : List Diagnostic) (on off : Builder) : Prop where
  forest : off.forest = on.forest.withoutTrees
  notes : on.notes.Silenced a lost off.notes

namespace Builder.Erased

variable {on off : Builder}

theorem frames (h : on.Erased a lost off) :
    off.forest.frames = on.forest.frames.map Frame.withoutTrees := congrArg Forest.frames h.forest

theorem log (h : on.Erased a lost off) (e : Event) : (on.log e).Erased a lost (off.log e) :=
  ⟨h.forest, h.notes.log e⟩

theorem report (h : on.Erased a lost off) {p : Problem} (hp : p.kind ≠ .badCharacter)
    (span : Span) :
    (on.report source (p.on span)).Erased a lost (off.report source (p.on span)) :=
  ⟨h.forest, h.notes.reportSame (List.forall_mem_singleton.mpr hp)⟩

theorem push (h : on.Erased a lost off) (n : Node) :
    (on.push n).Erased a lost (off.push n.withoutTrees) := by
  refine ⟨?_, h.notes⟩
  show off.forest.push n.withoutTrees = (on.forest.push n).withoutTrees
  rw [h.forest, Forest.withoutTrees_push]

theorem openFrame (h : on.Erased a lost off) (frame : Frame) :
    (on.openFrame frame).Erased a lost (off.openFrame frame.withoutTrees) :=
  ⟨congrArg (·.openFrame frame.withoutTrees) h.forest, h.notes⟩

theorem closeInnermost (h : on.Erased a lost off) (stop : Nat) (closing : Option Span) :
    (on.closeInnermost stop closing).Erased a lost (off.closeInnermost stop closing) := by
  refine ⟨?_, h.notes⟩
  show off.forest.closeInnermost stop closing = (on.forest.closeInnermost stop closing).withoutTrees
  rw [h.forest, Forest.withoutTrees_closeInnermost]

/-- `Builder.abandon`, by induction on the number of frames: each one is closed and reported on both
sides. -/
theorem abandon (h : on.Erased a lost off) (source : String) (stop n : Nat) :
    (Builder.abandon source stop n on).Erased a lost (Builder.abandon source stop n off) := by
  induction n generalizing on off with
  | zero => exact h
  | succ n ih =>
    have hoff := h.frames
    rw [Builder.abandon, Builder.abandon]
    -- what is said of a frame left open does not depend on the trees in it
    cases hon : on.forest.frames with
    | nil =>
      rw [hon] at hoff
      rw [hoff]
      exact h
    | cons inner outer =>
      rw [hon] at hoff
      rw [hoff]
      have hquiet : inner.unclosed.kind ≠ .badCharacter := by
        cases inner <;> exact DiagnosticKind.noConfusion
      show Builder.Erased a lost _ (Builder.abandon source stop n (((off.log (.implicitClose
        inner.withoutTrees.unclosed.kind inner.withoutTrees.opening.start stop)).report source
          (inner.withoutTrees.unclosed.on inner.withoutTrees.opening)).closeInnermost stop none))
      rw [inner.unclosed_withoutTrees, inner.opening_withoutTrees]
      exact ih (((h.log _).report hquiet _).closeInnermost stop none)

theorem closeBy (h : on.Erased a lost off) (source : String) (n : Nat) (span : Span) :
    (on.closeBy source n span).Erased a lost (off.closeBy source n span) :=
  (h.abandon source span.start n).closeInnermost span.stop (some span)

theorem finish (h : on.Erased a lost off) (source : String) (stop : Nat) :
    (on.finish source stop).Erased a lost (off.finish source stop) := by
  have hlength : off.forest.frames.length = on.forest.frames.length := by
    rw [h.frames, List.length_map]
  unfold Builder.finish
  rw [hlength]
  exact h.abandon source stop _

theorem addEndTag (h : on.Erased a lost off) (source name : String) (span : Span) :
    (on.addEndTag source name span).Erased a lost (off.addEndTag source name span) := by
  have htarget : off.forest.frames.findIdx? (·.isElement name)
      = on.forest.frames.findIdx? (·.isElement name) := by
    rw [h.forest]
    exact on.forest.findIdx?_withoutTrees fun frame => frame.isElement_withoutTrees name
  unfold Builder.addEndTag
  rw [htarget]
  split
  · exact h.closeBy source _ span
  · exact ((h.log _).report DiagnosticKind.noConfusion span).push (.error span)

/-- A closer, in each of the cases of `Builder.addCloser`: its target is found by the kinds of the
frames. -/
theorem addCloser (h : on.Erased a lost off) (source : String) (kind : DirectiveKind)
    (span : Span) :
    (on.addCloser source kind span).Erased a lost (off.addCloser source kind span) := by
  unfold Builder.addCloser
  extract_lets target problem noted target' problem' noted'
  -- the target, what is reported and what is noted agree on both sides, one after the other
  have htarget : target' = target := by
    unfold target' target
    rw [h.forest]
    exact on.forest.findIdx?_withoutTrees fun frame => frame.isBlock_withoutTrees kind
  have hproblem : problem' = problem := by
    unfold problem' problem
    rw [h.frames]
    cases on.forest.frames with
    | nil => rfl
    | cons inner outer => exact congrArg (Problem.closerOver kind) inner.construct_withoutTrees
  have hquiet : problem.kind ≠ .badCharacter := by
    unfold problem
    split <;> exact DiagnosticKind.noConfusion
  have hnoted : noted.Erased a lost noted' := by
    unfold noted noted'
    rw [htarget, hproblem]
    split
    · exact h
    · exact (h.log _).report hquiet span
  rw [htarget]
  clear_value target
  cases target with
  | some n => exact hnoted.closeBy source n span
  | none => exact hnoted.push (.error span)

/-- A branch that belongs to nothing leaves an error on both sides. -/
theorem addStrayBranch (h : on.Erased a lost off) (source : String) (problem : Problem)
    (hproblem : problem.kind ≠ .badCharacter) (span : Span) :
    (on.addStrayBranch source problem span).Erased a lost
      (off.addStrayBranch source problem span) :=
  ((h.log _).report hproblem span).push (.error span)

/-- The head of a further branch, whose run is asked for a tree only if its word has a condition:
`refusals` is what is missing. -/
theorem branchExpression_erased (source : String) (a : Nat) (word : BranchWord) (run : List Token)
    (span : Span) :
    let on := branchExpression ⟨source, true⟩ word run span
    let off := branchExpression ⟨source, false⟩ word run span
    off.1 = on.1.map Expression.withoutTree ∧
      RsxInspect.Silenced a (refusals source (word.runs run)) on.2 off.2 a := by
  unfold branchExpression
  cases word with
  | elseBranch =>
    exact ⟨rfl, .same a (Problem.quiet_onRun? DiagnosticKind.noConfusion run)⟩
  | elseIf =>
    dsimp only
    rw [Expression.ofRun?_off]
    refine ⟨rfl, ?_⟩
    dsimp only
    rw [Option.isNone_map]
    exact (Expression.silenced_ofRun? source a run).behind
      (Problem.quiet_if DiagnosticKind.noConfusion)

theorem addBranch (h : on.Erased a lost off) (word : BranchWord) (run : List Token)
    (span : Span) :
    (on.addBranch ⟨source, true⟩ word run span).Erased a
      (lost ++ refusals source (on.forest.branchRuns (.branch word run span)))
      (off.addBranch ⟨source, false⟩ word run span) := by
  -- outside of a choice and behind its `else`, nothing is read and nothing lost
  have hnil : Builder.Erased a (lost ++ refusals source []) on off := (List.append_nil lost).symm ▸ h
  have houtside := hnil.addStrayBranch source (.branchOutsideChoice word)
    DiagnosticKind.noConfusion span
  have hafter := hnil.addStrayBranch source (.branchAfterElse word)
    DiagnosticKind.noConfusion span
  unfold Builder.addBranch Forest.branchRuns
  rw [h.frames]
  cases on.forest.frames with
  | nil => exact houtside
  | cons inner outer =>
    cases inner with
    | element e children => exact houtside
    | block block =>
      have hsamekind : block.withoutTrees.kind = block.kind := rfl
      have hsame : block.withoutTrees.hasElse = block.hasElse := rfl
      show Builder.Erased a (lost ++ refusals source (if block.kind = .choice ∧ block.hasElse = false
        then _ else [])) _ (if block.withoutTrees.kind = .choice then
          if block.withoutTrees.hasElse = true then _ else _ else _)
      rw [hsamekind, hsame]
      by_cases hkind : block.kind = .choice
      · cases helse : block.hasElse with
        | true =>
          simp only [hkind, helse, if_true, and_false, if_false, Bool.true_eq_false]
          exact hafter
        | false =>
          simp only [hkind, helse, if_true, and_self, if_false, Bool.false_eq_true]
          obtain ⟨hexpression, hproblems⟩ := branchExpression_erased source a word run span
          refine ⟨?_, h.notes.reportAll hproblems⟩
          show Forest.mk off.forest.roots (.block (block.withoutTrees.startBranch _) :: _)
            = ⟨_, .block (block.startBranch _).withoutTrees :: _⟩
          rw [block.withoutTrees_startBranch, hexpression, h.forest]
          rfl
      · simp only [hkind, if_false, false_and]
        exact houtside

/-- What `addPiece` makes of the tree is the same without trees, save for the run of the branch that
it opens. -/
theorem addPiece (h : on.Erased a lost off) (piece : Piece) :
    (on.addPiece ⟨source, true⟩ piece).Erased a
      (lost ++ refusals source (on.forest.branchRuns piece))
      (off.addPiece ⟨source, false⟩ piece.withoutTrees) := by
  have hnil : Builder.Erased a (lost ++ refusals source []) on off := (List.append_nil lost).symm ▸ h
  cases piece with
  | node n => exact hnil.push n
  | startTag e =>
    have hopened := hnil.openFrame (.element e #[])
    rw [Frame.withoutTrees_element] at hopened
    exact hopened
  | endTag name span => exact hnil.addEndTag source name span
  | opener kind head =>
    have hopened := hnil.openFrame (.block ⟨kind, #[], head, #[]⟩)
    rw [Frame.withoutTrees_block] at hopened
    exact hopened
  | branch word run span => exact h.addBranch word run span
  | closer kind span => exact hnil.addCloser source kind span
  | nothing => exact hnil

/-- **Adding a piece.** One piece further the second builder is still the first one without trees,
and the refusals of the piece and of the branch that it opens are missing. -/
theorem add (h : on.Erased a lost off) {runs : List (List Token)} {read read' : PieceRead}
    (hread : read.Erased source a runs read' b) :
    (on.add ⟨source, true⟩ read).Erased b
      (lost ++ refusals source (runs ++ on.forest.branchRuns read.piece))
      (off.add ⟨source, false⟩ read') := by
  have hnoted : Builder.Erased b (lost ++ refusals source runs)
      { on with notes := (on.notes.logAll read.events).reportAll source read.diagnostics }
      { off with notes := (off.notes.logAll read.events).reportAll source read'.diagnostics } :=
    ⟨h.forest, (h.notes.logAll read.events).reportAll hread.diagnostics⟩
  unfold Builder.add
  rw [hread.piece, hread.events, refusals_append, ← List.append_assoc]
  exact hnoted.addPiece read.piece

end Builder.Erased

/-! ### The loop over pieces

The refusals come in the order of the pieces, those of a piece before those of the branch that it
opens. -/

/-- The two loops go on in step: behind the same tokens the one builder is the other one without
trees, and the refusals of all runs in between are missing. The induction is on the recursion of
`Builder.readFrom`. -/
theorem Builder.readFrom_erased {on off : Progress} {ts : List Token}
    (h : on.builder.Erased a lost off.builder) (htaken : off.taken = on.taken)
    (hstop : off.stop = on.stop) (hordered : Span.Ordered a (ts.map Token.span) b)
    (hfits : ∀ t ∈ ts, t.span.Fits source) :
    ∃ c k, (readFrom ⟨source, true⟩ on ts).builder.Erased c
        (lost ++ refusals source (runsFrom ⟨source, true⟩ on.builder ts))
        (readFrom ⟨source, false⟩ off ts).builder ∧
      (readFrom ⟨source, false⟩ off ts).taken = (readFrom ⟨source, true⟩ on ts).taken ∧
      (readFrom ⟨source, false⟩ off ts).stop = (readFrom ⟨source, true⟩ on ts).stop ∧
      (readFrom ⟨source, true⟩ on ts).taken = on.taken + k ∧
      Span.Ordered c ((ts.drop k).map Token.span) b := by
  have hnil : ∀ lost, lost ++ refusals source [] = lost := List.append_nil
  induction on, ts using Builder.readFrom.induct ⟨source, true⟩ generalizing off lost a with
  | case1 on =>
    rw [readFrom, readFrom, runsFrom, hnil]
    exact ⟨a, 0, h, htaken, hstop, rfl, hordered⟩
  | case2 on t ts hclose =>
    rw [readFrom, readFrom, runsFrom, if_pos hclose, if_pos hclose, if_pos hclose, hnil]
    exact ⟨a, 0, h, htaken, hstop, rfl, hordered⟩
  -- the piece is read alike on both sides (`Piece.read_erased`), and the loop goes on behind it
  | case3 on t ts hclose piece =>
    rename_i ih
    obtain ⟨c, hread, hbehind⟩ := Piece.read_erased hordered (List.forall_mem_cons.mp hfits).2
    let piece' := Piece.read ⟨source, false⟩ t ts
    let next' : Progress :=
      ⟨off.builder.add ⟨source, false⟩ piece', off.taken + 1 + piece'.taken,
        endOf t ts piece'.taken⟩
    have htaken' : piece'.taken = piece.taken := hread.taken
    have hnext : (on.builder.add ⟨source, true⟩ piece).Erased c _ next'.builder := h.add hread
    obtain ⟨d, k, herased, htaken, hstop, hall, hrest⟩ := ih hnext
      (by show off.taken + 1 + piece'.taken = _; rw [htaken, htaken'])
      (by show endOf t ts piece'.taken = _; rw [htaken'])
      hbehind fun u hu => hfits u (List.mem_cons_of_mem _ (List.mem_of_mem_drop hu))
    rw [List.append_assoc, ← refusals_append] at herased
    rw [readFrom, readFrom, runsFrom, if_neg hclose, if_neg hclose, if_neg hclose]
    have hrest' : ts.drop (Piece.read ⟨source, false⟩ t ts).taken
        = ts.drop (Piece.read ⟨source, true⟩ t ts).taken := congrArg (ts.drop ·) hread.taken
    dsimp only
    rw [hrest']
    refine ⟨d, piece.taken + k + 1, herased, htaken, hstop, hall.trans ?_, ?_⟩
    · show on.taken + 1 + piece.taken + k = _
      omega
    · rw [List.drop_succ_cons, ← List.drop_drop]
      exact hrest

/-! ### Sections

What is reported of the delimiters of sections is the same with and without trees, so the two logs
part at pieces only. -/

namespace Document

variable {notes notes' : Notes} {opening : Token} {ts : List Token}

theorem openTagProblem_quiet (r : Reading) (opening : Token) :
    ∀ d ∈ openTagProblem r opening, d.kind ≠ .badCharacter :=
  Problem.quiet_unless DiagnosticKind.noConfusion

theorem unclosedProblem_quiet (kind : SectionKind) (opening : Token) (closing : Option Span) :
    ∀ d ∈ unclosedProblem kind opening closing, d.kind ≠ .badCharacter :=
  Problem.quiet_unless DiagnosticKind.noConfusion

theorem duplicateProblem_quiet (done : Array Section) (kind : SectionKind) (opening : Token) :
    ∀ d ∈ duplicateProblem done kind opening, d.kind ≠ .badCharacter :=
  Problem.quiet_if DiagnosticKind.noConfusion

/-- Of two readings of a section the second one is the first one without trees, and took as many
tokens. -/
structure SectionRead.Erased (a : Nat) (lost : List Diagnostic) (on off : SectionRead Section) :
    Prop where
  content : off.content = on.content.withoutTrees
  taken : off.taken = on.taken
  notes : on.notes.Silenced a lost off.notes

theorem readTemplate_erased (h : notes.Silenced a lost notes')
    (hordered : Span.Ordered a (ts.map Token.span) b) (hfits : ∀ t ∈ ts, t.span.Fits source) :
    ∃ c, (readSection ⟨source, true⟩ notes .template opening ts).Erased c
        (lost ++ refusals source (sectionRuns ⟨source, true⟩ notes .template opening ts))
        (readSection ⟨source, false⟩ notes' .template opening ts) ∧
      Span.Ordered c ((ts.drop (readSection ⟨source, true⟩ notes .template opening ts).taken).map
        Token.span) b := by
  have hquiet := openTagProblem_quiet ⟨source, true⟩ opening
  let on : Builder.Progress :=
    ⟨⟨.empty, notes.reportAll source (openTagProblem ⟨source, true⟩ opening)⟩, 0, opening.span.stop⟩
  let off : Builder.Progress :=
    ⟨⟨.empty, notes'.reportAll source (openTagProblem ⟨source, false⟩ opening)⟩, 0,
      opening.span.stop⟩
  -- both builders start empty; the opening tag is reported on both sides
  have hstart : on.builder.Erased a lost off.builder := by
    refine ⟨?_, h.reportSame hquiet⟩
    show Forest.empty = ⟨Array.map _ #[], []⟩
    rw [Array.map_empty]
    rfl
  obtain ⟨c, k, hend, htaken, hstop, hk, hbehind⟩ :=
    Builder.readFrom_erased hstart rfl rfl hordered hfits
  unfold readSection readTemplate
  dsimp only
  generalize Builder.readFrom ⟨source, true⟩ on ts = p at hend htaken hstop hk ⊢
  generalize Builder.readFrom ⟨source, false⟩ off ts = p' at hend htaken hstop ⊢
  rw [htaken, hstop]
  have hclosed := hend.finish source p.stop
  have hroots : (p'.builder.finish source p.stop).forest.roots.toList
      = (p.builder.finish source p.stop).forest.roots.toList.map Node.withoutTrees := by
    rw [hclosed.forest, ← Array.toList_map]
    rfl
  refine ⟨c, ⟨?_, rfl, hclosed.notes.reportSame (unclosedProblem_quiet .template opening _)⟩, ?_⟩
  · rw [hroots]
    rfl
  · rw [hk, Nat.zero_add, ← List.drop_drop]
    exact hbehind.drop _

theorem readCode_silenced (source : String) (h : notes.Silenced a lost notes') (kind : SectionKind)
    (opening : Token) (ts : List Token) :
    (readCode ⟨source, true⟩ notes kind opening ts).notes.Silenced a lost
      (readCode ⟨source, false⟩ notes' kind opening ts).notes := by
  have htag := forall_mem_ite (c := kind = .frontMatter)
    (List.forall_mem_nil fun d : Diagnostic => d.kind ≠ .badCharacter)
    (openTagProblem_quiet ⟨source, true⟩ opening)
  exact h.reportSame (List.forall_mem_append.mpr ⟨htag, unclosedProblem_quiet kind opening _⟩)

/-- **One section.** The second reading of a section is the first one without trees, and the
refusals of its runs (`Document.sectionRuns`) are missing. -/
theorem readSection_erased (kind : SectionKind) (opening : Token)
    (h : notes.Silenced a lost notes') (hordered : Span.Ordered a (ts.map Token.span) b)
    (hfits : ∀ t ∈ ts, t.span.Fits source) :
    let on := readSection ⟨source, true⟩ notes kind opening ts
    ∃ c, on.Erased c (lost ++ refusals source (sectionRuns ⟨source, true⟩ notes kind opening ts))
        (readSection ⟨source, false⟩ notes' kind opening ts) ∧
      Span.Ordered c ((ts.drop on.taken).map Token.span) b := by
  -- code has no runs
  have hnil : notes.Silenced a (lost ++ refusals source []) notes' :=
    (List.append_nil lost).symm ▸ h
  have hcode := readCode_silenced source hnil
  cases kind with
  | template => exact readTemplate_erased h hordered hfits
  | frontMatter => exact ⟨a, ⟨rfl, rfl, hcode .frontMatter opening ts⟩, hordered.drop _⟩
  | script => exact ⟨a, ⟨rfl, rfl, hcode .script opening ts⟩, hordered.drop _⟩
  | style => exact ⟨a, ⟨rfl, rfl, hcode .style opening ts⟩, hordered.drop _⟩

/-! ### Files

The two loops go on in step, since both take as many tokens for a section; so the induction is over
one of them. -/

theorem duplicateProblem_withoutTrees (done : Array Section) (kind : SectionKind)
    (opening : Token) :
    duplicateProblem (done.map Section.withoutTrees) kind opening
      = duplicateProblem done kind opening := by
  have hkind : ∀ s : Section, s.withoutTrees.kind = s.kind := fun s => by cases s <;> rfl
  unfold duplicateProblem
  rw [Array.any_map]
  simp only [Function.comp_def, hkind]

/-- The two loops over a file go on in step, by induction on the recursion of
`Document.readFrom`. -/
theorem readFrom_erased {done done' : Array Section}
    (hdone : done' = done.map Section.withoutTrees) (h : notes.Silenced a lost notes')
    (hordered : Span.Ordered a (ts.map Token.span) b) (hfits : ∀ t ∈ ts, t.span.Fits source) :
    let on := readFrom ⟨source, true⟩ done notes ts
    let off := readFrom ⟨source, false⟩ done' notes' ts
    off.1 = on.1.map Section.withoutTrees ∧
      ∃ c, on.2.Silenced c (lost ++ refusals source (runsFrom ⟨source, true⟩ done notes ts))
        off.2 := by
  induction done, notes, ts using Document.readFrom.induct ⟨source, true⟩
    generalizing done' notes' lost a with
  | case1 done notes =>
    rw [readFrom, readFrom, runsFrom]
    exact ⟨hdone, a, (List.append_nil lost).symm ▸ h⟩
  | case2 done notes t ts kind hkind atStart =>
    -- the duplicate is reported alike, the section read alike, and both loops go on at the same
    -- token
    rename_i on ih
    let off := readSection ⟨source, false⟩ (notesAt ⟨source, false⟩ done' notes' kind t) kind t ts
    have hstart : (notesAt ⟨source, true⟩ done notes kind t).Silenced a lost
        (notesAt ⟨source, false⟩ done' notes' kind t) := by
      unfold notesAt
      rw [hdone, duplicateProblem_withoutTrees]
      exact (h.reportSame (duplicateProblem_quiet done kind t)).log _
    have hbehind : Span.Ordered a (ts.map Token.span) b := hordered.drop 1
    obtain ⟨c, hread, hrest⟩ :=
      readSection_erased kind t hstart hbehind (List.forall_mem_cons.mp hfits).2
    have hpush : done'.push off.content = (done.push on.content).map Section.withoutTrees := by
      rw [Array.map_push, ← hdone]
      exact congrArg done'.push hread.content
    have hloop := ih hpush hread.notes hrest
      fun u hu => hfits u (List.mem_cons_of_mem _ (List.mem_of_mem_drop hu))
    have hon : readFrom ⟨source, true⟩ (done.push on.content) on.notes (ts.drop on.taken) = _ :=
      (Reaches.start.opened hkind rfl).readFrom_eq
    have hoff : readFrom ⟨source, false⟩ (done'.push off.content) off.notes (ts.drop off.taken) = _ :=
      (Reaches.start.opened hkind rfl).readFrom_eq
    have htaken : off.taken = on.taken := hread.taken
    rw [htaken] at hoff
    rw [hon, List.append_assoc, ← refusals_append] at hloop
    rw [← hoff, runsFrom, hkind]
    exact hloop
  | case3 done notes t ts hkind skipped =>
    rename_i ih
    let skipped' := if t.kind = .badCharacter then notes'
      else notes'.report source (Reading.unexpected ⟨source, false⟩ t .outsideSections)
    have hskipped : skipped.Silenced a lost skipped' := by
      unfold skipped skipped'
      split
      · exact h
      · exact h.reportSame (List.forall_mem_singleton.mpr DiagnosticKind.noConfusion)
    rw [readFrom, readFrom, runsFrom, hkind]
    exact ih hdone hskipped (hordered.drop 1) (List.forall_mem_cons.mp hfits).2

end Document

/-- **Turning trees off only erases trees.** Let the scan of a file reach the end. With trees and
without, the file is read exactly if the scans of its values reach their ends (`Document.valuesEnd`).
Read without trees, it gives the document that it gives with trees, with no expression having one
(`Document.withoutTrees`), and the same events. Its diagnostics are those that are found with trees, in
the same order, without one for each run that a tree is wanted of (`Document.treeRuns`) and that the
grammar refuses (`refusals`): the unexpected token that the grammar finds in it. -/
theorem erased_parse? (source : String) (h : (Scanner.ofSource source).toEnd?.isSome = true) :
    let lost := refusals source (Document.treeRuns source)
    (∀ withTrees, (Document.parse? source withTrees).isSome
        = Document.valuesEnd source (significantTokens source)) ∧
      ∀ on off, Document.parse? source true = some on → Document.parse? source false = some off →
        off.document = on.document.withoutTrees ∧ off.events = on.events ∧
        off.diagnostics.Sublist on.diagnostics ∧ on.diagnostics.Perm (lost ++ off.diagnostics) ∧
        ∀ d ∈ lost, d.kind = .unexpectedToken := by
  intro lost
  refine ⟨fun withTrees => Document.isSome_parse? withTrees h, fun on off hon hoff => ?_⟩
  obtain ⟨-, rfl⟩ := Document.eq_of_parse? hon
  obtain ⟨-, rfl⟩ := Document.eq_of_parse? hoff
  let lexical := (Findings.ofTokens source (significantTokens source)).reverse
  have hempty : Notes.Silenced 0 [] .empty .empty := ⟨Findings.silenced_empty, rfl⟩
  obtain ⟨hsections, c, hnotes⟩ := Document.readFrom_erased Array.map_empty.symm hempty
    (spaced_significantTokens source).ordered (fits_significantTokens source)
  unfold Document.ofTokens
  dsimp only
  generalize Document.readFrom ⟨source, true⟩ #[] .empty (significantTokens source) = on
    at hsections hnotes ⊢
  generalize Document.readFrom ⟨source, false⟩ #[] .empty (significantTokens source) = off
    at hsections hnotes ⊢
  -- turning trees off drops the findings `lost` and leaves the order of the others
  have hkept : (lexical ++ off.2.findings.reverse).Sublist (lexical ++ on.2.findings.reverse) :=
    hnotes.findings.kept.reverse.append_left lexical
  have hnoted : on.2.findings.reverse.Perm (lost ++ off.2.findings.reverse) := by
    have hperm : on.2.findings.Perm (lost ++ off.2.findings) := hnotes.findings.perm
    exact (List.reverse_perm _).trans (hperm.trans ((List.reverse_perm _).symm.append_left lost))
  refine ⟨?_, congrArg List.reverse hnotes.events, Document.inOrder_sublist hkept, ?_, ?_⟩
  · rw [hsections, Array.toList_map]
    rfl
  · calc
      List.Perm _ (lexical ++ on.2.findings.reverse) := List.mergeSort_perm _ _
      List.Perm _ (lexical ++ (lost ++ off.2.findings.reverse)) := hnoted.append_left lexical
      List.Perm _ (lost ++ (lexical ++ off.2.findings.reverse)) := List.perm_append_comm_assoc ..
      List.Perm _ (lost ++ Document.inOrder (lexical ++ off.2.findings.reverse)) :=
        (List.mergeSort_perm _ _).symm.append_left lost
  · intro d hd
    obtain ⟨run, -, hrun⟩ := List.mem_filterMap.mp hd
    exact Expr.kind_of_refusal? hrun

/-- The value of an attribute, an interpolation and the condition of a branch are refused; a choice
without a condition, a loop without a binding and a branch that belongs to nothing are not asked
about. -/
theorem erased_parse?_refused :
    let source := String.ofList ("<template><p a=\x7b\x7b1 +\x7d\x7d>\x7b\x7b b c \x7d\x7d"
      ++ "\x7b\x7b@if \x7d\x7d\x7b\x7b:else if * \x7d\x7d\x7b\x7b/if\x7d\x7d"
      ++ "\x7b\x7b@each x y\x7d\x7d\x7b\x7b:else if +\x7d\x7d").toList
    (Scanner.ofSource source).toEnd?.isSome = true ∧
      ∃ on off, Document.parse? source true = some on ∧ Document.parse? source false = some off ∧
        off.document = on.document.withoutTrees ∧
        (refusals source (Document.treeRuns source)).length = 3 ∧
        on.diagnostics.length = 3 + off.diagnostics.length := by
  intro source
  have hend : (Scanner.ofSource source).toEnd?.isSome = true := by decide +kernel
  -- three refused expressions: in the value, in the interpolation and in the `else if`
  have hlost : (refusals source (Document.treeRuns source)).length = 3 := by decide +kernel
  have hvalues : Document.valuesEnd source (significantTokens source) = true := by decide +kernel
  obtain ⟨hread, herased⟩ := erased_parse? source hend
  obtain ⟨on, hon⟩ := Option.isSome_iff_exists.mp ((hread true).trans hvalues)
  obtain ⟨off, hoff⟩ := Option.isSome_iff_exists.mp ((hread false).trans hvalues)
  obtain ⟨hdocument, -, -, hperm, -⟩ := herased on off hon hoff
  have hlength := hperm.length_eq
  rw [List.length_append, hlost] at hlength
  exact ⟨hend, on, off, hon, hoff, hdocument, hlost, hlength⟩

end RsxInspect
