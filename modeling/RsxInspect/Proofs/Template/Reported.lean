import RsxInspect.Proofs.Expr.Failure

/-!
# What pieces and sections report

Every piece that starts with a token of markup reports its own problems only, which are plain: the
arm for tokens that have no place in the template is the single one that says so
(`Piece.read_plain`). There is one lemma for each reader, and each one goes along the body of its
reader.

Adding a piece, closing what is open and reading a section keep the log of a builder free of such
reports (`Builder.add_placed`, `Builder.finish_placed`, `readCode_placed`), so `Notes.Placed` is an
invariant of the loops.
-/

namespace RsxInspect

/-- The kinds that a piece of a template can start with: text, tags and `{{`. -/
def TokenKind.startsPiece : TokenKind → Bool
  | .tagOpen | .tagEndOpen | .text | .comment | .interpolationOpen => true
  | _ => false

/-! ### Expressions -/

theorem Expression.ofRun?_plain (r : Reading) (run : List Token) (wanted : Bool) :
    AllPlain (ofRun? r run wanted).2 := by
  unfold ofRun?
  split
  · exact .nil
  · split
    · split
      · exact .nil
      · rename_i d hparse
        exact .single (Expr.parse_plain hparse)
    · exact .nil

/-! ### Tags

One lemma for each reader: the problems that it reports of a tag are plain (`Problem.isPlain`). -/

section Tags

variable (r : Reading)

theorem Reading.unexpected_plain (t : Token) {place : Place} (houtside : place ≠ .outsideSections)
    (htemplate : place ≠ .template) : (r.unexpected t place).Plain :=
  Problem.plain (by simp [Problem.isPlain, Problem.isUnplaced, Problem.isImbalance, houtside,
    htemplate]) _

theorem Reading.unexpectedNext_plain (ts : List Token) {place : Place}
    (houtside : place ≠ .outsideSections) (htemplate : place ≠ .template) :
    (r.unexpectedNext ts place).Plain := by
  cases ts with
  | nil =>
    exact Problem.plain (by simp [Problem.isPlain, Problem.isUnplaced, Problem.isImbalance, houtside,
      htemplate]) _
  | cons t ts => exact r.unexpected_plain t houtside htemplate

theorem AttributeValue.ofToken_plain (t : Token) : AllPlain (AttributeValue.ofToken r t).2 := by
  unfold AttributeValue.ofToken
  dsimp only
  split
  · -- what is wrong in the braces, with the expression, and with empty braces
    refine .append (.append (allPlain_anomalies _ _) (Expression.ofRun?_plain r _ _)) ?_
    exact .ite (.single (Problem.plain rfl _)) .nil
  · exact .nil

/-- The problems of an attribute are plain: no value behind `=`, a name that is missing, and those
of its value. -/
theorem readAttribute_plain (t : Token) (ts : List Token) :
    AllPlain (readAttribute r t ts).diagnostics := by
  unfold readAttribute
  cases ts with
  | nil => exact .nil
  | cons equals ts =>
    dsimp only
    split
    · split
      · exact AttributeValue.ofToken_plain r _
      · exact .single (Problem.plain rfl _)
    · exact .nil

/-- So are those of a whole tag, by the recursion of `TagBody.readFrom` with the problems so far. -/
theorem TagBody.readFrom_plain (done : TagBody) (ts : List Token)
    (h : AllPlain done.diagnostics.toList) :
    AllPlain (TagBody.readFrom r done ts).diagnostics.toList := by
  -- only an attribute and a token that does not belong there report something
  induction done, ts using TagBody.readFrom.induct r with
  | case1 done =>
    rw [TagBody.readFrom]
    exact h
  | case2 done t ts hkind a ih =>
    rw [TagBody.readFrom, hkind]
    apply ih
    show AllPlain (done.diagnostics ++ a.diagnostics).toList
    rw [Array.toList_appendList]
    exact h.append (readAttribute_plain r t ts)
  | case3 done t ts hkind =>
    rw [TagBody.readFrom, hkind]
    exact h
  | case4 done t ts hkind =>
    rw [TagBody.readFrom, hkind]
    exact h
  | case5 done t ts hkind =>
    rw [TagBody.readFrom, hkind]
    exact h
  | case6 done t ts hkind ih =>
    rw [TagBody.readFrom, hkind]
    exact ih h
  | case7 done t ts hattr htag hself hclose hbad ih =>
    rw [TagBody.readFrom.eq_def]
    simp only
    apply ih
    show AllPlain (done.diagnostics.push (r.unexpected t .startTag)).toList
    rw [Array.toList_push]
    exact h.append (.single (r.unexpected_plain t (by decide) (by decide)))

theorem readStartTag_plain (first : Token) (ts : List Token) :
    AllPlain (readStartTag r first ts).diagnostics := by
  unfold readStartTag
  refine .append (.append ?_ (TagBody.readFrom_plain r _ _ .nil)) ?_
  · exact .ite (.single (r.unexpectedNext_plain ts (by decide) (by decide))) .nil
  · exact .ite (.single (Problem.plain rfl _)) .nil

theorem strayInEndTag_plain (ts : List Token) : AllPlain (strayInEndTag r ts).2 := by
  induction ts with
  | nil => exact .nil
  | cons t ts ih =>
    rw [strayInEndTag]
    split
    · exact ih
    · exact .cons (r.unexpected_plain t (by decide) (by decide)) ih
    · exact .nil

theorem readEndTag_plain (first : Token) (ts : List Token) :
    AllPlain (readEndTag r first ts).diagnostics := by
  have hstray := fun us => strayInEndTag_plain r us
  unfold readEndTag
  dsimp only
  split
  · refine .append (.append (hstray _) ?_) (.single (Problem.plain rfl _))
    exact .ite .nil (.single (Problem.plain rfl _))
  · refine .append (hstray _) ?_
    exact .ite .nil (.single (Problem.plain rfl _))

end Tags

/-! ### Braces

The same for braces. -/

section Braces

variable (r : Reading) (first : Token) (ts : List Token)

theorem Braces.unclosed_plain (b : Braces) : AllPlain b.unclosed :=
  .ite .nil (.single (Problem.plain rfl _))

theorem readInterpolation_plain (skip : Nat) (raw : Bool) :
    AllPlain (readInterpolation r first ts skip raw).diagnostics := by
  unfold readInterpolation
  refine .append (.append (Braces.unclosed_plain _) (Expression.ofRun?_plain r _ _)) ?_
  exact .ite (.single (Problem.plain rfl _)) .nil

theorem readLoopHead_plain (run : List Token) : AllPlain (readLoopHead r run).2.1 := by
  -- without a binding the whole run is the expression
  have hunbound : AllPlain (readLoopHead.unbound r run).2.1 :=
    .append (.onRun? rfl run) (Expression.ofRun?_plain r _ _)
  unfold readLoopHead
  dsimp only
  split
  · split
    · exact hunbound
    · exact Expression.ofRun?_plain r _ _
  · exact hunbound

theorem readOpener_plain (keyword : TokenKind) (kind : DirectiveKind) :
    AllPlain (readOpener r first ts keyword kind).diagnostics := by
  have hmissing : ∀ (e : Option Expression) (span : Span),
      AllPlain (if e.isNone then [(Problem.directiveWithoutExpression kind).on span] else []) :=
    fun e span => .ite (.single (Problem.plain rfl _)) .nil
  cases kind with
  | choice =>
    exact .append (.append (Expression.ofRun?_plain r _ _) (Braces.unclosed_plain _))
      (hmissing _ _)
  | loop =>
    exact .append (.append (readLoopHead_plain r _) (Braces.unclosed_plain _)) (hmissing _ _)

theorem readCloser_plain (kind : DirectiveKind) :
    AllPlain (readCloser first ts kind).diagnostics :=
  .append (Braces.unclosed_plain _) (.onRun? rfl _)

theorem readBraces_plain : AllPlain (readBraces r first ts).diagnostics := by
  unfold readBraces
  split
  · exact readOpener_plain r first ts _ _
  · exact readOpener_plain r first ts _ _
  · exact Braces.unclosed_plain _
  · exact Braces.unclosed_plain _
  · exact readCloser_plain first ts _
  · exact readCloser_plain first ts _
  · exact readInterpolation_plain r first ts _ _
  · exact readInterpolation_plain r first ts _ _

end Braces

/-- **A piece of markup has its place.** None of its problems is that its first token has none
(`Place.template`), or that something is left open. -/
theorem Piece.read_plain (r : Reading) {first : Token} (h : first.kind.startsPiece = true)
    (ts : List Token) : AllPlain (Piece.read r first ts).diagnostics := by
  unfold Piece.read
  split
  · exact readStartTag_plain r first ts
  · exact readEndTag_plain r first ts
  · exact .nil
  · exact .nil
  · exact readBraces_plain r first ts
  · exact .nil
  · -- what else can start a piece has an arm of its own
    exfalso
    revert h
    cases hkind : first.kind <;> simp_all [TokenKind.startsPiece]

/-! ### The log of a builder

Whether a diagnostic is placed does not change when it is recorded, so each step of a builder keeps
it. -/

/-- The findings so far are all placed: none says that a token has no place in a template or outside
of the sections. -/
def Notes.Placed (n : Notes) : Prop := AllPlaced n.findings

namespace Notes

variable {n : Notes} {source : String} {ds : List Diagnostic}

theorem Placed.report {d : Diagnostic} (h : n.Placed) (hd : d.Placed) :
    (n.report source d).Placed :=
  Findings.record_placed h hd

theorem Placed.reportAll (h : n.Placed) (hds : AllPlaced ds) : (n.reportAll source ds).Placed :=
  Findings.recordAll_placed h hds

theorem Placed.logAll (h : n.Placed) (es : List Event) : (n.logAll es).Placed := by
  unfold Notes.logAll
  induction es generalizing n with
  | nil => exact h
  | cons e es ih => exact @ih (n.log e) h

end Notes

theorem Frame.unclosed_placed (f : Frame) : (f.unclosed.on f.opening).Placed := by
  cases f with
  | element e children => exact Problem.placed rfl _
  | block b => exact Problem.placed rfl _

namespace Builder

variable {b : Builder} {source : String}

theorem abandon_placed (source : String) (stop n : Nat) (h : b.notes.Placed) :
    (abandon source stop n b).notes.Placed := by
  induction n generalizing b with
  | zero => exact h
  | succ n ih =>
    rw [abandon]
    split
    · exact h
    · rename_i inner outer _
      apply ih
      exact h.report (inner.unclosed_placed)

theorem closeBy_placed (n : Nat) (span : Span) (h : b.notes.Placed) :
    (b.closeBy source n span).notes.Placed :=
  abandon_placed source span.start n h

theorem addEndTag_placed (name : String) (span : Span) (h : b.notes.Placed) :
    (b.addEndTag source name span).notes.Placed := by
  unfold addEndTag
  split
  · exact closeBy_placed _ span h
  · exact h.report (Problem.placed rfl span)

/-- `addCloser` reports what it abandons and, if it finds no block of its kind, itself. -/
theorem addCloser_placed (kind : DirectiveKind) (span : Span) (h : b.notes.Placed) :
    (b.addCloser source kind span).notes.Placed := by
  -- a closer that does not fit what is innermost is reported, whatever it closes
  have hnoted : ∀ (problem : Problem) (e : Event), problem.isUnplaced = false →
      ((b.log e).report source (problem.on span)).notes.Placed :=
    fun problem _ hproblem => h.report (Problem.placed hproblem span)
  unfold addCloser
  dsimp only
  split
  · apply closeBy_placed
    split
    · exact h
    · apply hnoted
      split <;> rfl
  · split
    · exact h
    · apply hnoted
      split <;> rfl

theorem branchExpression_plain (r : Reading) (word : BranchWord) (run : List Token) (span : Span) :
    AllPlain (branchExpression r word run span).2 := by
  cases word with
  | elseBranch => exact .onRun? rfl run
  | elseIf =>
    refine .append (Expression.ofRun?_plain r run true) ?_
    exact .ite (.single (Problem.plain rfl span)) .nil

theorem addBranch_placed (r : Reading) (word : BranchWord) (run : List Token) (span : Span)
    (h : b.notes.Placed) : (b.addBranch r word run span).notes.Placed := by
  have hstray : ∀ problem : Problem, problem.isUnplaced = false →
      (b.addStrayBranch r.source problem span).notes.Placed :=
    fun problem hproblem => h.report (Problem.placed hproblem span)
  unfold addBranch
  split
  · split
    · split
      · exact hstray _ rfl
      · exact h.reportAll (branchExpression_plain r word run span).placed
    · exact hstray _ rfl
  · exact hstray _ rfl

/-- `Builder.add` reports what is wrong with the piece, and what does not fit it, both placed. -/
theorem add_placed (r : Reading) {p : PieceRead} (h : b.notes.Placed)
    (hp : AllPlaced p.diagnostics) : (b.add r p).notes.Placed := by
  have hnotes : ((b.notes.logAll p.events).reportAll r.source p.diagnostics).Placed :=
    (h.logAll p.events).reportAll hp
  unfold add addPiece
  cases p.piece with
  | node n => exact hnotes
  | startTag e => exact hnotes
  | endTag name span => exact addEndTag_placed name span hnotes
  | opener kind head => exact hnotes
  | branch word run span => exact addBranch_placed r word run span hnotes
  | closer kind span => exact addCloser_placed kind span hnotes
  | nothing => exact hnotes

theorem finish_placed (source : String) (stop : Nat) (h : b.notes.Placed) :
    (b.finish source stop).notes.Placed :=
  abandon_placed source stop _ h

end Builder

/-! ### Sections of code

What is said of the delimiters of sections is plain as well. -/

namespace Document

theorem openTagProblem_plain (r : Reading) (opening : Token) :
    AllPlain (openTagProblem r opening) :=
  .ite .nil (.single (Problem.plain rfl _))

theorem unclosedProblem_plain (kind : SectionKind) (opening : Token) (closing : Option Span) :
    AllPlain (unclosedProblem kind opening closing) :=
  .ite .nil (.single (Problem.plain rfl _))

theorem duplicateProblem_plain (done : Array Section) (kind : SectionKind) (opening : Token) :
    AllPlain (duplicateProblem done kind opening) :=
  .ite (.single (Problem.plain rfl _)) .nil

/-- What is wrong with a section of code is wrong with its delimiters: `openTagProblem` is all that
is reported. -/
theorem readCode_plain (r : Reading) (notes : Notes) (kind : SectionKind) (opening : Token)
    (ts : List Token) :
    ∃ ds, AllPlain ds ∧ (readCode r notes kind opening ts).notes = notes.reportAll r.source ds :=
  ⟨_, .append (.ite .nil (openTagProblem_plain r opening)) (unclosedProblem_plain kind opening _), rfl⟩

theorem readCode_placed (r : Reading) {notes : Notes} (kind : SectionKind) (opening : Token)
    (ts : List Token) (h : notes.Placed) : (readCode r notes kind opening ts).notes.Placed := by
  obtain ⟨ds, hds, hnotes⟩ := readCode_plain r notes kind opening ts
  rw [hnotes]
  exact h.reportAll hds.placed

theorem inOrder_placed {ds : List Diagnostic} (h : AllPlaced ds) : AllPlaced (inOrder ds) :=
  fun d hd => h d (List.mem_mergeSort.mp hd)

end Document

end RsxInspect
