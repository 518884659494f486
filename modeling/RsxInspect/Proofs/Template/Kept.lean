import RsxInspect.Proofs.Diagnostic.Log
import RsxInspect.Proofs.Template.Agreement
import RsxInspect.Proofs.Template.Steps

/-!
# What the loops keep

What is complete stays as it is: a node at the top of a template and a section of a file are never
touched again, and what was reported stays in the log. The bricks:

* `Forest.Adds.roots`: the roots of a forest are the first ones of what adding a piece makes of it.
* `Builder.Keeps`: this and that a clean log was clean before; one step (`add_keeps`) and all steps
  (`readFrom_keeps`).
* `Document.Reaches.keeps`: the same for the loop over sections.
* `Document.diagnostics_eq_nil_iff`: a file is clean if its tokens and the loop are.

So the first piece of a template, if that is a node, is its first child, and if nothing is reported
at the end, then nothing was reported of that piece (`Document.exists_first_child`).
-/

namespace RsxInspect

/-! ### The loop over pieces

Roots and findings only grow: nothing that is at the front of the roots moves, and no finding is
taken back. -/

namespace Forest

/-- A node that `push` adds comes behind the roots, or into a frame. -/
theorem roots_push (f : Forest) (n : Node) : f.roots.toList <+: (f.push n).roots.toList := by
  obtain ⟨roots, frames⟩ := f
  cases frames with
  | nil =>
    show roots.toList <+: (roots.push n).toList
    rw [Array.toList_push]
    exact List.prefix_append _ _
  | cons inner outer => exact List.prefix_refl _

/-- A frame that `closeInnermost` closes comes behind the roots, or into another frame. -/
theorem roots_closeInnermost (f : Forest) (stop : Nat) (closing : Option Span) :
    f.roots.toList <+: (f.closeInnermost stop closing).roots.toList := by
  obtain ⟨roots, frames⟩ := f
  cases frames with
  | nil => exact List.prefix_refl _
  | cons inner outer => exact roots_push ⟨roots, outer⟩ (inner.close stop closing)

/-- So do frames that `abandon` closes. -/
theorem roots_abandon (f : Forest) (stop n : Nat) :
    f.roots.toList <+: (f.abandon stop n).roots.toList := by
  induction n generalizing f with
  | zero => exact List.prefix_refl _
  | succ n ih => exact (f.roots_closeInnermost stop none).trans (ih _)

/-- And those that `closeBy` closes. -/
theorem roots_closeBy (f : Forest) (n : Nat) (span : Span) :
    f.roots.toList <+: (f.closeBy n span).roots.toList :=
  (f.roots_abandon span.start n).trans (roots_closeInnermost _ _ _)

/-- Whatever a piece `Adds` to a forest, the roots stay in front. -/
theorem Adds.roots {r : Reading} {f f' : Forest} {piece : Piece} {ds : List Diagnostic}
    (h : f.Adds r piece f' ds) : f.roots.toList <+: f'.roots.toList := by
  cases h with
  | node | strayEndTag | strayBranch | strayCloser => exact roots_push f _
  | startTag | opener | branch => exact List.prefix_refl _
  | endTag | closer | closerOver => exact roots_closeBy f _ _

end Forest

namespace Builder

variable {r : Reading} {b c d : Builder}

/-- The nodes at the top of the builder `b` are the first ones of `c`, and what was reported is not
lost: if `c` has no findings, neither has `b`. -/
structure Keeps (b c : Builder) : Prop where
  roots : b.forest.roots.toList <+: c.forest.roots.toList
  clean : c.notes.findings = [] → b.notes.findings = []

/-- A builder `Keeps` what it has. -/
theorem Keeps.refl (b : Builder) : b.Keeps b := ⟨List.prefix_refl _, id⟩

/-- What is kept twice is kept. -/
theorem Keeps.trans (h : b.Keeps c) (h' : c.Keeps d) : b.Keeps d :=
  ⟨h.roots.trans h'.roots, fun hd => h.clean (h'.clean hd)⟩

/-- `Builder.add` keeps what is there, and the report on the piece. -/
theorem add_keeps (r : Reading) (b : Builder) (read : PieceRead) :
    b.Keeps (b.add r read) ∧ ((b.add r read).notes.findings = [] → read.diagnostics = []) := by
  obtain ⟨ds, hroots, hfindings⟩ : ∃ ds,
      b.forest.roots.toList <+: (b.add r read).forest.roots.toList ∧
        (b.add r read).notes.findings
          = b.notes.findings.recordAll r.source (read.diagnostics ++ ds) := by
    by_cases hnothing : read.piece = .nothing
    · -- bad characters leave the forest as it is
      have hadd : b.add r read = ⟨b.forest,
          (b.notes.logAll read.events).reportAll r.source read.diagnostics⟩ := by
        unfold add
        exact congrArg (addPiece _ r) hnothing
      refine ⟨[], ?_, ?_⟩
      · exact hadd ▸ List.prefix_refl b.forest.roots.toList
      · rw [hadd, List.append_nil]
        show (b.notes.logAll read.events).findings.recordAll r.source read.diagnostics = _
        rw [Notes.findings_logAll]
    · obtain ⟨ds, hadds, hfindings⟩ := add_adds r b hnothing
      exact ⟨ds, hadds.roots, hfindings⟩
  have hclean : (b.add r read).notes.findings = [] →
      b.notes.findings = [] ∧ read.diagnostics ++ ds = [] := fun h =>
    Findings.recordAll_eq_nil_iff.mp (hfindings.symm.trans h)
  exact ⟨⟨hroots, fun h => (hclean h).1⟩, fun h => (List.append_eq_nil_iff.mp (hclean h).2).1⟩

/-- From one top to another that it `Reaches` the loop keeps all. -/
theorem Reaches.keeps {p₀ p : Progress} {ts₀ ts : List Token} (h : Reaches r p₀ ts₀ p ts) :
    p₀.builder.Keeps p.builder := by
  induction h with
  | start => exact .refl _
  | piece h ht ih => exact ih.trans (add_keeps r _ _).1

/-- From the start to the end of the loop all is kept. -/
theorem readFrom_keeps (r : Reading) (p : Progress) (ts : List Token) :
    p.builder.Keeps (readFrom r p ts).builder := by
  have hstart : Reaches r p ts p ts := .start
  obtain ⟨rest, hend⟩ := hstart.exists_end
  exact hend.keeps

/-- `finish`, which closes what is open at the end, keeps the roots. -/
theorem finish_keeps (b : Builder) (source : String) (stop : Nat) :
    b.Keeps (b.finish source stop) := by
  obtain ⟨hforest, hfindings⟩ := b.finish_eq source stop
  refine ⟨?_, fun h => (Findings.recordAll_eq_nil_iff.mp (hfindings.symm.trans h)).1⟩
  rw [hforest]
  exact b.forest.roots_abandon _ _

end Builder

/-! ### The loop over sections

So where nothing is reported in the end, nothing was reported on the way, and the first piece and
the first section are still there. -/

namespace Document

variable {r : Reading} {done₀ done : Array Section} {notes₀ notes : Notes} {ts₀ ts : List Token}

/-- If nothing is reported when `readTemplate` ends, then nothing was at its start. -/
theorem readTemplate_clean {opening : Token}
    (h : (readTemplate r notes opening ts).notes.findings = []) : notes.findings = [] := by
  have hfinish := (Findings.recordAll_eq_nil_iff.mp h).1
  have hpieces := (Builder.finish_keeps _ _ _).clean hfinish
  exact (Findings.recordAll_eq_nil_iff.mp ((Builder.readFrom_keeps _ _ _).clean hpieces)).1

/-- The same for any section. -/
theorem readSection_clean {kind : SectionKind} {opening : Token}
    (h : (readSection r notes kind opening ts).notes.findings = []) : notes.findings = [] := by
  cases kind with
  | template => exact readTemplate_clean h
  | frontMatter | script | style => exact (Findings.recordAll_eq_nil_iff.mp h).1

/-- Sections that are read stay in front, and what was reported stays, by induction on
`Document.Reaches`. -/
theorem Reaches.keeps (h : Reaches r done₀ notes₀ ts₀ done notes ts) :
    done₀.toList <+: done.toList ∧ (notes.findings = [] → notes₀.findings = []) := by
  induction h with
  | start => exact ⟨List.prefix_refl _, id⟩
  | opened h hkind hs ih =>
    refine ⟨?_, fun hclean => ih.2 ?_⟩
    · rw [Array.toList_push]
      exact ih.1.trans (List.prefix_append _ _)
    · rw [hs] at hclean
      exact (Findings.recordAll_eq_nil_iff.mp (readSection_clean hclean)).1
  | @skipped done notes t ts h hkind ih =>
    refine ⟨ih.1, fun hclean => ih.2 ?_⟩
    split at hclean
    · exact hclean
    · have hlog : Findings.recordAll r.source notes.findings [_] = [] := hclean
      exact (Findings.recordAll_eq_nil_iff.mp hlog).1

/-- Nothing is reported of a file if nothing is wrong with its tokens (`Findings.ofTokens`) and the
loop reports nothing. -/
theorem diagnostics_eq_nil_iff {ts : List Token} :
    (ofTokens r ts).diagnostics = [] ↔
      Findings.ofTokens r.source ts = [] ∧ (readFrom r #[] .empty ts).2.findings = [] := by
  have hperm : (ofTokens r ts).diagnostics.Perm ((Findings.ofTokens r.source ts).reverse
      ++ (readFrom r #[] .empty ts).2.findings.reverse) := List.mergeSort_perm _ _
  rw [← List.perm_nil, hperm.congr_left, List.perm_nil, List.append_eq_nil_iff,
    List.reverse_eq_nil_iff, List.reverse_eq_nil_iff]

/-- The first piece of a template, if that is a node, is its first child. If nothing is reported in
the end, nothing was reported of this piece either. -/
theorem exists_first_child {first : Token} {n : Node} (notes : Notes) (opening : Token)
    (hfirst : first.kind ≠ .templateClose) (hn : (Piece.read r first ts).piece = .node n) :
    (∃ ns, (readTemplate r notes opening (first :: ts)).content.children = n :: ns) ∧
      ((readTemplate r notes opening (first :: ts)).notes.findings = [] →
        (Piece.read r first ts).diagnostics = []) := by
  let b : Builder := ⟨.empty, notes.reportAll r.source (openTagProblem r opening)⟩
  -- behind the first piece
  let p : Builder.Progress := ⟨b.add r (Piece.read r first ts),
    0 + 1 + (Piece.read r first ts).taken, endOf first ts (Piece.read r first ts).taken⟩
  let q := Builder.readFrom r p (ts.drop (Piece.read r first ts).taken)
  have hread : Builder.readFrom r ⟨b, 0, opening.span.stop⟩ (first :: ts) = q := by
    rw [Builder.readFrom, if_neg hfirst]
  have hkeeps : p.builder.Keeps (q.builder.finish r.source q.stop) :=
    (Builder.readFrom_keeps ..).trans (Builder.finish_keeps ..)
  have hroots : p.builder.forest.roots.toList = [n] := by
    show (b.add r (Piece.read r first ts)).forest.roots.toList = [n]
    unfold Builder.add
    rw [hn]
    rfl
  unfold readTemplate
  dsimp only
  rw [hread]
  refine ⟨?_, fun hclean => ?_⟩
  · obtain ⟨ns, hns⟩ := hkeeps.roots
    rw [hroots] at hns
    exact ⟨ns, hns.symm⟩
  · have hfinish := (Findings.recordAll_eq_nil_iff.mp hclean).1
    exact (Builder.add_keeps r b _).2 (hkeeps.clean hfinish)

/-- A file that starts with the opening delimiter of a section has that as its first section, and is
clean only if it is. -/
theorem exists_first_section (r : Reading) (ts : List Token) {opening : Token} {kind : SectionKind}
    (hopening : sectionOpenedBy? opening.kind = some kind) :
    let s := readSection r (notesAt r #[] .empty kind opening) kind opening ts
    (∃ more, (ofTokens r (opening :: ts)).document.sections = s.content :: more) ∧
      ((ofTokens r (opening :: ts)).diagnostics = [] → s.notes.findings = []) := by
  intro s
  have hstart : Reaches r #[] .empty (opening :: ts) #[] .empty (opening :: ts) := .start
  have hopened := hstart.opened hopening (s := s) rfl
  have hbehind : Reaches r (#[].push s.content) s.notes (ts.drop s.taken) (#[].push s.content)
      s.notes (ts.drop s.taken) := .start
  obtain ⟨⟨more, hmore⟩, hclean⟩ := hbehind.exists_end.keeps
  rw [hopened.readFrom_eq] at hmore hclean
  exact ⟨⟨more, hmore.symm⟩, fun h => hclean (diagnostics_eq_nil_iff.mp h).2⟩

end Document

end RsxInspect
