import Mathlib.Data.Finset.Card
import RsxInspect.Proofs.Diagnostic.Log
import RsxInspect.Proofs.Template.MadePieces

/-!
# What files are made of

The two loops of a file keep what they have read well made, in the sense of `Node.Made` and
`Frame.Made`. The bricks:

* `Forest.Adds.local`: what is reported when a piece joins the forest is `Local`, since it stands on
  the piece or on a frame that is well made.
* `Progress.Made.piece`: one turn of the loop over pieces keeps the forest well made; `Reaches.made`
  is the run, by induction on `Builder.Reaches`.
* `SectionRead.Made`: what reading one section gives, for code (`readCode_made`) and for templates
  (`readTemplate_made`).
* `Filed`: what is known of the reports of the loop over sections. `Filed.opened` is one turn of it
  and `Reaches.filed` the run.

The only reports on sections as a whole are those of their own opening delimiters, which is what
lets `Filed` count them (`filter_local`). `ofTokens_filed` hands all of it over to the files that
are parsed.
-/

namespace RsxInspect

/-! ### The loop over pieces

The forest is well made for the diagnostics so far: `base`, which is there from the start, and the
reports `es` of the loop itself. -/

/-- What `Frame.unclosed` says of a frame stands on the opening of the frame, which fits the
source. -/
theorem Frame.unclosed_local {r : Reading} {ds : List Diagnostic} {a : Nat} {frame : Frame}
    (h : frame.Made r ds a) : (frame.unclosed.on frame.opening).Local r.source := by
  have hopening := h.opening
  cases frame with
  | element e children =>
    obtain ⟨t, ht, hstart⟩ := h.1.2.2.2
    exact Problem.local_tag rfl hopening ht hstart
  | block block => exact Problem.local rfl hopening

/-- What `Forest.neverClosed` says of the innermost frames is `Local`, frame by frame. -/
theorem Forest.neverClosed_local {r : Reading} {ds : List Diagnostic} {a : Nat} {f : Forest}
    (h : ∀ frame ∈ f.frames, frame.Made r ds a) (n : Nat) :
    ∀ d ∈ f.neverClosed n, d.Local r.source := by
  intro d hd
  obtain ⟨frame, hframe, rfl⟩ := List.mem_map.mp hd
  exact Frame.unclosed_local (h frame (List.mem_of_mem_take hframe))

/-- What is reported when a piece is added is `Local`: it stands on the piece (`Piece.Placed`) or on
one of the frames that are open. -/
theorem Forest.Adds.local {r : Reading} {f f' : Forest} {piece : Piece} {ds es : List Diagnostic}
    {a : Nat} (h : f.Adds r piece f' es) (hpiece : piece.Placed r)
    (hframes : ∀ frame ∈ f.frames, frame.Made r ds a) : ∀ d ∈ es, d.Local r.source := by
  cases h with
  | node | startTag | opener | closer => exact List.forall_mem_nil _
  | endTag => exact neverClosed_local hframes _
  | strayEndTag => exact List.forall_mem_singleton.mpr (Problem.local rfl hpiece)
  | branch => exact hpiece.2
  | strayBranch h =>
    refine List.forall_mem_singleton.mpr (Problem.local ?_ hpiece.1)
    rcases h with rfl | rfl <;> rfl
  | closerOver innermost h =>
    exact List.forall_mem_cons.mpr ⟨Problem.local rfl hpiece, neverClosed_local hframes _⟩
  | strayCloser h hproblem =>
    exact List.forall_mem_singleton.mpr ⟨hpiece, ⟨fun hkind => (nomatch hproblem.symm.trans hkind),
      fun hkind => (nomatch hproblem.symm.trans hkind)⟩,
      fun hkind => (nomatch hproblem.symm.trans hkind)⟩

namespace Builder

variable {r : Reading} {p₀ p : Progress} {ts₀ ts : List Token} {base es : List Diagnostic} {b : Nat}

/-- Behind the diagnostics `es`, all of them `Local`, the forest of the builder is well made for
`base ++ es`, and the findings are those of `p₀` with `es` recorded. -/
structure Progress.Made (r : Reading) (base : List Diagnostic) (p p₀ : Progress)
    (es : List Diagnostic) : Prop where
  here : ∀ d ∈ es, d.Local r.source
  findings : p.builder.notes.findings = p₀.builder.notes.findings.recordAll r.source es
  holds : p.builder.forest.Holds (Node.Made r (base ++ es)) (Frame.Made r (base ++ es) p.stop)
  stop : IsBoundary r.source p.stop

/-- **One more piece.** The list of reports grows by those of the piece and by those of adding it,
and all that was well made for a shorter list stays so (`Frame.Made.mono`). -/
theorem Progress.Made.piece {t : Token} (h : p.Made r base p₀ es)
    (htrace : Trace .template (t :: ts)) (ht : t.kind ≠ .templateClose)
    (hspaced : Spaced r.source p.stop ((t :: ts).map Token.span) b)
    (hsuffix : t :: ts <:+ significantTokens r.source)
    (hbase : BadNoted base (significantTokens r.source)) :
    ∃ es', Progress.Made r base ⟨p.builder.add r (Piece.read r t ts),
      p.taken + 1 + (Piece.read r t ts).taken, endOf t ts (Piece.read r t ts).taken⟩ p₀ es' := by
  have hrow : TokensInRow r.source (t :: ts) := (tokensInRow_significantTokens r.source).suffix hsuffix
  have hread := Piece.read_made htrace ht (fun u hu => hsuffix.subset hu) hrow
  obtain ⟨ds, hadds, hfindings⟩ := add_read r p.builder htrace ht hspaced
  have hlocal := hadds.local hread.placed h.holds.frames
  -- everything that is said so far counts
  let all := base ++ (es ++ ((Piece.read r t ts).diagnostics ++ ds))
  have hearlier : ∀ d ∈ base ++ es, d ∈ all := by
    intro d hd
    show d ∈ base ++ (es ++ _)
    rw [← List.append_assoc]
    exact List.mem_append_left _ hd
  have hholds : p.builder.forest.Holds (Node.Made r all) (Frame.Made r all t.span.start) :=
    h.holds.mono (fun n hn => hn.mono hearlier) fun frame hframe =>
      hframe.mono hearlier hspaced.ordered.1
  have hbrings := hread.brings all ds
    (fun u hu hbad => by
      obtain ⟨d, hd, hspan⟩ := hbase u (hsuffix.subset (List.mem_cons_of_mem _ hu)) hbad
      exact ⟨d, List.mem_append_left _ hd, hspan⟩)
    (fun d hd => List.mem_append_right _ (List.mem_append_right _ hd))
  refine ⟨es ++ ((Piece.read r t ts).diagnostics ++ ds), ?_, ?_, ?_, hrow.isBoundary_endOf _⟩
  · exact List.forall_mem_append.mpr
      ⟨h.here, List.forall_mem_append.mpr ⟨hread.diagnostics, hlocal⟩⟩
  · rw [hfindings, h.findings]
    exact List.foldl_append.symm
  · refine (hadds.holds hholds hbrings (fun frame n _ hframe => hframe.push n)
      fun n _ _ frame _ hframe => hframe.push n).mono (fun n hn => hn) fun frame hframe =>
        hframe.mono (fun d hd => hd) ?_
    exact hrow.start_le_endOf _

/-- **The loop over pieces keeps its forest well made**, by induction on `Builder.Reaches`. -/
theorem Reaches.made (h : Reaches r p₀ ts₀ p ts) (h₀ : Trace .template ts₀)
    (hspaced : Spaced r.source p₀.stop (ts₀.map Token.span) b)
    (hsuffix : ts₀ <:+ significantTokens r.source)
    (hbase : BadNoted base (significantTokens r.source)) (hstop : IsBoundary r.source p₀.stop)
    (hforest : p₀.builder.forest = .empty) : ∃ es, p.Made r base p₀ es := by
  induction h with
  | start =>
    refine ⟨[], List.forall_mem_nil _, rfl, ?_, hstop⟩
    rw [hforest]
    exact .empty
  | piece h ht ih =>
    obtain ⟨es, hes⟩ := ih
    exact hes.piece (h.trace h₀) ht (h.spaced h₀ hspaced) (h.suffix.trans hsuffix) hbase

end Builder

/-! ### Sections

Reading a section starts from the notes that are there and adds its reports to them. -/

/-- Where the opening delimiter of a section stands: the span of its tag or its fence. -/
def Section.opening : Section → Span
  | .frontMatter c | .script c | .style c => c.opening
  | .template t => t.opening

/-- The spans of a section can be cut out of the source, and its nodes are `Node.Made`. -/
structure Section.Made (r : Reading) (ds : List Diagnostic) (s : Section) : Prop where
  fits : Span.AllFit r.source s.spans
  nodes : ∀ n ∈ s.nodes, n.Made r ds

/-- A list of diagnostics that grows keeps a section `Made`. -/
theorem Section.Made.mono {r : Reading} {s : Section} {ds ds' : List Diagnostic} (h : s.Made r ds)
    (hds : ∀ d ∈ ds, d ∈ ds') : s.Made r ds' :=
  ⟨h.fits, fun n hn => (h.nodes n hn).mono hds⟩

namespace Document

variable {r : Reading} {notes : Notes} {opening : Token} {ts : List Token}
  {base es : List Diagnostic} {b : Nat} {kind : SectionKind}

/-- What `openTagProblem` says of an opening delimiter stands on that delimiter, which is a token of
the file. -/
theorem openTagProblem_local (h : opening ∈ significantTokens r.source) :
    ∀ d ∈ openTagProblem r opening, d.Local r.source := by
  have hspan := fits_significantTokens r.source opening h
  unfold openTagProblem
  dsimp only
  split
  · exact List.forall_mem_nil _
  · rename_i hend
    exact List.forall_mem_singleton.mpr
      (Problem.local_tag rfl hspan ⟨h, fun _ => Bool.eq_false_iff.mpr hend⟩ rfl)

/-- Reading a section of the given kind reports `es` and that it is not closed, if so; and what is
read is well made (`Section.Made`). If the opening tag has no end, then that is one of the reports.
-/
structure SectionRead.Made (r : Reading) (base : List Diagnostic) (notes : Notes)
    (kind : SectionKind) (opening : Token) (s : SectionRead Section) (es : List Diagnostic) :
    Prop where
  here : ∀ d ∈ es, d.Local r.source
  tag : kind ≠ .frontMatter → ∀ d ∈ openTagProblem r opening, d ∈ es
  findings : s.notes.findings = notes.findings.recordAll r.source
    (es ++ unclosedProblem kind opening s.content.closing)
  content : s.content.Made r (base ++ es)

/-- What `readCode` gives is made of its delimiters and the code between them, and has no nodes. -/
theorem readCode_made (notes : Notes) (kind : SectionKind)
    (h : TokensInRow r.source (opening :: ts)) (hmem : opening ∈ significantTokens r.source) :
    let s := readCode r notes kind opening ts
    Span.AllFit r.source s.content.spans ∧ ∃ es, (∀ d ∈ es, d.Local r.source) ∧
      (kind ≠ .frontMatter → ∀ d ∈ openTagProblem r opening, d ∈ es) ∧
      s.notes.findings = notes.findings.recordAll r.source
        (es ++ unclosedProblem kind opening s.content.closing) := by
  intro s
  have hopening := h.fits opening (List.mem_cons_self ..)
  refine ⟨?_, (if kind = .frontMatter then [] else openTagProblem r opening),
    forall_mem_ite (List.forall_mem_nil _) (openTagProblem_local hmem), fun hkind d hd => ?_, rfl⟩
  · refine .cons hopening (.cons ?_ (.cons (h.spanOf _) (.toList fun x hx => ?_)))
    · refine foldl_cover_fits (.point hopening.stop) fun t ht => ?_
      exact h.tail.fits t ((List.takeWhile_prefix _).subset ht)
    · obtain ⟨t, ht, rfl⟩ := Option.map_eq_some_iff.mp hx
      exact h.tail.fits t
        (List.mem_of_mem_drop (List.mem_of_mem_head? (Option.filter_eq_some_iff.mp ht).1))
  · rw [if_neg hkind]
    exact hd

/-- A template is what the loop over its pieces leaves behind. Its frames are closed where the last
piece ends, and `Forest.neverClosed` reports them. -/
theorem readTemplate_made (h : TokensInRow r.source (opening :: ts)) (htrace : Trace .template ts)
    (hspaced : Spaced r.source opening.span.stop (ts.map Token.span) b)
    (hsuffix : opening :: ts <:+ significantTokens r.source)
    (hbase : BadNoted base (significantTokens r.source)) :
    ∃ es, (SectionRead.mk (.template (readTemplate r notes opening ts).content)
      (readTemplate r notes opening ts).taken (readTemplate r notes opening ts).notes).Made r base
        notes .template opening es := by
  have hopening := h.fits opening (List.mem_cons_self ..)
  obtain ⟨p, k, hread⟩ := exists_readsTemplate r notes opening htrace hspaced
  generalize readTemplate r notes opening ts = s at hread ⊢
  obtain ⟨es, hes⟩ := hread.reaches.made htrace hspaced ((List.suffix_cons opening ts).trans hsuffix)
    hbase hopening.stop rfl
  -- what is open at the end is closed where the last piece ends
  have hnodes : ∀ n ∈ Node.subtreeAll s.content.children, n.Made r (base ++ es) := by
    rw [hread.children]
    exact hes.holds.roots_abandon
      (fun frame hframe => hframe.close hes.stop (Nat.le_refl _) nofun)
      (fun frame inner hframe => hframe.push _)
  -- the reports of the opening tag, of the loop, and of what is open at the end, in this order
  let all := openTagProblem r opening ++ (es
    ++ p.builder.forest.neverClosed p.builder.forest.frames.length)
  have hall : ∀ d ∈ base ++ es, d ∈ base ++ all := by
    intro d hd
    rcases List.mem_append.mp hd with hd | hd
    · exact List.mem_append_left _ hd
    · exact List.mem_append_right _ (List.mem_append_right _ (List.mem_append_left _ hd))
  have hmade : ∀ n ∈ Node.subtreeAll s.content.children, n.Made r (base ++ all) :=
    fun n hn => (hnodes n hn).mono hall
  refine ⟨all, ?_, fun _ d hd => List.mem_append_left _ hd, ?_, ⟨?_, hmade⟩⟩
  · exact List.forall_mem_append.mpr ⟨openTagProblem_local (hsuffix.subset (List.mem_cons_self ..)),
      List.forall_mem_append.mpr ⟨hes.here, Forest.neverClosed_local hes.holds.frames _⟩⟩
  · show s.notes.findings = _
    rw [hread.findings, hes.findings]
    show Findings.recordAll _ (Findings.recordAll _ (Findings.recordAll _ notes.findings _) _) _ = _
    simp only [all, Findings.recordAll, List.foldl_append, List.append_assoc]
    rfl
  · show Span.AllFit r.source s.content.spans
    unfold TemplateSection.spans
    rw [hread.first, hread.span, hread.closing]
    refine .cons hopening (.cons (h.spanOf _) (.append (.toList fun x hx => ?_)
      (.flatMap fun n hn => (hmade n hn).fits)))
    obtain ⟨t, ht, rfl⟩ := Option.map_eq_some_iff.mp hx
    exact h.tail.fits t (List.mem_of_mem_drop (List.mem_of_mem_head? ht))

/-- **What a section is made of**: `readSection` gives one that is `Made`, code or template. -/
theorem readSection_made (htrace : Trace kind.mode ts)
    (hspaced : Spaced r.source opening.span.stop (ts.map Token.span) b)
    (hsuffix : opening :: ts <:+ significantTokens r.source)
    (hbase : BadNoted base (significantTokens r.source)) :
    ∃ es, (readSection r notes kind opening ts).Made r base notes kind opening es := by
  have h := (tokensInRow_significantTokens r.source).suffix hsuffix
  have hcode := fun kind => readCode_made notes kind h (hsuffix.subset (List.mem_cons_self ..))
  cases kind with
  | template => exact readTemplate_made h htrace hspaced hsuffix hbase
  | frontMatter =>
    obtain ⟨hfits, es, hes, htag, hfindings⟩ := hcode .frontMatter
    exact ⟨es, hes, htag, hfindings, hfits, fun n hn => (nomatch hn)⟩
  | script =>
    obtain ⟨hfits, es, hes, htag, hfindings⟩ := hcode .script
    exact ⟨es, hes, htag, hfindings, hfits, fun n hn => (nomatch hn)⟩
  | style =>
    obtain ⟨hfits, es, hes, htag, hfindings⟩ := hcode .style
    exact ⟨es, hes, htag, hfindings, hfits, fun n hn => (nomatch hn)⟩

/-! ### Files

The tokens of the file give the first reports (`anomalies`), the loop over sections the others. -/

/-- What is wrong with the significant tokens of a file in themselves (`Token.anomaly?`). -/
def anomalies (source : String) : List Diagnostic :=
  (significantTokens source).filterMap (·.anomaly? source)

/-- A bad character is reported as such, and under no other problem. -/
theorem mem_anomalies_of_bad {source : String} {t : Token} (ht : t ∈ significantTokens source)
    (hbad : t.kind = .badCharacter) :
    (Problem.badCharacter (t.text source)).on t.span ∈ anomalies source := by
  refine List.mem_filterMap.mpr ⟨t, ht, ?_⟩
  rw [Token.anomaly?, hbad]
  rfl

/-- So the tokens of a file are `BadNoted` by their own anomalies, which is the `base` of the loop
over pieces. -/
theorem badNoted_anomalies (source : String) :
    BadNoted (anomalies source) (significantTokens source) :=
  fun _ ht hbad => ⟨_, mem_anomalies_of_bad ht hbad, rfl⟩

/-- The reports `all` of the loop over sections, in the order in which they were made: they can be
shown where they stand, each section that is not closed is reported on its opening delimiter, so is
each one whose opening tag has no end, and each one of a kind that was there before is reported.
Given these and what is wrong with the tokens (`anomalies`), the sections are well made. -/
structure Filed (r : Reading) (done : Array Section) (notes : Notes) (all : List Diagnostic) :
    Prop where
  fits : ∀ d ∈ all, d.span.Fits r.source
  findings : notes.findings = Findings.recordAll r.source [] all
  sections : ∀ s ∈ done.toList, s.Made r (anomalies r.source ++ all)
  unclosed : (all.filter (·.kind == .unterminatedSection)).map Diagnostic.span
    = (done.toList.filter (!·.isTerminated)).map Section.opening
  duplicates : all.countP (·.kind == .duplicateSection)
    + (done.toList.map Section.kind).toFinset.card = done.size
  onTags : ∀ d ∈ all, d.OnTag r.source
  tags : ∀ s ∈ done.toList, s.kind ≠ .frontMatter → ∃ t ∈ significantTokens r.source,
    s.opening = t.span ∧ ∀ d ∈ openTagProblem r t, d ∈ all

/-- What `readSection` gives has the kind that its opening token asks for. -/
theorem readSection_kind (r : Reading) (notes : Notes) (kind : SectionKind) (opening : Token)
    (ts : List Token) : (readSection r notes kind opening ts).content.kind = kind := by
  cases kind <;> rfl

/-- A section opens where its opening token stands. -/
theorem readSection_opening (r : Reading) (notes : Notes) (kind : SectionKind) (opening : Token)
    (ts : List Token) : (readSection r notes kind opening ts).content.opening = opening.span := by
  cases kind <;> rfl

/-- Diagnostics that are `Local` speak of something inside of a section, so none of them is counted
or filtered as one of a section as a whole. -/
theorem filter_local {source : String} {es : List Diagnostic} (h : ∀ d ∈ es, d.Local source) :
    es.filter (·.kind == .unterminatedSection) = [] ∧ es.countP (·.kind == .duplicateSection) = 0 := by
  refine ⟨List.filter_eq_nil_iff.mpr fun d hd => ?_, List.countP_eq_zero.mpr fun d hd => ?_⟩
  · rw [beq_iff_eq]
    exact (h d hd).kind.1
  · rw [beq_iff_eq]
    exact (h d hd).kind.2

/-- A `duplicateProblem` is reported as such and not as a section that is not closed. -/
theorem filter_duplicateProblem (done : Array Section) (kind : SectionKind) (t : Token) :
    (duplicateProblem done kind t).filter (·.kind == .unterminatedSection) = [] := by
  unfold duplicateProblem
  split <;> rfl

/-- An `unclosedProblem` is reported as such and not as a duplicate. -/
theorem countP_unclosedProblem (kind : SectionKind) (t : Token) (closing : Option Span) :
    (unclosedProblem kind t closing).countP (·.kind == .duplicateSection) = 0 := by
  unfold unclosedProblem
  split <;> rfl

/-- A section that is not closed is reported where it opens; one that is closed is not reported. -/
theorem spans_unclosedProblem {kind : SectionKind} {t : Token} {s : Section}
    (hopening : s.opening = t.span) :
    ((unclosedProblem kind t s.closing).filter (·.kind == .unterminatedSection)).map Diagnostic.span
      = ([s].filter (!·.isTerminated)).map Section.opening := by
  unfold unclosedProblem Section.isTerminated
  cases hclosing : s.closing with
  | none =>
    rw [List.filter_cons_of_pos (by rw [hclosing]; rfl), List.map_cons, hopening]
    rfl
  | some closing =>
    rw [List.filter_cons_of_neg (by rw [hclosing]; exact Bool.false_ne_true)]
    rfl

/-- Either a section is reported as a duplicate, or its kind is a new one: in both cases the count
of duplicates and the number of kinds add up to the number of sections. -/
theorem countP_duplicateProblem (done : Array Section) (kind : SectionKind) (t : Token) :
    let kinds := (done.toList.map Section.kind).toFinset
    (duplicateProblem done kind t).countP (·.kind == .duplicateSection) + (insert kind kinds).card
      = kinds.card + 1 := by
  intro kinds
  have hthere : done.any (·.kind == kind) = true ↔ kind ∈ kinds := by
    rw [List.mem_toFinset, List.mem_map, ← Array.any_toList, List.any_eq_true]
    simp only [beq_iff_eq]
  unfold duplicateProblem
  by_cases hany : done.any (·.kind == kind) = true
  · rw [if_pos hany, Finset.insert_eq_of_mem (hthere.mp hany)]
    exact Nat.add_comm 1 _
  · rw [if_neg hany, Finset.card_insert_of_notMem (mt hthere.mpr hany)]
    exact Nat.zero_add _

/-- **One more section.** The reports are those of `duplicateProblem`, of reading the section, and
of `unclosedProblem`, in this order, and each field of `Filed` looks at one of these only. -/
theorem Filed.opened {done : Array Section} {notes : Notes} {all : List Diagnostic} {t : Token}
    {s : SectionRead Section} {es : List Diagnostic} (h : Filed r done notes all)
    (hs : s = readSection r (notesAt r done notes kind t) kind t ts)
    (hmem : t ∈ significantTokens r.source)
    (hmade : s.Made r (anomalies r.source ++ all) (notesAt r done notes kind t) kind t es) :
    Filed r (done.push s.content) s.notes
      (all ++ (duplicateProblem done kind t ++ (es ++ unclosedProblem kind t s.content.closing))) := by
  have ht := fits_significantTokens r.source t hmem
  have hkind : s.content.kind = kind := hs ▸ readSection_kind ..
  have hopening : s.content.opening = t.span := hs ▸ readSection_opening ..
  obtain ⟨hunclosed, hcount⟩ := filter_local hmade.here
  -- the parts of `Filed`, in the order of its fields: where the reports stand, the findings, the
  -- sections, the unclosed ones, the duplicates, the reports on tags, and the opening tags
  refine ⟨?_, ?_, fun x hx => ?_, ?_, ?_, ?_, fun x hx hcode => ?_⟩
  · refine List.forall_mem_append.mpr ⟨h.fits, List.forall_mem_append.mpr
      ⟨?_, List.forall_mem_append.mpr ⟨fun d hd => (hmade.here d hd).fits, ?_⟩⟩⟩
    · exact forall_mem_ite (List.forall_mem_singleton.mpr ht) (List.forall_mem_nil _)
    · exact forall_mem_ite (List.forall_mem_nil _) (List.forall_mem_singleton.mpr ht)
  · rw [hmade.findings]
    show Findings.recordAll _ (Findings.recordAll _ notes.findings _) _ = _
    rw [h.findings]
    simp only [Findings.recordAll, List.foldl_append]
  · rw [Array.toList_push] at hx
    rcases List.mem_append.mp hx with hx | hx
    · refine (h.sections x hx).mono fun d hd => ?_
      rw [← List.append_assoc]
      exact List.mem_append_left _ hd
    · rw [List.mem_singleton.mp hx]
      refine hmade.content.mono fun d hd => ?_
      rcases List.mem_append.mp hd with hd | hd
      · rw [← List.append_assoc]
        exact List.mem_append_left _ hd
      · exact List.mem_append_right _ (List.mem_append_right _
          (List.mem_append_right _ (List.mem_append_left _ hd)))
  · rw [Array.toList_push, List.filter_append, List.filter_append, List.filter_append,
      List.filter_append, filter_duplicateProblem, hunclosed, List.nil_append, List.nil_append,
      List.map_append, List.map_append, h.unclosed, spans_unclosedProblem hopening]
  · have hduplicate := countP_duplicateProblem done kind t
    have hbefore := h.duplicates
    have hkinds : ((done.push s.content).toList.map Section.kind).toFinset
        = insert kind (done.toList.map Section.kind).toFinset := by
      rw [Array.toList_push, List.map_append, List.toFinset_append, Finset.union_comm]
      show [s.content.kind].toFinset ∪ _ = _
      rw [hkind, List.toFinset_cons, List.toFinset_nil, insert_empty_eq, ← Finset.insert_eq]
    rw [List.countP_append, List.countP_append, List.countP_append, hcount, countP_unclosedProblem,
      hkinds, Array.size_push]
    omega
  · refine List.forall_mem_append.mpr ⟨h.onTags, List.forall_mem_append.mpr
      ⟨?_, List.forall_mem_append.mpr ⟨fun d hd => (hmade.here d hd).tag, ?_⟩⟩⟩
    · exact forall_mem_ite (List.forall_mem_singleton.mpr nofun) (List.forall_mem_nil _)
    · exact forall_mem_ite (List.forall_mem_nil _) (List.forall_mem_singleton.mpr nofun)
  · rw [Array.toList_push] at hx
    rcases List.mem_append.mp hx with hx | hx
    · obtain ⟨u, hu, hspan, hreported⟩ := h.tags x hx hcode
      exact ⟨u, hu, hspan, fun d hd => List.mem_append_left _ (hreported d hd)⟩
    · obtain rfl := List.mem_singleton.mp hx
      refine ⟨t, hmem, hopening, fun d hd => List.mem_append_right _ (List.mem_append_right _
        (List.mem_append_left _ (hmade.tag (hkind ▸ hcode) d hd)))⟩

/-- **The loop over sections.** Whatever the file, all that it reports can be shown where it stands,
and its sections are well made, by induction on `Document.Reaches`. -/
theorem Reaches.filed {done : Array Section}
    (h : Reaches r #[] .empty (significantTokens r.source) done notes ts) :
    ∃ all, Filed r done notes all := by
  induction h with
  | start =>
    exact ⟨[], List.forall_mem_nil _, rfl, fun s hs => (nomatch hs), rfl, rfl, List.forall_mem_nil _,
      fun s hs => (nomatch hs)⟩
  | @opened done notes t ts kind s h hkind hs ih =>
    obtain ⟨all, hall⟩ := ih
    have hbetween := h.between
    -- what the scan reports of bad characters is in the list already, whatever the section adds
    have hbase : BadNoted (anomalies r.source ++ all) (significantTokens r.source) := by
      intro u hu hbad
      obtain ⟨d, hd, hspan⟩ := badNoted_anomalies r.source u hu hbad
      exact ⟨d, List.mem_append_left _ hd, hspan⟩
    obtain ⟨es, hes⟩ : ∃ es, s.Made r (anomalies r.source ++ all) (notesAt r done notes kind t) kind t
        es := by
      rw [hs]
      exact readSection_made (hbetween.mode hkind) hbetween.spaced_behind hbetween.suffix hbase
    exact ⟨_, hall.opened hs (hbetween.suffix.subset (List.mem_cons_self ..)) hes⟩
  | skipped h hkind ih =>
    rw [if_pos (h.between.bad hkind)]
    exact ih

/-- So are all the nodes of a file, through all of its sections (`Document.allNodes`). -/
theorem Filed.nodes {d : Document} {all : List Diagnostic}
    (h : Filed r d.sections.toArray notes all) :
    ∀ n ∈ d.allNodes, n.Made r (anomalies r.source ++ all) := by
  intro n hn
  obtain ⟨s, hs, hn⟩ := List.mem_flatMap.mp hn
  exact (h.sections s hs).nodes n hn

/-- The diagnostics of a file are those in the logs of its tokens and of the loop over sections, up
to their order: `Parsed.diagnostics` sorts them. -/
theorem perm_diagnostics (r : Reading) (ts : List Token) :
    (ofTokens r ts).diagnostics.Perm
      (Findings.ofTokens r.source ts ++ (readFrom r #[] .empty ts).2.findings) :=
  (List.mergeSort_perm _ _).trans (.append (List.reverse_perm _) (List.reverse_perm _))

/-- **What a file is made of.** The diagnostics are those of the tokens and the reports of the loop
over sections, each folded into a log (`Findings.recordAll`), and the file is `Filed` by the
latter. -/
theorem ofTokens_filed (r : Reading) :
    let parsed := ofTokens r (significantTokens r.source)
    ∃ all notes, Filed r parsed.document.sections.toArray notes all ∧
      parsed.diagnostics.Perm (Findings.recordAll r.source [] (anomalies r.source)
        ++ Findings.recordAll r.source [] all) := by
  intro parsed
  obtain ⟨all, hall⟩ := (reaches_end r r.source).filed
  refine ⟨all, _, hall, ?_⟩
  rw [← show _ = Findings.recordAll r.source [] all from hall.findings]
  exact perm_diagnostics r _

end Document

end RsxInspect
