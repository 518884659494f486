import RsxInspect.Proofs.Template.Lossless
import RsxInspect.Proofs.Template.Reported

/-!
# The scanner and the readers agree on where they are

Reading a file is a loop over sections (`Document.readFrom`), and reading a template is a loop over
pieces (`Builder.readFrom`). `Document.Reaches` and `Builder.Reaches` say which tokens are next at
the top of a loop. Whatever is wrong with the file, the top of the loop over pieces is where the
scanner was in markup, and the top of the loop over sections is where it was between sections. The
bricks:

* `Token.readIn_template`: the kinds that a piece can start with (`TokenKind.startsPiece`) are read
  in markup only, so such a token was read there.
* `Builder.Reaches.trace`: at each top of the loop over pieces a `Trace` of markup goes on, since
  every piece ends where markup does (`Piece.read_stops`).
* `Between`: what holds at each top of the loop over sections. `Between.opened` and
  `Between.skipped` are the two steps of the loop, and `Reaches.between` is the induction over them.
* `readSection_placed`: no reader reports a token that has no place, as long as it starts where it
  should.

`readers_agree` puts this together: no token is ever found to have no place, so the last branches of
both loops are never taken.
-/

namespace RsxInspect

/-- The token `t` is read by some call of the scanner of the source, while the scanner is in the
given mode. -/
def Token.ReadIn (t : Token) (source : String) (mode : Mode) : Prop :=
  ∃ k, (Scanner.ofSource source).tokenAt k = t ∧ ((Scanner.ofSource source).after k).state.mode = mode

/-- The kinds that a piece can start with (`TokenKind.startsPiece`) are read in markup only: every
`Transition` by such a kind starts in the mode `.template`. -/
theorem Transition.eq_template {m n : Mode} {k : TokenKind} (h : Transition m k n)
    (hk : k.startsPiece = true) : m = .template := by
  cases h with
  | expression h | plainExpression h | keyword h =>
    revert h hk
    cases k <;> decide
  | comment | endTagOpen | startTagOpen | directiveBraces | expressionBraces | text => rfl
  | _ => cases hk

/-- So a significant token of such a kind was read in markup (`Token.ReadIn`). -/
theorem Token.readIn_template {source : String} {t : Token} (ht : t ∈ significantTokens source)
    (hk : t.kind.startsPiece = true) : t.ReadIn source .template := by
  have hmem : t ∈ (Scanner.ofSource source).toEnd.1.toList := (List.mem_filter.mp ht).1
  obtain ⟨k, htoken, hstep⟩ := (Scanner.ofSource source).reads_toEnd.exists_tokenAt hmem
  exact ⟨k, htoken, hstep.eq_template hk⟩

/-- In markup stands a token that a piece can start with, or the closing tag: the head of a `Trace`
from `.template` has one of these kinds. -/
theorem Trace.startsPiece {t : Token} {ts : List Token} (h : Trace .template (t :: ts))
    (ht : t.kind ≠ .templateClose) : t.kind.startsPiece = true := by
  rcases h.piece_cases ht with ⟨hkind, -⟩ | ⟨hkind, -⟩ | ⟨hkind, -⟩ | ⟨hkind, -⟩ | ⟨hkind, -⟩
  all_goals rw [hkind]; rfl

/-! ### The loop over pieces

The tops of the loop are an inductive relation, so what holds at all of them is shown by one case
for the start and one for a piece. -/

namespace Builder

variable {r : Reading} {p₀ p : Progress} {ts₀ ts : List Token}

/-- `Builder.readFrom` from `p₀` on comes to the top of its loop with the progress `p` in front of
the tokens `ts`. It leaves the loop in front of a `.templateClose`, so there is no step from
there. -/
inductive Reaches (r : Reading) (p₀ : Progress) (ts₀ : List Token) : Progress → List Token → Prop where
  | start : Reaches r p₀ ts₀ p₀ ts₀
  | piece {p : Progress} {t : Token} {ts : List Token} (h : Reaches r p₀ ts₀ p (t :: ts))
      (ht : t.kind ≠ .templateClose) :
      Reaches r p₀ ts₀
        ⟨p.builder.add r (Piece.read r t ts), p.taken + 1 + (Piece.read r t ts).taken,
          endOf t ts (Piece.read r t ts).taken⟩
        (ts.drop (Piece.read r t ts).taken)

namespace Reaches

/-- `readFrom` ends at one of the tops that it `Reaches`, so what holds at all of them holds of its
result. -/
theorem exists_end (h : Reaches r p₀ ts₀ p ts) :
    ∃ rest, Reaches r p₀ ts₀ (readFrom r p ts) rest := by
  induction p, ts using Builder.readFrom.induct r with
  | case1 p =>
    rw [readFrom]
    exact ⟨[], h⟩
  | case2 p t ts hclose =>
    rw [readFrom, if_pos hclose]
    exact ⟨t :: ts, h⟩
  | case3 p t ts hclose piece ih =>
    rw [readFrom, if_neg hclose]
    exact ih (h.piece hclose)

/-- The tokens that are next are the last ones of those at the start. -/
theorem suffix (h : Reaches r p₀ ts₀ p ts) : ts <:+ ts₀ := by
  induction h with
  | start => exact List.suffix_refl ts₀
  | piece h ht ih => exact (List.drop_suffix _ _).trans ((List.suffix_cons _ _).trans ih)

/-- At the top of the loop markup goes on, since each piece stops where it does
(`Piece.read_stops`). -/
theorem trace (h : Reaches r p₀ ts₀ p ts) (h₀ : Trace .template ts₀) : Trace .template ts := by
  induction h with
  | start => exact h₀
  | piece h ht ih => exact (Piece.read_stops r ih ht).2

/-- The notes say of no token that it has no place (`Notes.Placed`), if they do not at the start. -/
theorem placed (h : Reaches r p₀ ts₀ p ts) (h₀ : Trace .template ts₀)
    (hnotes : p₀.builder.notes.Placed) : p.builder.notes.Placed := by
  induction h with
  | start => exact hnotes
  | piece h ht ih => exact add_placed r ih (Piece.read_plain r ((h.trace h₀).startsPiece ht) _).placed

end Reaches

/-- The same for what the loop ends with. -/
theorem readFrom_placed (r : Reading) (p : Progress) (h : Trace .template ts)
    (hnotes : p.builder.notes.Placed) : (readFrom r p ts).builder.notes.Placed := by
  have hstart : Reaches r p ts p ts := .start
  obtain ⟨rest, hend⟩ := hstart.exists_end
  exact hend.placed h hnotes

end Builder

/-! ### The loop over sections

Here the invariant is `Between`. It has to carry that the tokens are a rest of the file, since the
spans of a section are found from the offsets of its tokens. -/

namespace Document

variable {r : Reading} {done₀ done : Array Section} {notes₀ notes : Notes} {ts₀ ts : List Token}

/-- A template reports no token without a place: its pieces do not, and what is said about its tags
and its open frames is plain. -/
theorem readTemplate_placed (opening : Token) (h : Trace .template ts) (hnotes : notes.Placed) :
    (readTemplate r notes opening ts).notes.Placed := by
  have hpieces := Builder.readFrom_placed r
    ⟨⟨.empty, notes.reportAll r.source (openTagProblem r opening)⟩, 0, opening.span.stop⟩ h
    (hnotes.reportAll (openTagProblem_plain r opening).placed)
  have hclosing := unclosedProblem_plain .template opening
    (readTemplate r notes opening ts).content.closing
  exact (Builder.finish_placed r.source _ hpieces).reportAll hclosing.placed

/-- The same for any section that starts in its own mode (`SectionKind.mode`). -/
theorem readSection_placed (kind : SectionKind) (opening : Token) (h : Trace kind.mode ts)
    (hnotes : notes.Placed) : (readSection r notes kind opening ts).notes.Placed := by
  cases kind with
  | template => exact readTemplate_placed opening h hnotes
  | frontMatter => exact readCode_placed r .frontMatter opening ts hnotes
  | script => exact readCode_placed r .script opening ts hnotes
  | style => exact readCode_placed r .style opening ts hnotes

/-- The `Notes` at the start of a section: a further section of a kind is reported, and the event is
logged. -/
def notesAt (r : Reading) (done : Array Section) (notes : Notes) (kind : SectionKind)
    (opening : Token) : Notes :=
  (notes.reportAll r.source (duplicateProblem done kind opening)).log
    (.enterSection kind opening.span.start)

/-- Where the loop over the pieces of a template starts, behind its opening tag: nothing is open or
read, and the tag has been checked (`openTagProblem`). -/
def piecesAt (r : Reading) (done : Array Section) (notes : Notes) (opening : Token) :
    Builder.Progress :=
  ⟨⟨.empty, (notesAt r done notes .template opening).reportAll r.source (openTagProblem r opening)⟩,
    0, opening.span.stop⟩

/-- This loop is the one that finds the children of the template: they are the roots of the forest
that `finish` leaves. -/
theorem children_readTemplate (r : Reading) (done : Array Section) (notes : Notes) (opening : Token)
    (ts : List Token) :
    let p := Builder.readFrom r (piecesAt r done notes opening) ts
    (readTemplate r (notesAt r done notes .template opening) opening ts).content.children
      = (p.builder.finish r.source p.stop).forest.roots.toList := rfl

/-- `Document.readFrom` comes to the top of its loop with the sections `done` and the notes `notes`
in front of the tokens `ts`. A token that opens a section is read with it, any other one is
skipped. -/
inductive Reaches (r : Reading) (done₀ : Array Section) (notes₀ : Notes) (ts₀ : List Token) :
    Array Section → Notes → List Token → Prop where
  | start : Reaches r done₀ notes₀ ts₀ done₀ notes₀ ts₀
  | opened {done : Array Section} {notes : Notes} {t : Token} {ts : List Token} {kind : SectionKind}
      {s : SectionRead Section} (h : Reaches r done₀ notes₀ ts₀ done notes (t :: ts))
      (hkind : sectionOpenedBy? t.kind = some kind)
      (hs : s = readSection r (notesAt r done notes kind t) kind t ts) :
      Reaches r done₀ notes₀ ts₀ (done.push s.content) s.notes (ts.drop s.taken)
  | skipped {done : Array Section} {notes : Notes} {t : Token} {ts : List Token}
      (h : Reaches r done₀ notes₀ ts₀ done notes (t :: ts))
      (hkind : sectionOpenedBy? t.kind = none) :
      Reaches r done₀ notes₀ ts₀ done
        (if t.kind = .badCharacter then notes
          else notes.report r.source (r.unexpected t .outsideSections)) ts

namespace Reaches

/-- From each top that the loop `Reaches`, `readFrom` gives the same as from the start. -/
theorem readFrom_eq (h : Reaches r done₀ notes₀ ts₀ done notes ts) :
    readFrom r done notes ts = readFrom r done₀ notes₀ ts₀ := by
  induction h with
  | start => rfl
  | opened h hkind hs ih =>
    rw [← ih, hs]
    conv => rhs; rw [readFrom, hkind]
    rfl
  | skipped h hkind ih =>
    rw [← ih]
    conv => rhs; rw [readFrom, hkind]

/-- The loop ends when all tokens are taken, at a top with none left. -/
theorem exists_end (h : Reaches r done₀ notes₀ ts₀ done notes ts) :
    Reaches r done₀ notes₀ ts₀ (readFrom r done notes ts).1 (readFrom r done notes ts).2 [] := by
  induction done, notes, ts using Document.readFrom.induct r with
  | case1 done notes =>
    rw [readFrom]
    exact h
  | case2 done notes t ts kind hkind notes' s ih =>
    rw [readFrom, hkind]
    exact ih (h.opened hkind rfl)
  | case3 done notes t ts hkind notes' ih =>
    rw [readFrom, hkind]
    exact ih (h.skipped hkind)

end Reaches

/-- What holds at the tops of `Document.readFrom`, the loop over the sections of a file: the tokens
are the last ones of the file, the scanner was between sections, and no note says that a token has
no place. -/
structure Between (source : String) (notes : Notes) (ts : List Token) : Prop where
  suffix : ts <:+ significantTokens source
  trace : Trace .initial ts
  placed : notes.Placed

/-- A token at the top of the loop opens a section, or is bad. Blanks are no significant tokens, and
nothing else is read in the mode `.initial`. -/
theorem Between.head {t : Token} {source : String} (h : Between source notes (t :: ts)) :
    t.kind = .badCharacter ∨ (sectionOpenedBy? t.kind).isSome = true := by
  obtain ⟨n, hstep, -⟩ := h.trace.of_cons
  have hblank := h.trace.kind_ne_whitespace
  generalize t.kind = k at hstep hblank
  cases hstep with
  | blankBetween => exact absurd rfl hblank
  | badBetween => exact .inl rfl
  | _ => exact .inr rfl

/-- Behind a section the loop is between sections again: the section takes all tokens up to where
the scanner was in the mode `.initial` (`readSection_stops`). -/
theorem Between.opened {source : String} {t : Token} {kind : SectionKind}
    {s : SectionRead Section} (h : Between source notes (t :: ts))
    (hkind : sectionOpenedBy? t.kind = some kind)
    (hs : s = readSection r (notesAt r done notes kind t) kind t ts) :
    Between source s.notes (ts.drop s.taken) := by
  subst hs
  rcases h.trace.section_cases with ⟨kind', hkind', hmode⟩ | ⟨hnone, -⟩
  · cases hkind.symm.trans hkind'
    have hts : ts <:+ significantTokens source := (List.suffix_cons t ts).trans h.suffix
    -- where the tokens behind start is not known, and not needed
    obtain ⟨c, hspaced⟩ : ∃ c, Spaced source c (ts.map Token.span)
        (Scanner.ofSource source).toEnd.2.offset := by
      obtain ⟨before, hbefore⟩ := hts
      have hall := spaced_significantTokens source
      rw [← hbefore, List.map_append] at hall
      exact hall.behind
    refine ⟨(List.drop_suffix _ ts).trans hts, readSection_stops hmode hspaced, ?_⟩
    apply readSection_placed kind t hmode
    exact h.placed.reportAll (duplicateProblem_plain done kind t).placed
  · rw [hnone] at hkind
    cases hkind

/-- Only bad characters are skipped, and they are reported as such already; so the last branch of
the loop reports nothing. -/
theorem Between.skipped {source : String} {t : Token} (h : Between source notes (t :: ts))
    (hkind : sectionOpenedBy? t.kind = none) :
    Between source (if t.kind = .badCharacter then notes
      else notes.report r.source (r.unexpected t .outsideSections)) ts := by
  rcases h.trace.section_cases with ⟨kind, hopens, -⟩ | ⟨-, hrest⟩
  · rw [hopens] at hkind
    cases hkind
  · have hbad : t.kind = .badCharacter := by
      rcases h.head with hbad | hopens
      · exact hbad
      · rw [hkind] at hopens
        cases hopens
    rw [if_pos hbad]
    exact ⟨(List.suffix_cons t ts).trans h.suffix, hrest, h.placed⟩

/-- The loop over the sections of a file stays `Between` sections, by induction over its steps. -/
theorem Reaches.between {source : String}
    (h : Reaches r #[] .empty (significantTokens source) done notes ts) : Between source notes ts := by
  induction h with
  | start => exact ⟨List.suffix_refl _, trace_significantTokens source, AllPlain.nil.placed⟩
  | opened h hkind hs ih => exact ih.opened hkind hs
  | skipped h hkind ih => exact ih.skipped hkind

/-- None of the diagnostics of `Document.ofTokens` says that a token has no place. They are those of
the tokens, then those of the loop. -/
theorem ofTokens_placed (r : Reading) :
    AllPlaced (ofTokens r (significantTokens r.source)).diagnostics := by
  let ts := significantTokens r.source
  have hstart : Reaches r #[] .empty ts #[] .empty ts := .start
  have hnotes : AllPlaced (readFrom r #[] .empty ts).2.findings := hstart.exists_end.between.placed
  have hlexical : AllPlaced (Findings.ofTokens r.source ts) :=
    Findings.recordAll_placed AllPlain.nil.placed (allPlain_anomalies _ _).placed
  apply inOrder_placed
  intro d hd
  rcases List.mem_append.mp hd with hd | hd
  · exact hlexical d (List.mem_reverse.mp hd)
  · exact hnotes d (List.mem_reverse.mp hd)

end Document

/-- **The scanner and the readers agree.** Let the scan of a file reach the end; the file is read from
its significant tokens then, unless the scan of a value in it stands still (`Document.valuesEnd`). At
the top of the loop over its sections (`Document.Reaches`) stands nothing, a bad character or a token
that opens a section; at the top of the loop over the pieces of a template (`Builder.Reaches`) stands
nothing, the closing tag or a token that was read in markup, and no bad character. So no diagnostic
says that a token stands outside of any section or in the template (`SaysUnplaced`). -/
theorem readers_agree (source : String) (withTrees : Bool)
    (h : (Scanner.ofSource source).toEnd?.isSome = true) :
    let r : Reading := ⟨source, withTrees⟩
    let tokens := significantTokens source
    Document.parse? source withTrees
        = (if Document.valuesEnd source tokens then some (Document.ofTokens r tokens) else none) ∧
      (∀ done notes t ts, Document.Reaches r #[] .empty tokens done notes (t :: ts) →
        t.kind ∈ [.badCharacter, .frontMatterDelimiter, .scriptOpen, .templateOpen, .styleOpen]) ∧
      (∀ done notes opening behind,
        Document.Reaches r #[] .empty tokens done notes (opening :: behind) →
        opening.kind = .templateOpen → ∀ p t ts,
          Builder.Reaches r (Document.piecesAt r done notes opening) behind p (t :: ts) →
          t.kind = .templateClose ∨
            t.kind ∈ [.tagOpen, .tagEndOpen, .text, .comment, .interpolationOpen] ∧
              t.ReadIn source .template) ∧
      ∀ d ∈ (Document.ofTokens r tokens).diagnostics, ¬ SaysUnplaced d.message := by
  intro r tokens
  refine ⟨Document.parse?_eq_ite withTrees h, ?_, ?_, Document.ofTokens_placed r⟩
  · intro done notes t ts hreaches
    rcases hreaches.between.head with hbad | hopens
    · rw [hbad]
      decide
    · revert hopens
      cases t.kind <;> decide
  · intro done notes opening behind hreaches hopening p t ts hpieces
    have hbetween := hreaches.between
    -- behind the opening tag of a template the scanner is in markup
    have hmarkup : Trace .template behind := by
      obtain ⟨n, hstep, hrest⟩ := hbetween.trace.of_cons
      rw [hopening] at hstep
      cases hstep
      exact hrest
    by_cases hclose : t.kind = .templateClose
    · exact .inl hclose
    · have hstarts := (hpieces.trace hmarkup).startsPiece hclose
      have hmem : t ∈ significantTokens source := by
        apply hbetween.suffix.subset
        exact List.mem_cons_of_mem _ (hpieces.suffix.subset (List.mem_cons_self ..))
      refine .inr ⟨?_, Token.readIn_template hmem hstarts⟩
      revert hstarts
      cases t.kind <;> decide

/-- A stray `=` in a start tag, junk in an end tag, braces that are not closed, and a bad character
behind it all. -/
theorem readers_agree_malformed :
    let source := String.ofList "<template><a =b></b c%>\x7b\x7b@each x</template>%".toList
    (Scanner.ofSource source).toEnd?.isSome = true ∧
      ∃ parsed, Document.parse? source true = some parsed ∧
        ∀ d ∈ parsed.diagnostics, ¬ SaysUnplaced d.message := by
  intro source
  have hend : (Scanner.ofSource source).toEnd?.isSome = true := by decide +kernel
  have hvalues : Document.valuesEnd source (significantTokens source) = true := by decide +kernel
  obtain ⟨hparse, -, -, hplaced⟩ := readers_agree source true hend
  exact ⟨hend, _, hparse.trans (if_pos hvalues), hplaced⟩

end RsxInspect
