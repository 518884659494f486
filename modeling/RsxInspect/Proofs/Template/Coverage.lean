import RsxInspect.Proofs.Template.Code
import RsxInspect.Proofs.Template.MadeFiles

/-!
# Sections cover the file

The sections of a file stand in a row, and what they leave out is white space or reported as bad
characters. Only the last section can lack its closing delimiter, and it takes the rest of the file
then. What is reported of sections as a whole can be counted. The bricks:

* `Spaced.contains_or_blankAt`: among spaced spans a byte is one of theirs, or white space.
* `Document.readSection_ahead`: a section that is closed leaves the scan between sections (`Ahead`);
  one that is not closed leaves no tokens.
* `Document.Laid`: where the loop over sections stands. `Laid.opened` is its step, and
  `Reaches.laid` the induction: no section is left open in front of another one.
* `Reaches.forall_sections`: what holds of a section wherever the loop reads one holds of all of
  them.

`covered_parse?` reads the fields of `Parsed.Covered` off this and off the file as it was filed
(`Document.ofTokens_filed`).
-/

namespace RsxInspect

open String (utf8Len)

/-! ### Bytes -/

/-- The byte at the offset is one of a white-space character: it stands in a stretch that is
`Blank`. -/
def BlankAt (source : String) (i : Nat) : Prop :=
  ∃ a b, Blank source a b ∧ a ≤ i ∧ i < b

/-- A byte among spaced spans (`Spaced`) is one of theirs, or white space. -/
theorem Spaced.contains_or_blankAt {source : String} {a b i : Nat} {spans : List Span}
    (h : Spaced source a spans b) (ha : a ≤ i) (hb : i < b) :
    (∃ s ∈ spans, s.contains i = true) ∨ BlankAt source i := by
  induction h with
  | blank gap => exact .inr ⟨_, _, gap, ha, hb⟩
  | @span a b s spans gap _ _ ih =>
    by_cases hgap : i < s.start
    · exact .inr ⟨a, s.start, gap, ha, hgap⟩
    · by_cases hinside : i < s.stop
      · refine .inl ⟨s, List.mem_cons_self .., ?_⟩
        rw [Span.contains, Bool.and_eq_true, decide_eq_true_iff, decide_eq_true_iff]
        exact ⟨Nat.le_of_not_lt hgap, hinside⟩
      · rcases ih (Nat.le_of_not_lt hinside) hb with ⟨t, ht, hcontains⟩ | hblank
        · exact .inl ⟨t, List.mem_cons_of_mem _ ht, hcontains⟩
        · exact .inr hblank

/-! ### The loop over sections

The invariant is about the scan behind a section, so it is in terms of `Ahead`: a list of tokens
alone does not say where they stand in the source. -/

/-- The parts of a section of code touch (`CodeSection.Contiguous`). A template has no code of its
own. -/
def Section.Contiguous (source : String) : Section → Prop
  | .frontMatter c => c.Contiguous source SectionKind.frontMatter.endMark
  | .script c => c.Contiguous source SectionKind.script.endMark
  | .style c => c.Contiguous source SectionKind.style.endMark
  | .template _ => True

namespace Document

variable {r : Reading} {notes : Notes} {opening : Token} {ts : List Token} {source : String}
  {b : Nat} {kind : SectionKind} {before rest : List Char}

/-- A section ends between sections, or with the last of the tokens. For code this is
`readCode_contiguous`; for a template it is the closing tag behind the last piece. -/
theorem readSection_ahead (r : Reading) (notes : Notes) (hopening : utf8Len before = opening.span.stop)
    (hahead : Ahead source kind.mode before rest ts) (htrace : Trace kind.mode ts)
    (hspaced : Spaced source opening.span.stop (ts.map Token.span) b) :
    let s := readSection r notes kind opening ts
    s.content.Contiguous source ∧
      (s.content.closing = none → ts.drop s.taken = []) ∧
      (s.content.closing ≠ none →
        ∃ before' rest', Ahead source .initial before' rest' (ts.drop s.taken)) := by
  cases kind with
  | frontMatter => exact readCode_contiguous r notes (by decide) hopening hahead
  | script => exact readCode_contiguous r notes (by decide) hopening hahead
  | style => exact readCode_contiguous r notes (by decide) hopening hahead
  | template =>
    obtain ⟨p, k, hread⟩ := exists_readsTemplate r notes opening htrace hspaced
    obtain ⟨n, before', rest', hahead⟩ := hahead.drop k
    have hclosing := hread.closing
    have hended := hread.ended
    refine ⟨trivial, fun hnone => ?_, fun hclosed => ?_⟩
    · show ts.drop (readTemplate r notes opening ts).taken = []
      rw [hread.rest, List.head?_eq_none_iff.mp (Option.map_eq_none_iff.mp (hclosing.symm.trans hnone))]
      rfl
    · show ∃ before' rest', Ahead source .initial before' rest'
        (ts.drop (readTemplate r notes opening ts).taken)
      rw [hread.rest]
      cases hrest : ts.drop k with
      | nil =>
        rw [hrest] at hclosing
        exact absurd hclosing hclosed
      | cons t us =>
        -- what ends the pieces is the closing tag
        rw [hrest] at hahead hended
        obtain ⟨n, before', rest', hstep, -, hbehind⟩ := hahead.of_cons
        rw [hended t rfl] at hstep
        rw [hstep.eq_initial] at hbehind
        exact ⟨before', rest', hbehind⟩

/-- Where the loop over sections stands, with the sections `done` in front of the tokens `ts`: all
sections are closed, but for the last one if nothing is left, and behind that one stands white space
only. -/
structure Laid (source : String) (done : Array Section) (ts : List Token) : Prop where
  ahead : ts ≠ [] → ∃ before rest, Ahead source .initial before rest ts
  contiguous : ∀ s ∈ done.toList, s.Contiguous source
  terminated : ∀ s ∈ done.toList.dropLast, s.isTerminated = true
  last : ∀ s, done.toList.getLast? = some s → s.isTerminated = false →
    ts = [] ∧ Blank source s.span.stop (Scanner.ofSource source).toEnd.2.offset

/-- As long as a `Laid` file has tokens left, all sections are closed: only the last one could be
open, and it would have taken them. -/
theorem Laid.all_terminated {done : Array Section} {t : Token} (h : Laid source done (t :: ts)) :
    ∀ s ∈ done.toList, s.isTerminated = true := by
  intro s hs
  have hterminated := h.terminated
  have hlast := h.last
  cases hdone : done.toList using List.reverseRecOn with
  | nil =>
    rw [hdone] at hs
    cases hs
  | append_singleton init x =>
    rw [hdone, List.dropLast_concat] at hterminated
    rw [hdone, List.getLast?_concat] at hlast
    rw [hdone] at hs
    rcases List.mem_append.mp hs with hs | hs
    · exact hterminated s hs
    · rw [List.mem_singleton.mp hs]
      by_contra hopen
      exact nomatch (hlast x rfl (Bool.eq_false_iff.mpr hopen)).1

/-- Behind a token that opens a section the scan is in the mode of the section. -/
theorem Laid.exists_ahead {done : Array Section} {t : Token} (h : Laid source done (t :: ts))
    (hkind : sectionOpenedBy? t.kind = some kind) :
    ∃ before rest, utf8Len before = t.span.stop ∧ Ahead source kind.mode before rest ts := by
  obtain ⟨before, rest, hahead⟩ := h.ahead (List.cons_ne_nil _ _)
  obtain ⟨n, before', rest', hstep, hopening, hahead⟩ := hahead.of_cons
  have hmode : n = kind.mode := by
    revert hkind
    generalize t.kind = k at hstep
    cases hstep <;> intro hkind <;> cases hkind <;> rfl
  subst hmode
  exact ⟨before', rest', hopening, hahead⟩

/-- One more section: the step of `Laid`. A section that is not closed has taken all tokens, so
behind it nothing but blanks is left. -/
theorem Laid.opened {done : Array Section} {t : Token} {s : SectionRead Section}
    (h : Laid source done (t :: ts)) (hbetween : Between source notes (t :: ts))
    (hkind : sectionOpenedBy? t.kind = some kind)
    (hs : s = readSection r (notesAt r done notes kind t) kind t ts) :
    Laid source (done.push s.content) (ts.drop s.taken) := by
  obtain ⟨before, rest, hopening, hahead⟩ := h.exists_ahead hkind
  obtain ⟨hcontiguous, hopen, hclosed⟩ := readSection_ahead r (notesAt r done notes kind t) hopening
    hahead (hbetween.mode hkind) hbetween.spaced_behind
  obtain ⟨hle, hspan⟩ : s.taken ≤ ts.length ∧ s.content.span = spanOf t ts s.taken := by
    rw [hs]
    exact readSection_span (hbetween.mode hkind) hbetween.spaced_behind
  rw [← hs] at hcontiguous hopen hclosed
  refine ⟨fun hleft => hclosed fun hnone => hleft (hopen hnone), ?_, ?_, ?_⟩
  · rw [Array.toList_push]
    exact List.forall_mem_append.mpr ⟨h.contiguous, List.forall_mem_singleton.mpr hcontiguous⟩
  · rw [Array.toList_push, List.dropLast_concat]
    exact h.all_terminated
  · intro x hx hterminated
    rw [Array.toList_push, List.getLast?_concat] at hx
    obtain rfl := Option.some.inj hx
    have hnone : s.content.closing = none := by
      rw [Section.isTerminated, Option.isSome_eq_false_iff, Option.isNone_iff_eq_none] at hterminated
      exact hterminated
    refine ⟨hopen hnone, ?_⟩
    -- behind the last token of the section nothing but blanks is left
    obtain ⟨a, hspaced⟩ := hbetween.spaced
    have hgroup := hspaced.group hle
    rw [← hspan, hopen hnone] at hgroup
    cases hgroup with
    | span _ _ rest =>
      cases rest with
      | blank gap => exact gap

/-- **The loop over sections leaves no section open.** By induction on `Reaches`: sections go on by
`Laid.opened`, and a bad character that is skipped changes nothing. -/
theorem Reaches.laid {done : Array Section}
    (h : Reaches r #[] .empty (significantTokens source) done notes ts)
    (hend : (Scanner.ofSource source).toEnd?.isSome = true) : Laid source done ts := by
  induction h with
  | start =>
    exact ⟨fun _ => ⟨_, _, .start hend⟩, List.forall_mem_nil _, List.forall_mem_nil _, nofun⟩
  | opened h hkind hs ih => exact ih.opened h.between hkind hs
  | @skipped done notes t ts h hkind ih =>
    obtain ⟨before, rest, hahead⟩ := ih.ahead (List.cons_ne_nil _ _)
    obtain ⟨n, before', rest', hstep, -, hbehind⟩ := hahead.of_cons
    rw [h.between.bad hkind] at hstep
    obtain rfl : n = .initial := by cases hstep; rfl
    exact ⟨fun _ => ⟨before', rest', hbehind⟩, ih.contiguous, ih.terminated,
      fun s hs hopen => nomatch (ih.last s hs hopen).1⟩

/-- What holds of each `readSection` of the loop holds of all sections of the file. -/
theorem Reaches.forall_sections {P : Section → Prop} {done : Array Section}
    (h : Reaches r #[] .empty (significantTokens source) done notes ts)
    (hend : (Scanner.ofSource source).toEnd?.isSome = true)
    (hread : ∀ {notes notes' : Notes} {t : Token} {ts : List Token} {kind : SectionKind}
      {before rest : List Char}, Between source notes (t :: ts) →
      sectionOpenedBy? t.kind = some kind → utf8Len before = t.span.stop →
      Ahead source kind.mode before rest ts → P (readSection r notes' kind t ts).content) :
    ∀ s ∈ done.toList, P s := by
  induction h with
  | start => exact List.forall_mem_nil _
  | @opened done notes t ts kind s h hkind hs ih =>
    obtain ⟨before, rest, hopening, hahead⟩ := (h.laid hend).exists_ahead hkind
    rw [Array.toList_push, hs]
    have hlast : P (readSection r (notesAt r done notes kind t) kind t ts).content :=
      hread h.between hkind hopening hahead
    exact List.forall_mem_append.mpr ⟨ih, List.forall_mem_singleton.mpr hlast⟩
  | skipped _ _ ih => exact ih

end Document

/-! ### Files

The loop ends where no token is left, so `Laid` says there that the sections and the bad characters
between them are all that there is but blanks. -/

/-- How the sections of a file lie in it, and what is reported of them. -/
structure Parsed.Covered (source : String) (parsed : Parsed) : Prop where
  /-- The sections stand in a row. -/
  ordered : Span.Ordered 0 (parsed.document.sections.map Section.span) source.utf8ByteSize
  /-- What no section takes is white space or reported as a bad character. -/
  outside : ∀ i < source.utf8ByteSize,
    (∀ s ∈ parsed.document.sections, s.span.contains i = false) →
      BlankAt source i ∨
        ∃ d ∈ parsed.diagnostics, d.kind = .badCharacter ∧ d.span.contains i = true
  /-- Only the last section may be unterminated, and it takes all but white space then. -/
  terminated : ∀ s ∈ parsed.document.sections.dropLast, s.isTerminated = true
  last : ∀ s, parsed.document.sections.getLast? = some s → s.isTerminated = false →
    Blank source s.span.stop source.utf8ByteSize
  contiguous : ∀ s ∈ parsed.document.sections, s.Contiguous source
  /-- Every unterminated section is reported once, on its opening delimiter. -/
  unclosed : ((parsed.diagnostics.filter (·.kind == .unterminatedSection)).map Diagnostic.span).Perm
    ((parsed.document.sections.filter (!·.isTerminated)).map Section.opening)
  /-- There are as many sections as reports of duplicates and kinds. -/
  duplicates : parsed.diagnostics.countP (·.kind == .duplicateSection)
    + (parsed.document.sections.map Section.kind).toFinset.card = parsed.document.sections.length

/-- **Sections cover the file.** Let the scan of a file reach the end. The file is read exactly if the
scans of its values do (`Document.valuesEnd`). Then its sections stand in a row; what they leave out is
white space or lies in a bad character that is reported; only the last one can be unterminated, and
then only white space follows it; sections of code have no gaps in them and no closing delimiter in
their code; and there is one report for each unterminated section and for each one of a kind that was
there before (`Parsed.Covered`). -/
theorem covered_parse? (source : String) (withTrees : Bool)
    (h : (Scanner.ofSource source).toEnd?.isSome = true) :
    (Document.parse? source withTrees).isSome
        = Document.valuesEnd source (significantTokens source) ∧
      ∀ parsed, Document.parse? source withTrees = some parsed → parsed.Covered source := by
  let r : Reading := ⟨source, withTrees⟩
  refine Document.forall_parse? withTrees h ?_
  have hreaches := Document.reaches_end r source
  obtain ⟨spans, hspaced, hsub, -, hspans⟩ := hreaches.exists_spans
  have hlaid := hreaches.laid h
  obtain ⟨all, notes, hfiled, hperm⟩ := Document.ofTokens_filed r
  obtain ⟨hnone, hzero⟩ := Document.filter_local (anomalies_local (tokensInRow_significantTokens source))
  rw [offset_toEnd h, List.map_nil, List.append_nil] at hspaced
  refine ⟨hspaced.ordered.sublist hsub, fun i hi houtside => ?_, hlaid.terminated,
    fun s hs hopen => ?_, hlaid.contiguous, ?_, ?_⟩
  -- a byte outside of all sections stands between two of them, or in a token that was skipped
  · rcases hspaced.contains_or_blankAt (Nat.zero_le i) hi with ⟨s, hs, hcontains⟩ | hblank
    · rcases hspans s hs with hsection | ⟨t, ht, hbad, rfl⟩
      · obtain ⟨x, hx, rfl⟩ := List.mem_map.mp hsection
        exact absurd hcontains (Bool.eq_false_iff.mp (houtside x hx))
      · right
        have hnoted := Document.mem_anomalies_of_bad ht hbad
        obtain ⟨d, hd, hcovers⟩ := Findings.exists_covering (.inl hnoted)
        exact ⟨d, hperm.mem_iff.mpr (List.mem_append_left _ hd), hcovers.1, hcovers.contains hcontains⟩
    · exact .inl hblank
  · rw [← offset_toEnd h]
    exact (hlaid.last s hs hopen).2
  -- what is reported of sections comes from the loop alone, so it can be counted in its notes
  · have hfilter := Findings.filter_logs (p := (·.kind == .unterminatedSection))
      (fun d hd => by rw [hd]; rfl) hnone hperm
    exact (hfilter.map Diagnostic.span).trans (.of_eq hfiled.unclosed)
  · have hfilter := Findings.filter_logs (p := (·.kind == .duplicateSection))
      (fun d hd => by rw [hd]; rfl) (List.filter_eq_nil_iff.mpr (List.countP_eq_zero.mp hzero)) hperm
    have hcount := hfilter.length_eq
    rw [← List.countP_eq_length_filter, ← List.countP_eq_length_filter] at hcount
    rw [hcount]
    exact hfiled.duplicates

/-- Characters between sections that belong to none, front matter in which a fence is quoted, a style
that was there before, and a script that is never closed. -/
theorem covered_parse?_unfinished :
    let source := String.ofList
      "%é ---\na = \"---\"\n---<style>b</style> %<style c></style>\n<script>d </script".toList
    (Scanner.ofSource source).toEnd?.isSome = true ∧
      ∃ parsed, Document.parse? source false = some parsed ∧ parsed.Covered source ∧
        parsed.document.sections.map Section.span = [⟨4, 21⟩, ⟨21, 37⟩, ⟨39, 56⟩, ⟨57, 75⟩] ∧
        parsed.document.sections.map Section.isTerminated = [true, true, true, false] := by
  intro source
  have hend : (Scanner.ofSource source).toEnd?.isSome = true := by decide +kernel
  obtain ⟨-, hcovered⟩ := covered_parse? source false hend
  have hsections : (Document.parse? source false).map (fun p => (p.document.sections.map Section.span,
      p.document.sections.map Section.isTerminated))
        = some ([⟨4, 21⟩, ⟨21, 37⟩, ⟨39, 56⟩, ⟨57, 75⟩], [true, true, true, false]) := by
    decide +kernel
  obtain ⟨parsed, hparsed, hsections⟩ := Option.map_eq_some_iff.mp hsections
  obtain ⟨hspans, hterminated⟩ := Prod.mk.inj hsections
  exact ⟨hend, parsed, hparsed, hcovered parsed hparsed, hspans, hterminated⟩

end RsxInspect
