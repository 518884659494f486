import RsxInspect.Proofs.Scan.Braced
import RsxInspect.Proofs.Scan.Resync
import RsxInspect.Proofs.Template.Coverage
import RsxInspect.Proofs.Template.Inside

/-!
# Where a template ends

Of the closing tags behind the opening tag of a template, the first one that is not swallowed by a
comment, a value or a string closes the template; where all of them are swallowed, it is not closed
(`resynced_parse?`). So a construct that is left open costs no more than the template it stands in,
unless it is one of these three.

The bricks: `swallowed_of_reads` and `closingTagAt_of_next` carry what the scan does at a closing
tag over to the tokens of the file; `swallowed` and `swallowed_to` go through the tokens of a
template up to its end or to its closing tag, both by induction on these tokens;
`readTemplate_resynced` is one template, at a top of the loop over sections where the scan stands
behind its opening tag (`Between`).
-/

namespace RsxInspect

open String (utf8Len)

/-- All tokens of a file, blanks included: those of `Scanner.toEnd`. -/
def allTokens (source : String) : List Token := (Scanner.ofSource source).toEnd.1.toList

/-- The offset lies strictly inside the token, behind its first byte. -/
def Token.Holds (t : Token) (p : Nat) : Prop := t.span.start < p ∧ p < t.span.stop

/-- A token of the file has swallowed the closing tag at the offset (`Token.Swallows`). -/
def Swallowed (source : String) (p : Nat) : Prop := ∃ t ∈ allTokens source, t.Swallows p

/-- The template ends with the first closing tag behind its opening tag that is not `Swallowed`;
`closed` is for templates with such a tag, `unclosed` for those without. -/
structure TemplateSection.Resynced (source : String) (s : TemplateSection) : Prop where
  opening : ⟨.templateOpen, s.opening⟩ ∈ allTokens source
  /-- The closing tag is a token of its own; no token holds its start, and those that stand between it
  and the opening tag are swallowed. -/
  closed : ∀ close, s.closing = some close →
    ⟨.templateClose, close⟩ ∈ allTokens source ∧ s.opening.stop ≤ close.start ∧
      ClosingTagAt source close.start ∧ (∀ t ∈ allTokens source, ¬ t.Holds close.start) ∧
      ∀ p, s.opening.stop ≤ p → p < close.start → ClosingTagAt source p → Swallowed source p
  /-- Without a closing tag, all that stand behind the opening tag are swallowed. -/
  unclosed : s.closing = none →
    ∀ p, s.opening.stop ≤ p → ClosingTagAt source p → Swallowed source p
  /-- Up to the end of the template, no other token takes in the start of a closing tag. -/
  others : ∀ p, s.opening.stop ≤ p → (∀ close, s.closing = some close → p ≤ close.start) →
    ClosingTagAt source p → ∀ t ∈ allTokens source, t.Holds p → t.Swallows p

section

variable {source : String} {t u : Token} {p : Nat}

theorem mem_allTokens (h : t ∈ significantTokens source) : t ∈ allTokens source :=
  List.mem_of_mem_filter h

/-- One token at most `Holds` an offset, and none does where another one starts, since the tokens
tile the source. -/
theorem Token.Holds.unique (ht : t ∈ allTokens source) (hu : u ∈ allTokens source) (h : t.Holds p)
    (hp : u.span.start ≤ p) (hp' : p < u.span.stop) : t = u := by
  have hordered := (Scanner.ofSource source).reads_toEnd.ordered
  obtain ⟨hstart, hstop⟩ := h
  exact hordered.eq_of_overlap ht hu (by omega) (by omega)

/-- The token that `Holds` a swallowed closing tag is the one that `Swallows` it. -/
theorem Swallowed.by_holder (h : Swallowed source p) (ht : t ∈ allTokens source) (hholds : t.Holds p) :
    t.Swallows p := by
  obtain ⟨u, hu, hswallows⟩ := h
  rwa [hholds.unique ht hu (Nat.le_of_lt hswallows.start) hswallows.stop]

/-- The characters of a closing tag lie in the source. -/
theorem ClosingTagAt.lt_size (h : ClosingTagAt source p) : p < source.utf8ByteSize := by
  obtain ⟨done, rest, hsource, rfl⟩ := h
  have hsize : utf8Len Delimiter.templateClose = 11 := by decide
  rw [← String.utf8Len_toList, hsource, String.utf8Len_append, String.utf8Len_append, hsize]
  omega

end

/-! ### Up to the closing tag

The scan of a template goes over closing tags only inside of tokens (`swallowed_of_reads`): up to
the first one that it reads, or up to the end if it reads none. -/

section

variable {source : String} {before rest : List Char} {state : LexState} {s : Scanner}
  {ts inside more us : List Token} {close : Token} {p : Nat}

/-- What a scan reads inside of a template swallows the closing tags that it goes over:
`Scanner.Reads` says which characters the call took. -/
theorem swallowed_of_reads (hsource : source.toList = before ++ rest) (hmode : state.mode = .template)
    (hreads : Scanner.Reads (.behind before rest state) us s)
    (hus : ∀ t ∈ significant us, t ∈ significantTokens source) (hinside : AllInside (significant us))
    (hstart : utf8Len before ≤ p) (hstop : p < s.offset) (hp : ClosingTagAt source p) :
    Swallowed source p := by
  have hresyncs : Lexeme.Resyncs state.mode := by
    rw [hmode]
    exact .templateEnd
  have hnone : ∀ t ∈ us, t.kind ≠ .templateClose := by
    intro t ht hclose
    exact hinside t (List.mem_filter.mpr ⟨ht, by rw [hclose]; rfl⟩) hclose
  obtain ⟨t, ht, hswallows⟩ := hreads.swallows hsource hresyncs hnone hp hstart hstop
  have hkept : (!t.kind.isTrivia) = true := by
    have hover := hswallows.kind
    revert hover
    cases t.kind <;> decide
  exact ⟨t, mem_allTokens (hus t (List.mem_filter.mpr ⟨ht, hkept⟩)), hswallows⟩

/-- A token that the scan reads as a closing tag is one, so its text stands at its offset. -/
theorem closingTagAt_of_next {done ahead : List Char} (hsource : source.toList = done ++ ahead)
    (hahead : ahead ≠ []) (hkind : (Scanner.behind done ahead state).next.1.kind = .templateClose) :
    ClosingTagAt source (utf8Len done) := by
  rw [Scanner.next_behind hahead] at hkind
  obtain ⟨back, hback⟩ := templateClose_prefix hahead hkind
  exact ⟨done, back, by rw [hsource, List.append_assoc, hback], rfl⟩

namespace Ahead

/-- In a template that is not closed all closing tags are `Swallowed` up to the end, by induction on
the tokens that are ahead. -/
theorem swallowed (h : Ahead source .template before rest ts)
    (hts : ∀ t ∈ ts, t ∈ significantTokens source) (hinside : AllInside ts)
    (hstart : utf8Len before ≤ p) (hp : ClosingTagAt source p) : Swallowed source p := by
  obtain ⟨state, us, s, hmode, hreads, hend, rfl⟩ := h.reads
  have hsize : s.offset = source.utf8ByteSize := by
    obtain ⟨mid, left, hrest, hs⟩ := hreads.exists_behind
    rw [hs] at hend
    obtain rfl : left = [] := hend
    rw [hs, Scanner.behind_offset, ← String.utf8Len_toList, h.split, hrest, List.append_nil]
  apply swallowed_of_reads h.split hmode hreads hts hinside hstart _ hp
  rw [hsize]
  exact hp.lt_size

/-- The first closing tag that is read is one, no token holds its start, and those in front of it
are `Swallowed`: the same induction, up to the token that closes. -/
theorem swallowed_to (h : Ahead source .template before rest (inside ++ close :: more))
    (hts : ∀ t ∈ inside ++ close :: more, t ∈ significantTokens source) (hinside : AllInside inside)
    (hclose : close.kind = .templateClose) :
    utf8Len before ≤ close.span.start ∧ ClosingTagAt source close.span.start ∧
      (∀ t ∈ allTokens source, ¬ t.Holds close.span.start) ∧
      ∀ p, utf8Len before ≤ p → p < close.span.start → ClosingTagAt source p →
        Swallowed source p := by
  -- the run up to the closing tag, and the place where the tag is read
  obtain ⟨state, us, s, hmode, hreads, -, hus⟩ := h.reads
  obtain ⟨front, back, rfl, rfl, -⟩ := Scanner.exists_split_of_significant hus
  obtain ⟨place, hfirst, hsecond⟩ := hreads.split
  obtain ⟨hnext, hmove, -⟩ := hsecond.of_cons
  have hplace : place.offset = close.span.start := by
    rw [hnext, Scanner.span_next_start]
  have hnonempty : close.span.start < close.span.stop := by
    rw [hnext, Scanner.span_next_start, Scanner.span_next_stop]
    exact hmove
  have hmem : close ∈ allTokens source :=
    mem_allTokens (hts close (List.mem_append_right _ (List.mem_cons_self ..)))
  rw [← hplace] at hnonempty ⊢
  refine ⟨hfirst.offset_le, ?_, fun t ht hholds => ?_, fun p hstart hstop hp => ?_⟩
  -- what stands at the place is the closing tag itself
  · obtain ⟨mid, left, hrest, hs⟩ := hfirst.exists_behind
    have hleft := Scanner.rest_ne_nil_of_moves hmove
    have hsource : source.toList = (before ++ mid) ++ left := by
      rw [h.split, hrest, List.append_assoc]
    rw [hs] at hnext hleft ⊢
    rw [hnext] at hclose
    exact closingTagAt_of_next hsource hleft hclose
  -- a token that held its start would be the tag, which does not hold it
  · have heq := hholds.unique ht hmem (Nat.le_of_eq hplace.symm) hnonempty
    rw [heq, hplace] at hholds
    exact Nat.lt_irrefl _ hholds.1
  · apply swallowed_of_reads h.split hmode hfirst _ hinside hstart hstop hp
    exact fun t ht => hts t (List.mem_append_left _ ht)

end Ahead

end

namespace Document

variable {r : Reading} {notes notes' : Notes} {source : String} {t : Token} {ts : List Token}
  {before rest : List Char}

/-- **A template ends with the first closing tag that is not swallowed.** What `readTemplate` takes
is the run in front of the first `templateClose`, and `swallowed` and `swallowed_to` say which that
is. -/
theorem readTemplate_resynced (hbetween : Between source notes (t :: ts))
    (hkind : t.kind = .templateOpen) (hopening : utf8Len before = t.span.stop)
    (hahead : Ahead source .template before rest ts) :
    (readTemplate r notes' t ts).content.Resynced source := by
  have hopens : sectionOpenedBy? t.kind = some .template := by rw [hkind]; rfl
  obtain ⟨q, k, hread⟩ := hbetween.readsTemplate hopens r notes'
  obtain ⟨inside, hsplit, hinside⟩ := hread.reaches.inside
  have hmem : ∀ u ∈ t :: ts, u ∈ significantTokens source := fun u hu => hbetween.suffix.subset hu
  obtain ⟨ht, hts⟩ := List.forall_mem_cons.mp hmem
  have hopen : ⟨.templateOpen, t.span⟩ ∈ allTokens source := by
    rw [← hkind]
    exact mem_allTokens ht
  have hclosing := hread.closing
  have hended := hread.ended
  -- without a closing tag, every one in the text was swallowed; with one, those before it were
  cases hbehind : ts.drop k with
  | nil =>
    rw [hbehind] at hclosing
    rw [hbehind, List.append_nil] at hsplit
    subst hsplit
    have hall : ∀ p, t.span.stop ≤ p → ClosingTagAt source p → Swallowed source p := by
      rw [← hopening]
      exact fun p hp => hahead.swallowed hts hinside hp
    refine ⟨hopen, fun close hclose => ?_, fun _ => hall, fun p hp _ htag u hu hholds => ?_⟩
    · rw [hclosing] at hclose
      cases hclose
    · exact (hall p hp htag).by_holder hu hholds
  | cons close more =>
    rw [hbehind] at hclosing hended
    rw [hbehind] at hsplit
    have hclose : close.kind = .templateClose := hended close rfl
    rw [hsplit] at hahead
    obtain ⟨hstart, htag, hstands, hbefore⟩ :=
      hahead.swallowed_to (by rw [← hsplit]; exact hts) hinside hclose
    rw [hopening] at hstart hbefore
    have hclosemem : ⟨.templateClose, close.span⟩ ∈ allTokens source := by
      rw [← hclose]
      apply mem_allTokens
      apply hts
      rw [hsplit]
      exact List.mem_append_right _ (List.mem_cons_self ..)
    have hsome : (readTemplate r notes' t ts).content.closing = some close.span := hclosing
    refine ⟨hopen, fun c hc => ?_, fun hnone => ?_, fun p hp hle htagp u hu hholds => ?_⟩
    · rw [hsome] at hc
      obtain rfl := Option.some.inj hc
      exact ⟨hclosemem, hstart, htag, hstands, hbefore⟩
    · rw [hsome] at hnone
      cases hnone
    · rcases Nat.lt_or_eq_of_le (hle close.span hsome) with hlt | rfl
      · exact (hbefore p hp hlt htagp).by_holder hu hholds
      · exact absurd hholds (hstands u hu)

end Document

/-- **Resynchronisation is never missed.** Let the scan of a file reach the end. The file is read
exactly if the scans of its values do (`Document.valuesEnd`). Then each template of it ends with the
first closing tag behind its opening tag that does not start strictly inside of a comment, a value or a
string; if there is none, then the template is not closed. No other token goes on over the start of a
closing tag, and the three kinds take it in as a whole, but for the `>` that ends a value without
quotes (`TemplateSection.Resynced`). -/
theorem resynced_parse? (source : String) (withTrees : Bool)
    (h : (Scanner.ofSource source).toEnd?.isSome = true) :
    (Document.parse? source withTrees).isSome
        = Document.valuesEnd source (significantTokens source) ∧
      ∀ parsed, Document.parse? source withTrees = some parsed →
        ∀ s, .template s ∈ parsed.document.sections → s.Resynced source := by
  let r : Reading := ⟨source, withTrees⟩
  refine Document.forall_parse? withTrees h ?_
  have hall := (Document.reaches_end r source).forall_sections
    (P := fun x => ∀ s, x = .template s → s.Resynced source) h ?_
  · exact fun s hs => hall _ hs s rfl
  -- only templates have to be shown, and they open with their own tag
  · intro notes notes' t ts kind before rest hbetween hkind hopening hahead s hs
    cases kind with
    | template =>
      have ht : t.kind = .templateOpen := by
        revert hkind
        cases t.kind <;> simp [Document.sectionOpenedBy?]
      obtain rfl := Section.template.inj hs
      exact Document.readTemplate_resynced hbetween ht hopening hahead
    | _ => cases hs

/-- Closing tags in a comment, in a value without quotes and in a string, and one right behind an
operator, which counts. -/
theorem resynced_parse?_swallowed :
    let source := String.ofList
      "<template><!--</template>--><p a=b</template>\n\x7b\x7b x <</template><template>\x7b\x7b \"</template>".toList
    (Scanner.ofSource source).toEnd?.isSome = true ∧
      ∃ parsed, Document.parse? source false = some parsed ∧
        (∀ s, .template s ∈ parsed.document.sections → s.Resynced source) ∧
        parsed.document.sections.map Section.opening = [⟨0, 10⟩, ⟨63, 73⟩] ∧
        parsed.document.sections.map Section.closing = [some ⟨52, 63⟩, none] := by
  intro source
  have hend : (Scanner.ofSource source).toEnd?.isSome = true := by decide +kernel
  obtain ⟨-, hresynced⟩ := resynced_parse? source false hend
  have hsections : (Document.parse? source false).map (fun p =>
      (p.document.sections.map Section.opening, p.document.sections.map Section.closing))
        = some ([⟨0, 10⟩, ⟨63, 73⟩], [some ⟨52, 63⟩, none]) := by
    decide +kernel
  obtain ⟨parsed, hparsed, hsections⟩ := Option.map_eq_some_iff.mp hsections
  obtain ⟨hopening, hclosing⟩ := Prod.mk.inj hsections
  exact ⟨hend, parsed, hparsed, hresynced parsed hparsed, hopening, hclosing⟩

/-- A closing tag that is swallowed need not lie in one token: a value without quotes takes in the
start of it and leaves the `>`. -/
theorem resynced_parse?_straddled :
    let source := String.ofList "<template><p a=b</template>".toList
    (Scanner.ofSource source).toEnd?.isSome = true ∧
      ∃ parsed, Document.parse? source false = some parsed ∧
        parsed.document.sections.map Section.kind = [.template] ∧
        parsed.document.sections.map Section.opening = [⟨0, 10⟩] ∧
        parsed.document.sections.map Section.closing = [none] ∧
        ClosingTagAt source 16 ∧ ∀ t ∈ allTokens source, ¬ (t.span.start ≤ 16 ∧ 27 ≤ t.span.stop) := by
  intro source
  have hend : (Scanner.ofSource source).toEnd?.isSome = true := by decide +kernel
  have hsections : (Document.parse? source false).map (fun p =>
      (p.document.sections.map Section.kind, p.document.sections.map Section.opening,
        p.document.sections.map Section.closing)) = some ([.template], [⟨0, 10⟩], [none]) := by
    decide +kernel
  obtain ⟨parsed, hparsed, hmap⟩ := Option.map_eq_some_iff.mp hsections
  obtain ⟨hkinds, hmap⟩ := Prod.mk.inj hmap
  obtain ⟨hopenings, hclosings⟩ := Prod.mk.inj hmap
  have htag : ClosingTagAt source 16 :=
    ⟨"<template><p a=b".toList, [], by decide +kernel, by decide +kernel⟩
  exact ⟨hend, parsed, hparsed, hkinds, hopenings, hclosings, htag, by decide +kernel⟩

end RsxInspect
