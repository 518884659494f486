import RsxInspect.Proofs.Scan.Sections
import RsxInspect.Proofs.Template.Inside

/-!
# Opening tags without their end

The opening tag of a section runs to its `>`, and where there is none, to the end of the input. The
scan knows which of the two it was, and the reader of sections asks the text of the token again, for
its last character (`openTagProblem`). So a tag that has its end is never reported, but of those
that have none only the ones are whose last character is not a `>`: behind `<script a=">` the input
ends in a value that is left open (`openTags_reported`).

The bricks: `tokenAt_mem` takes a call of the scan to a token of the file, where the search of that
call is known; `Document.missing_iff` says what is reported on the token. The latter needs that a
report on the span of an opening tag speaks of that tag. All other reports of missing tag ends start
with a token of a template (`Diagnostic.OnTag`), and no two tokens start together (`eq_of_start`).
-/

namespace RsxInspect

/-- Tokens of a file that start together are the same, since the significant tokens are `Spaced`. -/
theorem eq_of_start {source : String} {t u : Token} (ht : t ∈ significantTokens source)
    (hu : u ∈ significantTokens source) (h : t.span.start = u.span.start) : t = u := by
  have hordered := (spaced_significantTokens source).ordered
  have ht' := hordered.mem (List.mem_map_of_mem ht)
  have hu' := hordered.mem (List.mem_map_of_mem hu)
  exact hordered.eq_of_overlap ht hu (by omega) (by omega)

namespace Scanner

/-- At the end of its window a scanner stays where it is, however often it is called. -/
theorem after_of_end {s : Scanner} (h : s.cursor.rest = []) (k : Nat) : s.after k = s := by
  induction k with
  | zero => rfl
  | succ k ih => rw [after_succ, ih, next_of_end h]

/-- Where the scan of a file reaches the end, all calls in front of it (`tokenAt`) read tokens of
the file. -/
theorem tokenAt_mem {source : String} (h : (ofSource source).toEnd?.isSome = true) {k : Nat}
    (hk : ((ofSource source).tokenAt k).kind ≠ .eof) :
    (ofSource source).tokenAt k ∈ (ofSource source).toEnd.1.toList := by
  obtain ⟨⟨tokens, s⟩, htoEnd⟩ := Option.isSome_iff_exists.mp h
  obtain ⟨hreads, hend⟩ := toEnd?_eq_some_iff.mp htoEnd
  have htokens : (ofSource source).toEnd.1.toList = tokens.toList := by
    rw [toEnd, hreads.toEndFrom hend]
    simp
  have htoken := hreads.tokenAt_eq k
  rw [htokens]
  split at htoken
  · rw [htoken]
    exact List.getElem_mem _
  · rw [htoken, tokenAt, after_of_end hend, next_of_end hend] at hk
    exact absurd rfl hk

end Scanner

section Reported

variable {source : String} {r : Reading} {t : Token}

/-- The end of a tag is a problem of a delimiter. -/
theorem Problem.kind_of_isOfDelimiter {p : Problem} (h : p.isOfDelimiter = false) :
    p.kind ≠ .missingTagClose := by
  cases p <;> first | (cases h; done) | exact nofun

/-- No token has the end of a tag missing in itself: `Token.anomaly?` never says so. -/
theorem filter_anomalies (source : String) :
    (Document.anomalies source).filter (·.kind == .missingTagClose) = [] := by
  refine List.filter_eq_nil_iff.mpr fun d hd => ?_
  obtain ⟨u, -, hu⟩ := List.mem_filterMap.mp hd
  obtain ⟨p, hp, rfl⟩ := Option.map_eq_some_iff.mp hu
  rw [beq_iff_eq]
  exact Problem.kind_of_isOfDelimiter (lexicalProblem?_isOfDelimiter hp)

theorem Document.openTagProblem_of_open (h : endsWith ['>'] (t.text r.source).toList = false) :
    openTagProblem r t = [(Problem.openTagWithoutEnd (trimEnd (t.text r.source))).on t.span] :=
  if_neg (Bool.eq_false_iff.mp h)

/-- **What is reported on an opening tag.** The end of the tag is reported as missing exactly if the
last character of its token is no `>`. One direction is `openTagProblem` for the section that the
token opens, the other is that nothing else is reported there. -/
theorem Document.missing_iff (ht : t ∈ significantTokens r.source)
    (htag : t.kind.openTag? ≠ none) :
    let parsed := ofTokens r (significantTokens r.source)
    (∃ d ∈ parsed.diagnostics, d.kind = .missingTagClose ∧ d.span = t.span) ↔
      endsWith ['>'] (t.text r.source).toList = false := by
  intro parsed
  obtain ⟨all, notes, hfiled, hperm⟩ := ofTokens_filed r
  have hlogs := Findings.filter_logs (p := (·.kind == .missingTagClose))
    (fun d hd => by rw [hd]; rfl) (filter_anomalies r.source) hperm
  -- the log keeps what the loop reports of tags
  have hmem : ∀ d : Diagnostic, d.kind = .missingTagClose → (d ∈ parsed.diagnostics ↔ d ∈ all) := by
    intro d hkind
    have hiff := hlogs.mem_iff (a := d)
    simpa [hkind] using hiff
  constructor
  · rintro ⟨d, hd, hkind, hspan⟩
    obtain ⟨u, hu, hstart⟩ := hfiled.onTags d ((hmem d hkind).mp hd) hkind
    obtain rfl : t = u := eq_of_start ht hu.mem (by rw [← hspan, hstart])
    refine hu.text ?_
    revert htag
    cases t.kind <;> simp [sectionOpenedBy?, TokenKind.openTag?]
  · intro hend
    rcases (reaches_end r r.source).opens ht htag with hnone | ⟨s, hs, hsection, hopening⟩
    · cases hnone
    obtain ⟨u, hu, hspan, hreported⟩ := hfiled.tags s hs hsection
    obtain rfl : t = u := eq_of_start ht hu (by rw [← hopening, hspan])
    rw [openTagProblem_of_open hend] at hreported
    exact ⟨_, (hmem _ rfl).mpr (hreported _ (List.mem_singleton_self _)), rfl, rfl⟩

end Reported

/-- **Opening tags without their end.** Let the scan of a file reach the end, and let one of its calls
read a token that opens a section by a tag (`TokenKind.openTag?`). The search for the `>` of the tag,
behind the mark of the section (`Cursor.skipTagRest`), delimits the token; if it fails, then the token
goes on to the end of the file. The file is read exactly if the scans of its values reach their ends
(`Document.valuesEnd`), and then the end of a tag is reported as missing on the span of the token
exactly if the search failed and the last character of the token is no `>`. -/
theorem openTags_reported (source : String) (withTrees : Bool)
    (h : (Scanner.ofSource source).toEnd?.isSome = true) :
    (Document.parse? source withTrees).isSome
        = Document.valuesEnd source (significantTokens source) ∧
      ∀ parsed, Document.parse? source withTrees = some parsed → ∀ k tag,
        let s := (Scanner.ofSource source).after k
        let t := s.next.1
        let search := (s.cursor.advance tag.length).skipTagRest
        t.kind.openTag? = some tag →
          s.next.2.cursor = search.2 ∧
          (search.1 = false → t.span.stop = source.utf8ByteSize) ∧
          ((∃ d ∈ parsed.diagnostics, d.kind = .missingTagClose ∧ d.span = t.span) ↔
            search.1 = false ∧ endsWith ['>'] (t.text source).toList = false) := by
  refine Document.forall_parse? withTrees h fun k tag => ?_
  intro s t search htag
  have hwindow := (Scanner.inWindow_ofSource source).after k
  obtain ⟨hcursor, hfound, hopen⟩ := Scanner.openTag_next hwindow htag
  have hkind : t.kind.openTag? ≠ none := by
    rw [htag]
    simp
  have hmem : t ∈ significantTokens source := by
    refine List.mem_filter.mpr ⟨Scanner.tokenAt_mem h ?_, ?_⟩
    · intro heof
      exact hkind (by rw [show t.kind = .eof from heof]; rfl)
    · revert hkind
      cases t.kind <;> simp [TokenKind.openTag?, TokenKind.isTrivia]
  refine ⟨hcursor, hopen, ?_⟩
  -- a tag that has its end ends with it
  have hnone : endsWith ['>'] (t.text source).toList = false → search.1 = false := by
    intro hend
    by_contra hclosed
    have hsuffix := hfound (by simpa using hclosed)
    rw [endsWith_iff.mpr hsuffix] at hend
    cases hend
  have hmissing := Document.missing_iff (r := ⟨source, withTrees⟩) hmem hkind
  exact hmissing.trans ⟨fun hend => ⟨hnone hend, hend⟩, And.right⟩

/-- A script tag without its end whose last character is a `>` in a value: nothing is reported on it. -/
theorem openTags_reported_quoted :
    let source := String.ofList "<script a=\">".toList
    (Scanner.ofSource source).toEnd?.isSome = true ∧
      ∃ parsed, Document.parse? source false = some parsed ∧
        let s := Scanner.ofSource source
        s.next.1.kind = .scriptOpen ∧
          (s.cursor.advance Delimiter.scriptTag.length).skipTagRest.1 = false ∧
          s.next.1.span.stop = source.utf8ByteSize ∧
          ¬ ∃ d ∈ parsed.diagnostics, d.kind = .missingTagClose ∧ d.span = s.next.1.span := by
  intro source
  have hend : (Scanner.ofSource source).toEnd?.isSome = true := by decide +kernel
  obtain ⟨hread, hreported⟩ := openTags_reported source false hend
  have hvalues : Document.valuesEnd source (significantTokens source) = true := by decide +kernel
  obtain ⟨parsed, hparsed⟩ := Option.isSome_iff_exists.mp (hread.trans hvalues)
  have hkind : (Scanner.ofSource source).next.1.kind = .scriptOpen := by decide +kernel
  have hopen : ((Scanner.ofSource source).cursor.advance
      -- the tag is open, but its text ends with the `>` in the quotes
      Delimiter.scriptTag.length).skipTagRest.1 = false := by
    decide +kernel
  have hlast : endsWith ['>'] ((Scanner.ofSource source).next.1.text source).toList = true := by
    decide +kernel
  obtain ⟨-, hstop, hiff⟩ := hreported parsed hparsed 0 Delimiter.scriptTag (by
    show (Scanner.ofSource source).next.1.kind.openTag? = _
    rw [hkind]
    rfl)
  refine ⟨hend, parsed, hparsed, hkind, hopen, hstop hopen, fun hmissing => ?_⟩
  exact Bool.noConfusion (hlast.symm.trans (hiff.mp hmissing).2)

end RsxInspect
