import RsxInspect.Proofs.Template.MadeFiles

/-!
# Expressions without trees

Where trees are wanted, an expression without one comes with a diagnostic that overlaps or touches
it. There is one exception: the text between the braces of an attribute value is scanned on its own,
and the tag that closes the template is a token of that scan, which is no part of an expression and
is not reported (`treeless_reported`).

That something is reported where an expression without a tree stands is part of what nodes are made
of (`Expression.Explained`). What is left is that it is still seen in the log, where bad characters
next to each other are folded into one (`Span.Noted.recordAll`).
-/

namespace RsxInspect

/-- What was noted before it was folded into a log is touched by something in the log: `recordAll`
only lets spans grow, and what grows still touches (`Span.Touches.of_covered`). -/
theorem Span.Noted.recordAll (source : String) {ds : List Diagnostic} {s : Span} (h : s.Noted ds) :
    s.Noted (Findings.recordAll source [] ds) := by
  obtain ⟨d, hd, htouches⟩ := h
  obtain ⟨e, he, -, hstart, hstop⟩ := Findings.exists_covering (.inl hd)
  exact ⟨e, he, htouches.of_covered hstart hstop⟩

/-- **Expressions without trees are reported.** Let the scan of a file reach the end and trees be
wanted. The file is read exactly if the scans of its values do (`Document.valuesEnd`). Then an
expression of an interpolation or of a directive (`Node.expressions`) that has no tree is overlapped or
touched by a diagnostic (`Span.Touches`), and so is one of an attribute value
(`Node.valueExpressions`), unless the tag that closes the template is one of its tokens. -/
theorem treeless_reported (source : String)
    (h : (Scanner.ofSource source).toEnd?.isSome = true) :
    (Document.parse? source true).isSome
        = Document.valuesEnd source (significantTokens source) ∧
      ∀ parsed, Document.parse? source true = some parsed →
        (∀ n ∈ parsed.document.allNodes, ∀ e ∈ n.expressions, e.tree = none →
          ∃ d ∈ parsed.diagnostics, d.span.Touches e.span) ∧
        (∀ n ∈ parsed.document.allNodes, ∀ e ∈ n.valueExpressions, e.tree = none →
          (∀ t ∈ e.tokens, t.kind ≠ .templateClose) →
            ∃ d ∈ parsed.diagnostics, d.span.Touches e.span) := by
  let r : Reading := ⟨source, true⟩
  refine Document.forall_parse? true h ?_
  obtain ⟨all, notes, hfiled, hperm⟩ := Document.ofTokens_filed r
  generalize Document.ofTokens r (significantTokens source) = parsed at hfiled hperm ⊢
  -- what is noted of the tokens or by the loop is in the one log or in the other
  have hlogged : ∀ s : Span, s.Noted (Document.anomalies source ++ all) →
      ∃ d ∈ parsed.diagnostics, d.span.Touches s := by
    rintro s ⟨d, hd, htouches⟩
    have hnoted : s.Noted (Document.anomalies source) ∨ s.Noted all :=
      (List.mem_append.mp hd).imp (fun hd => ⟨d, hd, htouches⟩) fun hd => ⟨d, hd, htouches⟩
    rcases hnoted with hnoted | hnoted
    · obtain ⟨e, he, htouches⟩ := hnoted.recordAll source
      exact ⟨e, hperm.mem_iff.mpr (List.mem_append_left _ he), htouches⟩
    · obtain ⟨e, he, htouches⟩ := hnoted.recordAll source
      exact ⟨e, hperm.mem_iff.mpr (List.mem_append_right _ he), htouches⟩
  have hnodes : ∀ n ∈ parsed.document.allNodes, n.Made r (Document.anomalies source ++ all) :=
    hfiled.nodes
  refine ⟨fun n hn e he hnone => ?_, fun n hn e he hnone hclose => ?_⟩
  · rcases (hnodes n hn).explained e he rfl hnone with hnoted | ⟨hvalue, -⟩
    · exact hlogged e.span hnoted
    · cases hvalue
  · rcases (hnodes n hn).explained_values e he rfl hnone with hnoted | ⟨-, t, ht, hkind⟩
    · exact hlogged e.span hnoted
    · exact absurd hkind (hclose t ht)

/-- The exception: the closing tag stands between the braces of a value, and nothing is reported. -/
theorem treeless_reported_closed :
    let source := String.ofList "<template><p a=\x7b\x7b b </template> \x7d\x7d></p></template>".toList
    (Scanner.ofSource source).toEnd?.isSome = true ∧
      ∃ parsed, Document.parse? source true = some parsed ∧ parsed.diagnostics = [] ∧
        (∀ n ∈ parsed.document.allNodes, ∀ e ∈ n.expressions, e.tree.isSome = true) ∧
        ∃ n ∈ parsed.document.allNodes, ∃ e ∈ n.valueExpressions, e.tree = none ∧
          ∃ t ∈ e.tokens, t.kind = .templateClose := by
  intro source
  have hend : (Scanner.ofSource source).toEnd?.isSome = true := by decide +kernel
  obtain ⟨-, hreported⟩ := treeless_reported source hend
  have hnone : (Document.parse? source true).map (·.diagnostics) = some [] := by decide +kernel
  have hvalue : (Document.parse? source true).map (fun p => p.document.allNodes.any fun n =>
      n.valueExpressions.any fun e => e.tree.isNone) = some true := by
    decide +kernel
  obtain ⟨parsed, hparsed, hnone⟩ := Option.map_eq_some_iff.mp hnone
  obtain ⟨hexpressions, hvalues⟩ := hreported parsed hparsed
  rw [hparsed] at hvalue
  refine ⟨hend, parsed, hparsed, hnone, fun n hn e he => ?_, ?_⟩
  -- nodes have no diagnostics to be explained by, so all have trees; the value has a closing tag in
  -- its run
  · by_contra htree
    obtain ⟨d, hd, -⟩ := hexpressions n hn e he (by simpa using htree)
    rw [hnone] at hd
    cases hd
  · obtain ⟨n, hn, hvalue⟩ := List.any_eq_true.mp (Option.some.inj hvalue)
    obtain ⟨e, he, htree⟩ := List.any_eq_true.mp hvalue
    rw [Option.isNone_iff_eq_none] at htree
    refine ⟨n, hn, e, he, htree, ?_⟩
    by_contra hclose
    obtain ⟨d, hd, -⟩ := hvalues n hn e he htree fun t ht hkind => hclose ⟨t, ht, hkind⟩
    rw [hnone] at hd
    cases hd

end RsxInspect
