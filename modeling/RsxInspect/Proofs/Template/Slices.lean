import RsxInspect.Proofs.Template.MadeFiles
import RsxInspect.Proofs.Text.Lines

/-!
# Every span is a slice

All spans of a parsed file and of its diagnostics can be cut out of the source, and so can every span
whose text is looked at on the way (`Slice`) and when the tree or the diagnostics are shown
(`Parsed.Shown`). So none of this can fail on an offset, whatever the file (`slices_fit`). What is
looked at on the way is no less of a slice if the file is never read, since the scan of a value in it
stands still (`Document.valuesEnd`).
-/

namespace RsxInspect

/-- The tokens that are looked at: those of the file, and whatever the scans of its attribute values
read (`valueScanner`), call by call. Where such a scan stands still these are the tokens in front of
that place, as in `valueTokens`, and the empty ones at it. -/
def Reading.Lexed (r : Reading) (t : Token) : Prop :=
  t ∈ significantTokens r.source ∨
    ∃ v ∈ significantTokens r.source, v.kind = .attrValue ∧
      Delimiter.openBraces.isPrefixOf (r.textOf v).toList = true ∧
      ∃ k, t = (valueScanner r.source v).tokenAt k

/-- What an outline shows of a node in the words of the source. -/
def Node.shown : Node → List Span
  | .interpolation i => i.expression.toList.map Expression.span
  | .error s => [s]
  | _ => []

/-- The spans whose text is looked at when a file is read. -/
inductive Slice (r : Reading) : Span → Prop where
  /-- The text of a token: a name, a value, an opening tag that may lack its `>`, a part of an
  expression, something that is not expected or that has a problem in itself. -/
  | token {t : Token} (ht : r.Lexed t) : Slice r t.span
  /-- What stands between the braces of an attribute value and is scanned again. -/
  | range {v : Token} (hv : v ∈ significantTokens r.source)
      (hbraces : Delimiter.openBraces.isPrefixOf (r.textOf v).toList = true) :
      Slice r (v.valueRange r.source)
  /-- Texts in a row, as one. -/
  | text {first : Token} {ts : List Token} (hts : first :: ts <:+ significantTokens r.source) :
      Slice r ((ts.takeWhile (·.kind == .text)).foldl (fun s t => s.cover t.span) first.span)
  /-- A start tag, which may have no end. -/
  | startTag {first : Token} {ts : List Token} (hts : first :: ts <:+ significantTokens r.source) :
      Slice r (spanOf first ts (readStartTag r first ts).taken)
  /-- Bad characters that are folded into one diagnostic, across tokens and calls. -/
  | folded {ds : List Diagnostic} {d : Diagnostic}
      (hds : ∀ e ∈ ds, ∃ t, r.Lexed t ∧ t.anomaly? r.source = some e)
      (hd : d ∈ Findings.recordAll r.source [] ds) : Slice r d.span

/-- The spans whose text is looked at when what came of a file is shown. -/
inductive Parsed.Shown (source : String) (parsed : Parsed) : Span → Prop where
  /-- What an outline of the tree shows. -/
  | outline {depth : Nat} {n : Node} {s : Span} (hn : (depth, n) ∈ parsed.document.nodes)
      (hs : s ∈ n.shown) : Shown source parsed s
  /-- The part of a line in front of a diagnostic, where its column is counted. -/
  | column {d : Diagnostic} (hd : d ∈ parsed.diagnostics) :
      Shown source parsed ⟨(LineIndex.ofSource source).startOf d.span.start, d.span.start⟩

section Slices

variable {r : Reading}

theorem Reading.Lexed.fits {t : Token} (h : r.Lexed t) : t.span.Fits r.source := by
  rcases h with h | ⟨v, hv, -, hbraces, k, rfl⟩
  · exact fits_significantTokens r.source t h
  · obtain ⟨done, inner, beyond, hinner⟩ := exists_inner (fits_significantTokens r.source v hv) hbraces
    exact hinner.fits_tokenAt k

/-- The `valueRange` between the braces of a value fits as well. -/
theorem Token.valueRange_fits {v : Token} (hv : v.span.Fits r.source)
    (hbraces : Delimiter.openBraces.isPrefixOf (r.textOf v).toList = true) :
    (v.valueRange r.source).Fits r.source := by
  obtain ⟨done, inner, beyond, hinner⟩ := exists_inner hv hbraces
  rw [hinner.range]
  exact .of_split hinner.source

/-- The spans of a file whose sections are `Made` all fit. -/
theorem Document.spans_fit {sections : List Section} {ds : List Diagnostic}
    (h : ∀ s ∈ sections, s.Made r ds) :
    Span.AllFit r.source (Document.spans ⟨sections, ⟨0, r.source.utf8ByteSize⟩⟩) :=
  .cons (.of_boundaries (.zero r.source) (.size r.source) (Nat.zero_le _))
    (.flatMap fun s hs => (h s hs).fits)

theorem Node.shown_fits {source : String} {n : Node} (h : Span.AllFit source n.ownSpans) :
    Span.AllFit source n.shown := by
  cases n with
  | interpolation i =>
    intro s hs
    obtain ⟨e, he, rfl⟩ := List.mem_map.mp hs
    refine h _ (List.mem_cons_of_mem _ (List.mem_flatMap.mpr ⟨e, he, ?_⟩))
    exact List.mem_cons_self ..
  | error s => exact h
  | _ => exact .nil

/-- Every `Slice` that is looked at on the way fits. -/
theorem Slice.fits {s : Span} (h : Slice r s) : s.Fits r.source := by
  have hrow := tokensInRow_significantTokens r.source
  cases h with
  | token ht => exact ht.fits
  | range hv hbraces => exact Token.valueRange_fits (fits_significantTokens r.source _ hv) hbraces
  | text hts =>
    have hall := (hrow.suffix hts).fits
    refine foldl_cover_fits (hall _ (List.mem_cons_self ..)) fun t ht => ?_
    exact hall t (List.mem_cons_of_mem _ ((List.takeWhile_prefix _).subset ht))
  | startTag hts => exact (hrow.suffix hts).spanOf _
  | folded hds hd =>
    refine Findings.recordAll_fits (List.forall_mem_nil _) (fun e he => ?_) _ hd
    obtain ⟨t, ht, hanomaly⟩ := hds e he
    exact (Token.anomaly?_local ht.fits hanomaly).fits

/-- Whatever is `Shown` fits, if the spans of the tree and the diagnostics do. -/
theorem Parsed.Shown.fits {source : String} {parsed : Parsed} {s : Span}
    (h : parsed.Shown source s)
    (hnodes : ∀ n ∈ parsed.document.allNodes, Span.AllFit source n.ownSpans)
    (hdiagnostics : ∀ d ∈ parsed.diagnostics, d.span.Fits source) : s.Fits source := by
  cases h with
  | @outline depth n s hn hs =>
    refine Node.shown_fits (hnodes n ?_) s hs
    rw [← parsed.document.nodes_eq]
    exact List.mem_map.mpr ⟨(depth, n), Array.mem_toList_iff.mpr hn, rfl⟩
  | column hd => exact LineIndex.fits_locate (hdiagnostics _ hd).start

end Slices

/-- **Every span is a slice.** Let the scan of a file reach the end. Everything whose text is looked at
on the way (`Slice`) starts no later than it ends, ends inside the source and has character boundaries
for its ends (`Span.Fits`). The file is read exactly if the scans of its values reach their ends
(`Document.valuesEnd`), and then so do all spans in its tree (`Document.spans`) and in its diagnostics,
and everything whose text is looked at to show them (`Parsed.Shown`). -/
theorem slices_fit (source : String) (withTrees : Bool)
    (h : (Scanner.ofSource source).toEnd?.isSome = true) :
    (∀ s, Slice ⟨source, withTrees⟩ s → s.Fits source) ∧
      (Document.parse? source withTrees).isSome
        = Document.valuesEnd source (significantTokens source) ∧
      ∀ parsed, Document.parse? source withTrees = some parsed →
        (∀ s ∈ parsed.document.spans, s.Fits source) ∧
        (∀ d ∈ parsed.diagnostics, d.span.Fits source) ∧
        ∀ s, parsed.Shown source s → s.Fits source := by
  let r : Reading := ⟨source, withTrees⟩
  refine ⟨fun s hs => hs.fits, Document.forall_parse? withTrees h ?_⟩
  obtain ⟨all, notes, hfiled, hperm⟩ := Document.ofTokens_filed r
  have hdiagnostics : ∀ d ∈ (Document.ofTokens r (significantTokens source)).diagnostics,
      d.span.Fits source := by
    -- what the scan reports lies on its tokens, what the parser reports on the spans that it made
    intro d hd
    rcases List.mem_append.mp (hperm.mem_iff.mp hd) with hd | hd
    · refine Findings.recordAll_fits (List.forall_mem_nil _) (fun e he => ?_) d hd
      exact (anomalies_local (tokensInRow_significantTokens source) e he).fits
    · exact Findings.recordAll_fits (List.forall_mem_nil _) hfiled.fits d hd
  exact ⟨Document.spans_fit hfiled.sections, hdiagnostics, fun s hs =>
    hs.fits (fun n hn => (hfiled.nodes n hn).fits) hdiagnostics⟩

/-- Characters of several bytes, bad characters that are folded, a value that is cut short, a block
that is never closed and a start tag without an end. -/
theorem slices_fit_unfinished :
    let source := String.ofList
      "%é<template><p a=\x7b\x7b ü + \x7d\x7d>ö\x7b\x7b@if %% x\x7d\x7d<br c".toList
    (Scanner.ofSource source).toEnd?.isSome = true ∧
      (∀ s, Slice ⟨source, true⟩ s → s.Fits source) ∧
      ∃ parsed, Document.parse? source true = some parsed ∧
        (∀ s ∈ parsed.document.spans, s.Fits source) ∧
        (∀ s, parsed.Shown source s → s.Fits source) ∧
        parsed.document.spans.length = 20 := by
  intro source
  have hend : (Scanner.ofSource source).toEnd?.isSome = true := by decide +kernel
  obtain ⟨hslices, -, hfits⟩ := slices_fit source true hend
  have hlength : (Document.parse? source true).map (·.document.spans.length) = some 20 := by
    decide +kernel
  obtain ⟨parsed, hparsed, hlength⟩ := Option.map_eq_some_iff.mp hlength
  obtain ⟨hspans, -, hshown⟩ := hfits parsed hparsed
  exact ⟨hend, hslices, parsed, hparsed, hspans, hshown, hlength⟩

end RsxInspect
