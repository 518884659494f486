import RsxInspect.Proofs.Markup.Syntax
import RsxInspect.Proofs.Scan.Braced
import RsxInspect.Proofs.Template.Kept
import RsxInspect.Proofs.Template.Keywords
import RsxInspect.Proofs.Template.Soundness

/-!
# Expressions as text

An expression in braces that makes up all of a template (`templateOf`, `braced`) is scanned up to
its closing braces and read as one interpolation. If nothing is reported of the file, then the text
between the braces, read alone, has the tokens of that interpolation, and these make up its
expression (`ReadsAsText.exists_run`).

The way there: the scan comes to the braces (`reads_textFront`), what is read starts with what
stands there (`exists_tokens_braced`), the first piece of the template is the interpolation
(`ReadsAsText.exists_tokens`), and the closing braces that end it are those at the end
(`eq_spacedOut_of_stop`), so all of the text is its run.
-/

namespace RsxInspect

open String (utf8Len)

/-- A file with nothing but a template that has the markup in it. -/
def templateOf (markup : List Char) : String :=
  String.ofList (Delimiter.templateTag ++ '>' :: (markup ++ Delimiter.templateClose))

theorem toList_templateOf (markup : List Char) : (templateOf markup).toList
    = Delimiter.templateTag ++ '>' :: (markup ++ Delimiter.templateClose) := String.toList_ofList

/-- The characters between braces: an expression with a space on either side, as `Markup.render`
writes it. -/
def spacedOut (e : List Char) : List Char := ' ' :: (e ++ [' '])

/-- An expression in braces. -/
def braced (e : List Char) : List Char := Markup.inBraces (spacedOut e)

/-- The interpolation, if the node is one. -/
def Node.interpolation? : Node → Option Interpolation
  | interpolation i => some i
  | _ => none

theorem Node.eq_interpolation {n : Node} {i : Interpolation} (h : n.interpolation? = some i) :
    n = .interpolation i := by
  cases n with
  | interpolation j => exact congrArg _ (Option.some.inj h)
  | _ => cases h

/-- The expression can stand as text. In a template of its own (`templateOf`) it is the one
interpolation `i`, which takes all of it, and nothing is reported. -/
def ReadsAsText (e : List Char) (withTrees : Bool) (i : Interpolation) : Prop :=
  ∃ parsed, Document.parse? (templateOf (braced e)) withTrees = some parsed ∧
    parsed.diagnostics = [] ∧ parsed.document.sections.flatMap Section.roots = [.interpolation i] ∧
    i.raw = false ∧ i.span = ⟨10, 10 + utf8Len (braced e)⟩

/-! ### Scanning up to the braces

In front of the expression stand the opening tag of the template and the braces, which are a token
each. What is read behind them goes on from there (`significantTokens_of_reads`). -/

/-- What stands in front of an expression as text. -/
def textFront : List Char := Delimiter.templateTag ++ '>' :: Delimiter.openBraces

namespace Scanner

/-- The opening tag of a template and braces behind it, with no keyword ahead
(`Lexeme.modeInBraces`), are two tokens. -/
theorem reads_textFront (ahead : List Char) (hahead : Lexeme.modeInBraces ahead = .interpolation) :
    Reads (behind [] (textFront ++ ahead) .initial)
      [⟨.templateOpen, ⟨0, 10⟩⟩, ⟨.interpolationOpen, ⟨10, 12⟩⟩]
      (behind textFront ahead ⟨.interpolation, some .interpolationOpen⟩) := by
  have htag : Lexes .initial none [⟨.templateOpen, Delimiter.templateTag ++ ['>']⟩]
      (Delimiter.openBraces ++ ahead) .template :=
    .singleton (by decide) fun _ => rfl
  obtain ⟨last, htag⟩ := htag.reads []
  have hbraces := next_braces (Delimiter.templateTag ++ ['>']) ahead last
  rw [hahead] at hbraces
  have hmove : (behind (Delimiter.templateTag ++ ['>']) (Delimiter.openBraces ++ ahead)
      ⟨.template, last⟩).offset < (behind (Delimiter.templateTag ++ ['>'])
        (Delimiter.openBraces ++ ahead) ⟨.template, last⟩).next.2.offset := by
    rw [hbraces]
    show (10 : Nat) < 12
    decide
  have hstep := Reads.step hmove (.done _)
  rw [hbraces] at hstep
  exact htag.trans hstep

/-- What is read of a file (`significantTokens`) starts with any run from its start, since runs from
one place are beginnings of each other. -/
theorem significantTokens_of_reads {source : String} {ts : List Token} {s : Scanner}
    (hend : (ofSource source).toEnd?.isSome = true) (h : Reads (ofSource source) ts s) :
    ∃ vs s', Reads s vs s' ∧ significantTokens source = significant ts ++ significant vs := by
  have hle : s.offset ≤ (ofSource source).toEnd.2.offset := by
    rw [offset_toEnd hend]
    rw [ofSource_eq_behind] at h
    obtain ⟨mid, rest, hsource, hs⟩ := h.exists_behind
    rw [hs, behind_offset, List.nil_append, ← String.utf8Len_toList source, hsource,
      String.utf8Len_append]
    exact Nat.le_add_right ..
  obtain ⟨vs, hvs, hreads⟩ := h.prefix_of_offset_le (ofSource source).reads_toEnd hle
  refine ⟨vs, _, hreads, ?_⟩
  rw [significantTokens, hvs, significant_append]

/-- What is read of a template with nothing but an expression in braces starts with its opening tag
and braces. -/
theorem exists_tokens_braced {e : List Char}
    (hend : (ofSource (templateOf (braced e))).toEnd?.isSome = true) :
    ∃ vs s, Reads (behind textFront (spacedOut e ++ Delimiter.closeBraces ++ Delimiter.templateClose)
        ⟨.interpolation, some .interpolationOpen⟩) vs s ∧
      significantTokens (templateOf (braced e))
        = ⟨.templateOpen, ⟨0, 10⟩⟩ :: ⟨.interpolationOpen, ⟨10, 12⟩⟩ :: significant vs := by
  have hsource : (templateOf (braced e)).toList = textFront ++ (spacedOut e
      ++ Delimiter.closeBraces ++ Delimiter.templateClose) := by
    rw [toList_templateOf]
    simp [braced, Markup.inBraces, textFront]
  have hfront :=
    reads_textFront (spacedOut e ++ Delimiter.closeBraces ++ Delimiter.templateClose) rfl
  rw [← hsource, ← ofSource_eq_behind] at hfront
  obtain ⟨vs, s, hvs, htokens⟩ := significantTokens_of_reads hend hfront
  exact ⟨vs, s, hvs, htokens⟩

end Scanner

/-! ### Reading the interpolation

What is read between the braces decides where they end. If the interpolation is read without a
report, then its run is the expression and the closing braces are the ones that were written. -/

/-- Closing braces end the run that they are the first to end (`endsRun`). -/
theorem Braces.exists_close {first : Token} {ts : List Token}
    (h : (Braces.read first ts 0).terminated = true) :
    ∃ close more, ts = (Braces.read first ts 0).run ++ close :: more ∧
      close.kind = .interpolationClose ∧
      (Braces.read first ts 0).span = ⟨first.span.start, close.span.stop⟩ := by
  let run := ts.takeWhile (!·.kind.endsRun)
  have hdrop : ts.drop (0 + run.length) = ts.dropWhile (!·.kind.endsRun) := by
    rw [Nat.zero_add]
    conv => lhs; rw [← List.takeWhile_append_dropWhile (p := fun t => !t.kind.endsRun) (l := ts)]
    exact List.drop_left
  have hends : ((ts.drop (0 + run.length)).head?.any (·.kind == .interpolationClose)) = true := h
  rw [hdrop] at hends
  -- the run stops at the first token that ends it, which `h` says is the closing braces
  cases hrest : ts.dropWhile (!·.kind.endsRun) with
  | nil =>
    rw [hrest] at hends
    cases hends
  | cons close more =>
    rw [hrest] at hends
    have hts : ts = run ++ close :: more := by
      rw [← hrest]
      exact List.takeWhile_append_dropWhile.symm
    refine ⟨close, more, hts, by simpa using hends, ?_⟩
    have hspan : (Braces.read first ts 0).span = spanOf first ts (run.length + 1) := by
      show spanOf first ts (if (Braces.read first ts 0).terminated then _ else _) = _
      rw [if_pos h, Nat.zero_add]
      rfl
    have hlast : (first :: ts)[run.length + 1]? = some close := by
      rw [List.getElem?_cons_succ, hts]
      simp
    rw [hspan, spanOf, endOf, hlast]
    rfl

/-- What is read as text (`ReadsAsText`) is the first piece of the file: there is no other node, and
nothing is reported. -/
theorem ReadsAsText.exists_tokens {e : List Char} {withTrees : Bool} {i : Interpolation}
    (h : ReadsAsText e withTrees i) :
    let r : Reading := ⟨templateOf (braced e), withTrees⟩
    ∃ ts vs s, Scanner.Reads (.behind textFront (spacedOut e ++ Delimiter.closeBraces
        ++ Delimiter.templateClose) ⟨.interpolation, some .interpolationOpen⟩) vs s ∧
      ts = significant vs ∧ (∀ t ∈ ts, t.anomaly? r.source = none) ∧
      (readInterpolation r ⟨.interpolationOpen, ⟨10, 12⟩⟩ ts 0 false).diagnostics = [] ∧
      (readInterpolation r ⟨.interpolationOpen, ⟨10, 12⟩⟩ ts 0 false).piece
        = .node (.interpolation i) := by
  intro r
  obtain ⟨parsed, hparsed, hclean, hroots, -, -⟩ := h
  obtain ⟨hend, rfl⟩ := Document.eq_of_parse? hparsed
  obtain ⟨vs, s, hvs, htokens⟩ := Scanner.exists_tokens_braced hend
  let opening : Token := ⟨.templateOpen, ⟨0, 10⟩⟩
  let first : Token := ⟨.interpolationOpen, ⟨10, 12⟩⟩
  let ts := significant vs
  have htokens : significantTokens r.source = opening :: first :: ts := htokens
  have hpiece : Piece.read r first ts = readInterpolation r first ts 0 false :=
    readBraces_plain_head (hvs.trace.not_directive (show Mode.interpolation ≠ .directive by decide))
  rw [show (⟨templateOf (braced e), withTrees⟩ : Reading) = r from rfl, htokens] at hclean hroots
  -- the first child
  have hopening : Document.sectionOpenedBy? opening.kind = some .template := rfl
  obtain ⟨⟨more, hsections⟩, hsection⟩ :=
    Document.exists_first_section r (first :: ts) hopening
  obtain ⟨⟨ns, hchildren⟩, hpieceClean⟩ := Document.exists_first_child
    (Document.notesAt r #[] .empty .template opening) opening
    (show first.kind ≠ .templateClose from by decide) (congrArg PieceRead.piece hpiece)
  rw [hpiece] at hpieceClean
  refine ⟨ts, vs, s, hvs, rfl, fun t ht => ?_, hpieceClean (hsection hclean), ?_⟩
  · have hlexical := (Document.diagnostics_eq_nil_iff.mp hclean).1
    have hnone := (Findings.recordAll_eq_nil_iff.mp hlexical).2
    exact List.filterMap_eq_nil_iff.mp hnone t
      (List.mem_cons_of_mem _ (List.mem_cons_of_mem _ ht))
  · rw [hsections, List.flatMap_cons] at hroots
    have hfirst : (Section.template (Document.readTemplate r
        (Document.notesAt r #[] .empty .template opening) opening (first :: ts)).content).roots
          ++ more.flatMap Section.roots = [.interpolation i] := hroots
    rw [Section.roots, hchildren] at hfirst
    exact congrArg Piece.node (List.cons.inj hfirst).1

/-- Closing braces that end the interpolation are those at the end of the text, since the
interpolation takes all of it. -/
theorem eq_spacedOut_of_stop {e inner beyond : List Char} {stop : Nat}
    (hahead : spacedOut e ++ (Delimiter.closeBraces ++ Delimiter.templateClose) = inner ++ beyond)
    (hstop : stop = utf8Len (textFront ++ inner) + 2) (hsize : stop = 10 + utf8Len (braced e)) :
    spacedOut e = inner := by
  refine (eq_of_utf8Len_eq hahead ?_).1
  have hopen : utf8Len Delimiter.openBraces = 2 := by decide
  have hclose : utf8Len Delimiter.closeBraces = 2 := by decide
  have hfront : utf8Len textFront = 12 := by decide
  rw [braced, Markup.inBraces, String.utf8Len_append, String.utf8Len_append] at hsize
  rw [String.utf8Len_append] at hstop
  omega

/-- **Expressions as text** (`ReadsAsText`). The text between the braces, read alone, has the tokens
of the interpolation. -/
theorem ReadsAsText.exists_run {e : List Char} {withTrees : Bool} {i : Interpolation}
    (h : ReadsAsText e withTrees i) :
    ∃ us head x,
      Scanner.Reads (.behind textFront (spacedOut e) ⟨.interpolation, some .interpolationOpen⟩) us
        (.behind (textFront ++ spacedOut e) [] head) ∧
      (∀ t ∈ significant us, t.anomaly? (templateOf (braced e)) = none) ∧ i.expression = some x ∧
      Expression.ofRun? ⟨templateOf (braced e), withTrees⟩ (significant us) true = (some x, []) := by
  obtain ⟨ts, vs, s, hvs, hts, hnone, hclean, hpiece⟩ := h.exists_tokens
  obtain ⟨-, -, -, -, -, hspan⟩ := h
  let r : Reading := ⟨templateOf (braced e), withTrees⟩
  let first : Token := ⟨.interpolationOpen, ⟨10, 12⟩⟩
  let b := Braces.read first ts 0
  have hi : i = ⟨false, (Expression.ofRun? r b.run true).1, b.span, b.terminated⟩ :=
    (Node.interpolation.inj (Piece.node.inj hpiece)).symm
  -- nothing is reported, so there are closing braces and an expression
  obtain ⟨hfront, hmissing⟩ := List.append_eq_nil_iff.mp hclean
  obtain ⟨hunclosed, hproblems⟩ := List.append_eq_nil_iff.mp hfront
  have hterminated : b.terminated = true := Braces.terminated_of_unclosed hunclosed
  obtain ⟨x, hx⟩ : ∃ x, (Expression.ofRun? r b.run true).1 = some x := by
    have hsome : (if (Expression.ofRun? r b.run true).1.isNone && b.terminated then
        [Problem.emptyBraces.on b.span] else []) = [] := hmissing
    rw [hterminated, Bool.and_true] at hsome
    exact Option.isSome_iff_exists.mp (isSome_of_unreported hsome)
  obtain ⟨close, more, hsplit, hclose, hstop⟩ := Braces.exists_close hterminated
  -- the braces are those at the end
  have hrun : ∀ t ∈ b.run, t.kind.endsRun = false := by
    intro t ht
    simpa using List.mem_takeWhile_imp ht
  obtain ⟨inner, beyond, us, head, hahead, hoffset, hus, hreads⟩ :=
    hvs.up_to_close (hts.symm.trans hsplit) hrun hclose
  have hinner : spacedOut e = inner := by
    rw [hi, hstop, Span.mk.injEq] at hspan
    rw [List.append_assoc, List.append_assoc] at hahead
    exact eq_spacedOut_of_stop hahead hoffset hspan.2
  subst hinner
  refine ⟨us, head, x, hreads, fun t ht => hnone t ?_, ?_, ?_⟩
  · rw [hsplit, ← hus]
    exact List.mem_append_left _ ht
  · rw [hi]
    exact hx
  · rw [hus]
    exact Prod.ext hx hproblems

end RsxInspect
