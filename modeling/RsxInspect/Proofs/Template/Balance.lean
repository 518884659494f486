import RsxInspect.Proofs.Diagnostic.Log
import RsxInspect.Proofs.Template.Moves

/-!
# Blocks and elements are balanced

The books of a whole file. A `Ledger` says of all that was read so far how its entries, what is
still open, the log and the keywords go together. The bricks:

* `Ledger.move`: a step adds its own `Moves`, and the books are right again. The keywords of a step
  stand behind all that were there before, so no closer can answer for two
  (`Ledger.not_endsAt_made`, `Ledger.not_endsAt_before`, `Ledger.filter_closers`).
* `Ledger.reportAll`: what is reported beside the steps is plain and changes nothing.
* `Builder.Reaches.kept` and `Document.Reaches.ledger`: the two loops of a file, each by an
  induction over its tops, keep the books of all keywords that were passed (`keywordBraces`).
* `Document.ReadsTemplate.ledger`: at the end of a template nothing is open, so only entries are
  left.
* `Node.entry_eq`: what an entry says is what its node says.

`balanced_parse?` puts this together: with all tokens taken, the books are those of the file, and
each line of them is a field of `Parsed.Balanced`.
-/

namespace RsxInspect

/-- The books of what was read up to the offset `stop`: the entries so far and what is still open,
the log, and the keywords with the spans of their braces. `blocks` to `mismatched` are what is to be
shown; `ends` and `place` bound entries and keywords by `stop`, so that a later keyword cannot be
one of these. -/
structure Ledger (entries opens : List Entry) (log : Findings) (words : List (TokenKind × Span))
    (stop : Nat) : Prop where
  blocks : ∀ kind, entries.countP (·.isDirective kind) + opens.countP (·.isDirective kind)
    = words.countP (·.1 == kind.openWord)
  unterminated : log.countP (·.isUnterminatedDirective) = entries.countP (·.isOpenBlock)
  neverClosed : log.countP (·.isNeverClosed) = entries.countP (·.isOpenElement)
  ends : ∀ e ∈ entries, ∀ s, e.endsAt s = true → s.start < stop
  place : ∀ word ∈ words, word.2.start < stop
  apart : (words.map Prod.snd).Nodup
  closed : ∀ c ∈ closers words,
    entries.countP (·.endsAt c.2) = 1 ∧ entries.countP (·.answers c.1 c.2) = 1
  mismatched : ((log.filter (·.isMismatchedClose)).map Diagnostic.span).Perm
    (((closers words).filter fun c => entries.any (·.isWrongAt c.2)).map Prod.snd)

/-- Closers of some keywords and more are those of the first and those of the others. -/
theorem closers_append (words more : List (TokenKind × Span)) :
    closers (words ++ more) = closers words ++ closers more :=
  List.filterMap_append

/-- A closer stands where its keyword stands, since `closers` only drops the other keywords. -/
theorem mem_of_mem_closers {words : List (TokenKind × Span)} {c : DirectiveKind × Span}
    (h : c ∈ closers words) : ∃ word ∈ words, word.1 = c.1.closeWord ∧ word.2 = c.2 := by
  obtain ⟨word, hword, hc⟩ := List.mem_filterMap.mp h
  obtain ⟨kind, hkind, rfl⟩ := Option.map_eq_some_iff.mp hc
  refine ⟨word, hword, ?_, rfl⟩
  show word.1 = kind.closeWord
  generalize word.1 = k at hkind
  cases k <;> cases hkind <;> rfl

/-- Plain diagnostics in front of others leave no trace in what is filtered: `recordAll` may fold
bad characters, and `p` does not look at these. -/
theorem Findings.filter_recordAll_plain {source : String} {log : Findings}
    {es ds : List Diagnostic} {p : Diagnostic → Bool}
    (hp : ∀ d, d.kind = .badCharacter → p d = false) (hes : es.filter p = []) :
    (log.recordAll source (es ++ ds)).filter p = (ds.filter p).reverse ++ log.filter p := by
  rw [filter_recordAll hp, List.filter_append, hes, List.nil_append]

/-- The same for counts. -/
theorem Findings.countP_recordAll_plain {source : String} {log : Findings}
    {es ds : List Diagnostic} {p : Diagnostic → Bool}
    (hp : ∀ d, d.kind = .badCharacter → p d = false) (hes : es.filter p = []) :
    (log.recordAll source (es ++ ds)).countP p = ds.countP p + log.countP p := by
  rw [List.countP_eq_length_filter, filter_recordAll_plain hp hes, List.length_append,
    List.length_reverse, ← List.countP_eq_length_filter, ← List.countP_eq_length_filter]

namespace Ledger

variable {entries opens entries' made opens' : List Entry} {log : Findings}
  {words more : List (TokenKind × Span)} {a b : Nat} {es ds : List Diagnostic}

/-- Nothing was read: all books are empty. -/
theorem start : Ledger [] [] [] [] 0 where
  blocks _ := rfl
  unterminated := rfl
  neverClosed := rfl
  ends _ he := by cases he
  place _ hword := by cases hword
  apart := .nil
  closed _ hc := by cases hc
  mismatched := .nil

/-- A `Ledger` stays right when nothing is added up to a later offset. -/
theorem mono (h : Ledger entries opens log words a) (hab : a ≤ b) :
    Ledger entries opens log words b :=
  { h with
    ends := fun e he s hs => Nat.lt_of_lt_of_le (h.ends e he s hs) hab
    place := fun word hword => Nat.lt_of_lt_of_le (h.place word hword) hab }

/-- What is made in a step ends behind the closers before it, so it does not end with one of those
(`Entry.endsAt`). -/
theorem not_endsAt_made (h : Ledger entries opens log words a)
    (hmoves : Moves a b opens made opens' ds more) {c : DirectiveKind × Span}
    (hc : c ∈ closers words) : ∀ e ∈ made, e.endsAt c.2 = false := by
  intro e he
  obtain ⟨word, hword, -, hspan⟩ := mem_of_mem_closers hc
  refine Bool.eq_false_iff.mpr fun hend => ?_
  have hbefore := h.place word hword
  have hbehind := (hmoves.ends e he _ hend).1
  rw [hspan] at hbefore
  omega

/-- What was made before a step ends in front of the closers in it, so it does not end with one of
those either. -/
theorem not_endsAt_before (h : Ledger entries opens log words a)
    (hmoves : Moves a b opens made opens' ds more) {c : DirectiveKind × Span}
    (hc : c ∈ closers more) : ∀ e ∈ entries, e.endsAt c.2 = false := by
  intro e he
  obtain ⟨word, hword, -, hspan⟩ := mem_of_mem_closers hc
  refine Bool.eq_false_iff.mpr fun hend => ?_
  have hbehind := (hmoves.place word hword).1
  have hbefore := h.ends e he _ hend
  rw [hspan] at hbehind
  omega

/-- A closer is wrong (`Entry.isWrongAt`) by what was made in its own step: closers of before keep
their verdict, and those of the step get theirs from the entries that it made. -/
theorem filter_closers (h : Ledger entries opens log words a)
    (hmoves : Moves a b opens made opens' ds more) :
    ((closers (words ++ more)).filter fun c => (made ++ entries).any (·.isWrongAt c.2))
      = ((closers words).filter fun c => entries.any (·.isWrongAt c.2))
        ++ (closers more).filter fun c => made.any (·.isWrongAt c.2) := by
  rw [closers_append, List.filter_append]
  congr 1
  · refine List.filter_congr fun c hc => ?_
    rw [List.any_append, (Entry.counts_of_not_endsAt (h.not_endsAt_made hmoves hc) c.1).2.2,
      Bool.false_or]
  · refine List.filter_congr fun c hc => ?_
    rw [List.any_append, (Entry.counts_of_not_endsAt (h.not_endsAt_before hmoves hc) c.1).2.2,
      Bool.or_false]

/-- **One step.** The books go on with the `Moves` of a step, whatever plain diagnostics `es` it
reports besides. The entries are compared up to their order, since a block is entered behind its
children. -/
theorem move (h : Ledger entries opens log words a) (source : String)
    (hmoves : Moves a b opens made opens' ds more) (hab : a ≤ b) (hes : AllPlain es)
    (hperm : entries'.Perm (made ++ entries)) :
    Ledger entries' opens' (log.recordAll source (es ++ ds)) (words ++ more) b := by
  obtain ⟨hunterminated, hmismatched, hnever⟩ := hes.balanced
  have hcount : ∀ p, entries'.countP p = made.countP p + entries.countP p := fun p => by
    rw [hperm.countP_eq, List.countP_append]
  refine ⟨fun kind => ?_, ?_, ?_, fun e he s hs => ?_, fun word hword => ?_, ?_, fun c hc => ?_, ?_⟩
  · have hbefore := h.blocks kind
    have hstep := hmoves.blocks kind
    rw [hcount, List.countP_append]
    omega
  · rw [Findings.countP_recordAll_plain (fun d hd => (Diagnostic.balanced_of_bad hd).1) hunterminated,
      hmoves.unterminated, h.unterminated, hcount]
  · rw [Findings.countP_recordAll_plain (fun d hd => (Diagnostic.balanced_of_bad hd).2.2) hnever,
      hmoves.neverClosed, h.neverClosed, hcount]
  · rcases List.mem_append.mp (hperm.mem_iff.mp he) with he | he
    · exact (hmoves.ends e he s hs).2
    · exact Nat.lt_of_lt_of_le (h.ends e he s hs) hab
  · rcases List.mem_append.mp hword with hword | hword
    · exact Nat.lt_of_lt_of_le (h.place word hword) hab
    · exact (hmoves.place word hword).2
  · rw [List.map_append]
    refine List.nodup_append.mpr ⟨h.apart, hmoves.apart, fun s hs t ht heq => ?_⟩
    obtain ⟨word, hword, rfl⟩ := List.mem_map.mp hs
    obtain ⟨word', hword', rfl⟩ := List.mem_map.mp ht
    have hbefore := h.place word hword
    have hbehind := (hmoves.place word' hword').1
    rw [heq] at hbefore
    omega
  · -- a closer counts only for what was made in its own step
    rw [hcount, hcount]
    rw [closers_append] at hc
    rcases List.mem_append.mp hc with hc | hc
    · obtain ⟨hend, hanswer, -⟩ := Entry.counts_of_not_endsAt (h.not_endsAt_made hmoves hc) c.1
      rw [hend, hanswer, Nat.zero_add, Nat.zero_add]
      exact h.closed c hc
    · obtain ⟨hend, hanswer, -⟩ := Entry.counts_of_not_endsAt (h.not_endsAt_before hmoves hc) c.1
      rw [hend, hanswer]
      exact hmoves.closed c hc
  · have hwrong : ((closers (words ++ more)).filter fun c => entries'.any (·.isWrongAt c.2))
        = (closers (words ++ more)).filter fun c => (made ++ entries).any (·.isWrongAt c.2) :=
      List.filter_congr fun c _ => hperm.any_eq
    rw [Findings.filter_recordAll_plain (fun d hd => (Diagnostic.balanced_of_bad hd).2.1) hmismatched,
      hwrong, h.filter_closers hmoves, List.map_append, List.map_append, List.map_reverse,
      hmoves.mismatched]
    exact ((List.reverse_perm _).append h.mismatched).trans List.perm_append_comm

/-- What is reported beside the steps (`AllPlain`) changes nothing in the books. -/
theorem reportAll (h : Ledger entries opens log words a) (source : String) (hes : AllPlain es) :
    Ledger entries opens (log.recordAll source es) words a := by
  have hmove := h.move source (.refl a a opens) (Nat.le_refl a) hes (.refl _)
  rw [List.append_nil, List.append_nil] at hmove
  exact hmove

end Ledger

/-! ### Templates

`Builder.Reaches.kept` goes over the tops of the loop over pieces, where each step is one of the
`Moves`; what a template leaves open is abandoned at its end, and makes entries then. -/

section Templates

variable {r : Reading} {source : String} {p₀ p : Builder.Progress} {ts₀ ts : List Token}
  {entries : List Entry} {words : List (TokenKind × Span)} {b : Nat}

/-- The books at a top of the loop over pieces, in which the templates before have their entries.
The forest is `Tidy`: what is open there is what the books call open. -/
structure Builder.Progress.Kept (source : String) (entries : List Entry)
    (words : List (TokenKind × Span)) (p : Progress) : Prop where
  tidy : p.builder.forest.Tidy (significantTokens source)
  ledger : Ledger (entries ++ p.builder.forest.entries (significantTokens source))
    (p.builder.forest.opens (significantTokens source)) p.builder.notes.findings words p.stop

/-- The piece that is next is entered with its keyword, and the forest stays tidy
(`Forest.Adds.moves`). -/
theorem Builder.Progress.Kept.piece {t : Token} (h : p.Kept source entries words)
    (htrace : Trace .template (t :: ts)) (ht : t.kind ≠ .templateClose)
    (hspaced : Spaced source p.stop ((t :: ts).map Token.span) b)
    (hts : ∀ u ∈ ts, u ∈ significantTokens source) (taken : Nat) :
    let piece := Piece.read r t ts
    Kept source entries (words ++ piece.piece.keywords)
      ⟨p.builder.add r piece, taken, endOf t ts piece.taken⟩ := by
  intro piece
  obtain ⟨ds, hadds, hfindings⟩ := add_read r p.builder htrace ht hspaced
  obtain ⟨hgap, hnonempty, -⟩ := (hspaced.group (Piece.read_stops r htrace ht).1).ordered
  obtain ⟨made, hperm, htidy, hmoves⟩ := hadds.moves h.tidy (Piece.read_counts htrace ht hts)
    (Piece.read_nestedAt r htrace ht hspaced) hnonempty
  refine ⟨htidy, ?_⟩
  -- the readers report plain diagnostics only, so the moves are those of the step
  show Ledger _ _ (p.builder.add r piece).notes.findings _ _
  rw [hfindings]
  have hplain := Piece.read_plain r (htrace.startsPiece ht) ts
  refine (h.ledger.mono hgap).move r.source hmoves (Nat.le_of_lt hnonempty) hplain ?_
  exact (hperm.append_left entries).trans (List.perm_append_comm_assoc ..)

/-- The books are kept at every top of the loop over pieces, with the keywords of the pieces so far,
by induction on `Builder.Reaches`. -/
theorem Builder.Reaches.kept (h : Reaches r p₀ ts₀ p ts) (h₀ : Trace .template ts₀)
    (hspaced : Spaced source p₀.stop (ts₀.map Token.span) b)
    (hts : ∀ t ∈ ts₀, t ∈ significantTokens source) (hstart : p₀.Kept source entries words) :
    ∃ more, keywordBraces ts₀ = more ++ keywordBraces ts ∧
      p.Kept source entries (words ++ more) := by
  induction h with
  | start => exact ⟨[], rfl, by rwa [List.append_nil]⟩
  | @piece p t ts h ht ih =>
    obtain ⟨more, hwords, hkept⟩ := ih
    have htrace := h.trace h₀
    have hnext : ∀ u ∈ ts, u ∈ significantTokens source :=
      fun u hu => hts u (h.suffix.subset (List.mem_cons_of_mem _ hu))
    refine ⟨more ++ (Piece.read r t ts).piece.keywords, ?_, ?_⟩
    · rw [hwords, Piece.read_keywords r htrace ht, List.append_assoc]
    · rw [← List.append_assoc]
      exact hkept.piece htrace ht (h.spaced h₀ hspaced) hnext _

namespace Document

variable {notes : Notes} {opening : Token}

/-- A template that `ReadsTemplate` describes has a `Ledger` in which nothing is open: what was is
abandoned, and the nodes of the template are entered. -/
theorem ReadsTemplate.ledger {s : SectionRead TemplateSection} {k : Nat}
    (h : ReadsTemplate r notes opening ts s p k) (htrace : Trace .template ts)
    (hspaced : Spaced source opening.span.stop (ts.map Token.span) b)
    (hts : ∀ t ∈ ts, t ∈ significantTokens source)
    (hledger : Ledger entries [] notes.findings words opening.span.stop) :
    let S := significantTokens source
    ∃ more, keywordBraces ts = more ++ keywordBraces (ts.drop k) ∧
      Ledger (entries ++ (Node.subtreeAll s.content.children).map (Node.entry S)) []
        s.notes.findings (words ++ more) p.stop := by
  intro S
  let f := p.builder.forest
  have hempty : Forest.empty.Tidy S := fun frame hframe => (nomatch hframe)
  have hstart := hledger.reportAll r.source (openTagProblem_plain r opening)
  obtain ⟨more, hwords, hkept⟩ := h.reaches.kept htrace hspaced hts
    ⟨hempty, by rw [← List.append_nil entries] at hstart; exact hstart⟩
  refine ⟨more, hwords, ?_⟩
  have hleft : ∀ frame ∈ f.frames, frame.entry S ≠ .other :=
    fun frame hframe => (hkept.tidy frame hframe).1
  have hmoves := (Moves.refl p.stop p.stop []).abandoned hleft
  rw [List.append_nil, List.nil_append, List.nil_append] at hmoves
  -- no frame is left, so the entries are those of the nodes
  have hperm : ((Node.subtreeAll s.content.children).map (Node.entry S)).Perm
      (f.frames.map (Frame.entry S) ++ f.entries S) := by
    have habandon := Forest.entries_abandon S f p.stop f.frames.length
    rw [Forest.entries, Forest.nodes, f.frames_abandon_all, List.flatMap_nil, List.append_nil,
      ← h.children, Forest.opens, ← List.map_take, List.take_length] at habandon
    exact habandon
  have hmove := hkept.ledger.move r.source hmoves (Nat.le_refl _) .nil
    ((hperm.append_left entries).trans (List.perm_append_comm_assoc ..))
  rw [List.append_nil] at hmove
  have hend := hmove.reportAll r.source
    (unclosedProblem_plain .template opening s.content.closing)
  have hfindings : s.notes.findings = Findings.recordAll r.source
      (Findings.recordAll r.source p.builder.notes.findings (f.neverClosed f.frames.length))
      (unclosedProblem .template opening s.content.closing) :=
    h.findings.trans List.foldl_append
  rw [Forest.neverClosed, List.take_length] at hfindings
  rw [hfindings]
  exact hend

/-- The section that `readSection` gives is entered with its nodes and its keywords. Only templates
have any; code has neither. -/
theorem readSection_ledger {kind : SectionKind} {a : Nat} (htrace : Trace kind.mode ts)
    (hspaced : Spaced source a ((opening :: ts).map Token.span) b)
    (hts : ∀ t ∈ ts, t ∈ significantTokens source)
    (hledger : Ledger entries [] notes.findings words a) :
    let s := readSection r notes kind opening ts
    Spaced source s.content.span.stop ((ts.drop s.taken).map Token.span) b ∧
      ∃ more, keywordBraces (opening :: ts) = more ++ keywordBraces (ts.drop s.taken) ∧
        Ledger (entries ++ s.content.nodes.map (Node.entry (significantTokens source))) []
          s.notes.findings (words ++ more) s.content.span.stop := by
  intro s
  have hgap := hspaced.ordered.1
  obtain ⟨hnonempty, hbehind⟩ : opening.span.start < opening.span.stop ∧
      Spaced source opening.span.stop (ts.map Token.span) b := by
    cases hspaced with
    | span _ hnonempty rest => exact ⟨hnonempty, rest⟩
  have hledger := hledger.mono (Nat.le_trans hgap (Nat.le_of_lt hnonempty))
  obtain ⟨hle, hspan⟩ : s.taken ≤ ts.length ∧ s.content.span = spanOf opening ts s.taken :=
    readSection_span htrace hbehind
  have hend : opening.span.stop ≤ s.content.span.stop := by
    rw [hspan]
    exact (hspaced.ordered_take hle).le
  refine ⟨?_, ?_⟩
  · -- the tokens behind the section stand behind its last one
    have hgroup := hspaced.group hle
    rw [← hspan] at hgroup
    cases hgroup with
    | span _ _ rest => exact rest
  by_cases hkind : kind = .template
  · subst hkind
    obtain ⟨p, k, hread⟩ := exists_readsTemplate r notes opening htrace hbehind
    obtain ⟨more, hwords, hledger⟩ := hread.ledger htrace hbehind hts hledger
    obtain ⟨hstop, hend⟩ := hread.stop_le htrace hbehind
    refine ⟨more, ?_, hledger.mono (Nat.le_trans hstop hend)⟩
    have hrest : Trace .initial (ts.drop s.taken) := readSection_stops htrace hbehind
    have htail : ts.drop s.taken = (ts.drop k).tail := hread.rest
    rw [htail] at hrest
    rw [htrace.keywordBraces_cons (by decide), hwords, htail]
    -- the closing tag is no keyword
    generalize ts.drop k = left at hrest ⊢
    cases left with
    | nil => rfl
    | cons t rest =>
      have hrest : Trace .initial rest := hrest
      rw [hrest.keywordBraces_cons (by decide), List.tail_cons]
  · -- code has neither nodes nor keywords
    obtain ⟨hs, hnodes⟩ : s.taken = (readCode r notes kind opening ts).taken ∧
        s.content.nodes = [] ∧ s.notes = (readCode r notes kind opening ts).notes := by
      cases kind with
      | template => exact absurd rfl hkind
      | _ => exact ⟨rfl, rfl, rfl⟩
    obtain ⟨hnodes, hnotes⟩ := hnodes
    obtain ⟨ds, hds, hcode⟩ := readCode_plain r notes kind opening ts
    refine ⟨[], ?_, ?_⟩
    · rw [hs]
      exact readCode_keywords r notes hkind opening htrace
    · rw [hnodes, hnotes, hcode, List.map_nil, List.append_nil, List.append_nil]
      exact (hledger.reportAll r.source hds).mono hend

/-- **The books of a file.** At every top of the loop over sections (`Document.Reaches`) they are
kept for all that were read, with the keywords so far. -/
theorem Reaches.ledger {done : Array Section} {ts : List Token}
    (h : Reaches r #[] .empty (significantTokens source) done notes ts) :
    ∃ words stop, keywordBraces (significantTokens source) = words ++ keywordBraces ts ∧
      Spaced source stop (ts.map Token.span) (Scanner.ofSource source).toEnd.2.offset ∧
      Ledger ((done.toList.flatMap Section.nodes).map (Node.entry (significantTokens source))) []
        notes.findings words stop := by
  -- the reports of a duplicate and of a section add their own entries, in the order of the file
  induction h with
  | start => exact ⟨[], 0, rfl, spaced_significantTokens source, .start⟩
  | @opened done notes t ts kind s h hkind hs ih =>
    obtain ⟨words, stop, hwords, hspaced, hledger⟩ := ih
    have hbetween := h.between
    have hts : ∀ u ∈ ts, u ∈ significantTokens source :=
      fun u hu => hbetween.suffix.subset (List.mem_cons_of_mem _ hu)
    have hnotes : Ledger _ [] (notesAt r done notes kind t).findings words stop :=
      hledger.reportAll r.source (duplicateProblem_plain done kind t)
    obtain ⟨hbehind, more, hmore, hsection⟩ :=
      readSection_ledger (r := r) (hbetween.mode hkind) hspaced hts hnotes
    rw [← hs] at hbehind hmore hsection
    refine ⟨words ++ more, _, by rw [hwords, hmore, List.append_assoc], hbehind, ?_⟩
    rw [Array.toList_push, List.flatMap_append, List.flatMap_singleton, List.map_append]
    exact hsection
  | @skipped done notes t ts h hkind ih =>
    obtain ⟨words, stop, hwords, hspaced, hledger⟩ := ih
    have hbetween := h.between
    -- a token between sections is a bad character already reported; the entries stay, the place
    -- moves on
    rw [if_pos (hbetween.bad hkind)]
    refine ⟨words, t.span.stop, ?_, hbetween.spaced_behind, hledger.mono ?_⟩
    · have hrest := (hbetween.skipped (r := r) hkind).trace
      rw [hwords, hrest.keywordBraces_cons (by decide)]
    · exact Nat.le_trans hspaced.ordered.1 (Nat.le_of_lt hbetween.nonempty)

end Document

end Templates

/-! ### Files

The lines of the books are counts over entries, and the fields of `Parsed.Balanced` are counts over
nodes and diagnostics. `Node.entry_eq` translates the nodes, and
`Document.filter_diagnostics` the log. -/

namespace Node

/-- A block of the given kind, as its `Entry.isDirective` says. -/
def isBlock (kind : DirectiveKind) : Node → Bool
  | .directive d _ => d.kind == kind
  | _ => false

/-- A block without a closer, as its `Entry.isOpenBlock` says. -/
def isOpenBlock : Node → Bool
  | .directive d _ => d.closing.isNone
  | _ => false

/-- An element that has to be closed and is not (`Element.isOpen`). -/
def isOpenElement (ts : List Token) : Node → Bool
  | .element e _ => e.isOpen ts
  | _ => false

/-- A block that ends with what stands at the span, or an error there, as its `Entry.endsAt`
says. -/
def endsAt (span : Span) : Node → Bool
  | .directive d _ => d.closing == some span
  | .error s => s == span
  | _ => false

/-- The same, where the block has to be of the given kind (`Entry.answers`). -/
def answers (kind : DirectiveKind) (span : Span) : Node → Bool
  | .directive d _ => d.kind == kind && d.closing == some span
  | .error s => s == span
  | _ => false

/-- What stands at the span closes nothing, or closes a block over something in it that is left open
(`Entry.isWrongAt`). -/
def isWrongAt (ts : List Token) (span : Span) : Node → Bool
  | .directive d branches =>
    d.closing == some span && (branches.flatMap Branch.children).any (·.isOpen ts)
  | .error s => s == span
  | _ => false

/-- The entry of a node (`Node.entry`) says what the node is: all that the books count is seen on
the nodes themselves. -/
theorem entry_eq (ts : List Token) (n : Node) :
    (∀ kind, (n.entry ts).isDirective kind = n.isBlock kind) ∧
      (n.entry ts).isOpenBlock = n.isOpenBlock ∧
      (n.entry ts).isOpenElement = n.isOpenElement ts ∧
      (∀ s, (n.entry ts).endsAt s = n.endsAt s) ∧
      (∀ kind s, (n.entry ts).answers kind s = n.answers kind s) ∧
      ∀ s, (n.entry ts).isWrongAt s = n.isWrongAt ts s := by
  cases n with
  | element e children =>
    -- the tests on a node read its fields, those on an entry its constructor
    cases hopen : e.isOpen ts <;>
      simp [entry, hopen, isBlock, isOpenBlock, isOpenElement, endsAt, answers, isWrongAt,
        Entry.isDirective, Entry.isOpenBlock, Entry.isOpenElement, Entry.endsAt, Entry.answers,
        Entry.isWrongAt]
  | directive d branches =>
    obtain ⟨kind, closing, span⟩ := d
    cases closing with
    | none =>
      exact ⟨fun _ => rfl, rfl, rfl, fun _ => rfl, fun _ _ => (Bool.and_false _).symm, fun _ => rfl⟩
    | some closer =>
      exact ⟨fun _ => rfl, rfl, rfl, fun _ => rfl, fun _ _ => rfl, fun _ => rfl⟩
  | _ => exact ⟨fun _ => rfl, rfl, rfl, fun _ => rfl, fun _ _ => rfl, fun _ => rfl⟩

end Node

/-- Every keyword of a scan stands behind opening braces, so `keywordBraces` lists all of them. -/
theorem map_fst_keywordBraces_significantTokens (source : String) :
    (keywordBraces (significantTokens source)).map Prod.fst
      = ((Scanner.ofSource source).toEnd.1.toList.map Token.kind).filter TokenKind.isDirective := by
  have hall : ((significantTokens source).map Token.kind).filter TokenKind.isDirective
      = ((Scanner.ofSource source).toEnd.1.toList.map Token.kind).filter TokenKind.isDirective := by
    rw [significantTokens, significant, List.filter_map, List.filter_filter, List.filter_map]
    refine congrArg _ (List.filter_congr fun t _ => ?_)
    show (t.kind.isDirective && !t.kind.isTrivia) = t.kind.isDirective
    cases t.kind <;> rfl
  rw [← hall]
  have htrace := trace_significantTokens source
  cases hts : significantTokens source with
  | nil => rfl
  | cons t ts =>
    rw [hts] at htrace
    rw [map_fst_keywordBraces, List.map_cons,
      List.filter_cons_of_neg (by rw [htrace.not_directive (by decide) t rfl]; decide)]

/-- Blocks, elements, keywords and what is reported on them go together. Keywords are the tokens of
directives in the scan, each with the span of its braces (`keywordBraces`). -/
structure Parsed.Balanced (source : String) (parsed : Parsed) : Prop where
  /-- Every keyword of the scan is listed with its braces, and these are different ones. -/
  keywords : (keywordBraces (significantTokens source)).map Prod.fst
    = ((Scanner.ofSource source).toEnd.1.toList.map Token.kind).filter TokenKind.isDirective
  apart : ((keywordBraces (significantTokens source)).map Prod.snd).Nodup
  /-- There are as many blocks as keywords that open one. -/
  blocks : ∀ kind, parsed.document.allNodes.countP (·.isBlock kind)
    = (Scanner.ofSource source).toEnd.1.toList.countP (·.kind == kind.openWord)
  unterminated : parsed.diagnostics.countP (·.isUnterminatedDirective)
    = parsed.document.allNodes.countP (·.isOpenBlock)
  /-- Every closer is that of one block of its kind, or one error. -/
  closed : ∀ c ∈ closers (keywordBraces (significantTokens source)),
    parsed.document.allNodes.countP (·.endsAt c.2) = 1 ∧
      parsed.document.allNodes.countP (·.answers c.1 c.2) = 1
  /-- The closers that are reported are errors, or close more than their block. -/
  mismatched : ((parsed.diagnostics.filter (·.isMismatchedClose)).map Diagnostic.span).Perm
    (((closers (keywordBraces (significantTokens source))).filter fun c =>
      parsed.document.allNodes.any (·.isWrongAt (significantTokens source) c.2)).map Prod.snd)
  neverClosed : parsed.diagnostics.countP (·.isNeverClosed)
    = parsed.document.allNodes.countP (·.isOpenElement (significantTokens source))

/-- The lexical problems of a file do not count for its balance, and the order of the others does
not either: what is filtered of the diagnostics is what is filtered of the notes of `readFrom`. -/
theorem Document.filter_diagnostics (r : Reading) {p : Diagnostic → Bool}
    (hbad : ∀ d, d.kind = .badCharacter → p d = false) (hplain : ∀ d, d.Plain → p d = false)
    (ts : List Token) :
    ((ofTokens r ts).diagnostics.filter p).Perm
      ((readFrom r #[] .empty ts).2.findings.filter p) := by
  have hlexical : (Findings.ofTokens r.source ts).filter p = [] := by
    have hnone : (ts.filterMap (·.anomaly? r.source)).filter p = [] := by
      refine List.filter_eq_nil_iff.mpr fun d hd => ?_
      rw [hplain d (allPlain_anomalies _ _ d hd)]
      decide
    rw [Findings.ofTokens, Findings.filter_recordAll hbad, hnone]
    rfl
  refine ((List.mergeSort_perm _ _).filter p).trans ?_
  rw [List.filter_append, List.filter_reverse, List.filter_reverse, hlexical]
  exact List.reverse_perm _

/-- The same for counts. -/
theorem Document.countP_diagnostics (r : Reading) {p : Diagnostic → Bool}
    (hbad : ∀ d, d.kind = .badCharacter → p d = false) (hplain : ∀ d, d.Plain → p d = false)
    (ts : List Token) :
    (ofTokens r ts).diagnostics.countP p = (readFrom r #[] .empty ts).2.findings.countP p := by
  rw [List.countP_eq_length_filter, List.countP_eq_length_filter]
  exact (filter_diagnostics r hbad hplain ts).length_eq

/-- **Everything is balanced.** Let the scan of a file reach the end. The file is read exactly if
the scans of its values do (`Document.valuesEnd`), and then the nodes show for each keyword of a
block what became of it, and what is reported is what the nodes show (`Parsed.Balanced`). -/
theorem balanced_parse? (source : String) (withTrees : Bool)
    (h : (Scanner.ofSource source).toEnd?.isSome = true) :
    (Document.parse? source withTrees).isSome
        = Document.valuesEnd source (significantTokens source) ∧
      ∀ parsed, Document.parse? source withTrees = some parsed → parsed.Balanced source := by
  let r : Reading := ⟨source, withTrees⟩
  refine Document.forall_parse? withTrees h ?_
  let S := significantTokens source
  let parsed := Document.ofTokens r S
  obtain ⟨words, stop, hwords, -, hledger⟩ := (Document.reaches_end r source).ledger
  obtain rfl : keywordBraces S = words := hwords.trans (List.append_nil words)
  have hkeywords := map_fst_keywordBraces_significantTokens source
  -- what is counted among the entries is counted among the nodes
  have hcount : ∀ (p : Entry → Bool) (q : Node → Bool), (∀ n : Node, p (n.entry S) = q n) →
      (parsed.document.allNodes.map (Node.entry S)).countP p
        = parsed.document.allNodes.countP q := by
    intro p q hpq
    rw [List.countP_map]
    exact List.countP_congr fun n _ => by rw [Function.comp_apply, hpq]
  refine ⟨hkeywords, hledger.apart, fun kind => ?_, ?_, fun c hc => ?_, ?_, ?_⟩
  · have hblocks := hledger.blocks kind
    have hopen : kind.openWord.isDirective = true := by cases kind <;> rfl
    have hwords : (keywordBraces S).countP (·.1 == kind.openWord)
        = (Scanner.ofSource source).toEnd.1.toList.countP (·.kind == kind.openWord) := by
      have hmap := congrArg (List.countP (· == kind.openWord)) hkeywords
      rw [List.countP_map, List.countP_filter, List.countP_map] at hmap
      refine hmap.trans (List.countP_congr fun t _ => ?_)
      simp only [Function.comp_apply, Bool.and_eq_true, beq_iff_eq]
      exact ⟨And.left, fun heq => ⟨heq, heq ▸ hopen⟩⟩
    rw [List.countP_nil, Nat.add_zero, hwords] at hblocks
    rw [← hblocks]
    exact (hcount _ _ fun n => (n.entry_eq S).1 kind).symm
  · have hlog := Document.countP_diagnostics r (fun d hd => (Diagnostic.balanced_of_bad hd).1)
      (fun d hd => hd.balanced.1) S
    exact (hlog.trans hledger.unterminated).trans (hcount _ _ fun n => (n.entry_eq S).2.1)
  · obtain ⟨hends, hanswers⟩ := hledger.closed c hc
    refine ⟨?_, ?_⟩
    · exact (hcount _ _ fun n => (n.entry_eq S).2.2.2.1 c.2).symm.trans hends
    · exact (hcount _ _ fun n => (n.entry_eq S).2.2.2.2.1 c.1 c.2).symm.trans hanswers
  · have hlog := (Document.filter_diagnostics r
      (fun d hd => (Diagnostic.balanced_of_bad hd).2.1)
      (fun d hd => hd.balanced.2.1) S).map Diagnostic.span
    refine (hlog.trans hledger.mismatched).trans (.of_eq (congrArg _ ?_))
    refine List.filter_congr fun c _ => ?_
    rw [List.any_map]
    exact congrArg (List.any _) (funext fun n => (n.entry_eq S).2.2.2.2.2 c.2)
  · have hlog := Document.countP_diagnostics r (fun d hd => (Diagnostic.balanced_of_bad hd).2.2)
      (fun d hd => hd.balanced.2.2) S
    exact (hlog.trans hledger.neverClosed).trans (hcount _ _ fun n => (n.entry_eq S).2.2.1)

/-- Two templates: a choice that is closed over an element, a closer with no loop to close, and an
element and a loop that are left open. -/
theorem balanced_parse?_two_templates :
    let source := String.ofList ("<template>\x7b\x7b@if a\x7d\x7d<b>\x7b\x7b/if\x7d\x7d".toList
      ++ "\x7b\x7b/each\x7d\x7d</template>".toList
      ++ "<template><p>\x7b\x7b@each c as d\x7d\x7d</template>".toList)
    (Scanner.ofSource source).toEnd?.isSome = true ∧
      ∃ parsed, Document.parse? source true = some parsed ∧ parsed.Balanced source ∧
        parsed.document.nodes.size = 5 := by
  intro source
  have hend : (Scanner.ofSource source).toEnd?.isSome = true := by decide +kernel
  obtain ⟨-, hbalanced⟩ := balanced_parse? source true hend
  have hsize : (Document.parse? source true).map (·.document.nodes.size) = some 5 := by
    decide +kernel
  obtain ⟨parsed, hparsed, hsize⟩ := Option.map_eq_some_iff.mp hsize
  exact ⟨hend, parsed, hparsed, hbalanced parsed hparsed, hsize⟩

end RsxInspect
