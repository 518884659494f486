import RsxInspect.Proofs.Template.Entries
import RsxInspect.Proofs.Template.Keywords
import RsxInspect.Proofs.Template.Nesting

/-!
# Moves

The books of a template hold the entries of its nodes and those that what is open will make. `Moves`
says what a step may do to them: every keyword that opens a block stands for an entry of the one
sort or the other, what is reported is what the entries say, and a closer stands for one entry. The
bricks:

* one lemma for each sort of move: `Moves.quiet` for what neither opens nor closes, `Moves.opening`,
  `Moves.tagged` for end tags, `Moves.answered` and `Moves.closing` for closers, and
  `Moves.abandoned` for the frames that are left on the way;
* `Piece.Counts`: what a piece is in the books. `readStartTag_counts` is the only case with an
  argument in it, since whether a tag has to be closed is seen from its last token.
* `Forest.Books`: a step from one forest to another keeps to the books, with one lemma for each sort
  of step.

`Forest.Adds.moves` says that every piece keeps to it, whatever it is added to.
-/

namespace RsxInspect

/-- The kind of block that a keyword closes, if it closes any. -/
def TokenKind.closes? : TokenKind → Option DirectiveKind
  | .endIf => some .choice
  | .endEach => some .loop
  | _ => none

/-- The closers among the keywords: the kind of block that each closes, and the span of its braces.
It is `TokenKind.closes?` on the first part of each pair. -/
def closers (words : List (TokenKind × Span)) : List (DirectiveKind × Span) :=
  words.filterMap fun word => word.1.closes?.map (·, word.2)

/-- The books before and behind a step: what is open before, the entries that are `made`, what is
open behind, what is reported, and the keywords that are taken, which stand between the offsets `a`
and `b`. The counts are kept for every kind of block by itself. -/
structure Moves (a b : Nat) (opens made opens' : List Entry) (ds : List Diagnostic)
    (words : List (TokenKind × Span)) : Prop where
  /-- Each keyword that opens a block stands for an entry or for something open. -/
  blocks : ∀ kind, made.countP (·.isDirective kind) + opens'.countP (·.isDirective kind)
    = opens.countP (·.isDirective kind) + words.countP (·.1 == kind.openWord)
  unterminated : ds.countP (·.isUnterminatedDirective) = made.countP (·.isOpenBlock)
  neverClosed : ds.countP (·.isNeverClosed) = made.countP (·.isOpenElement)
  ends : ∀ e ∈ made, ∀ s, e.endsAt s = true → a ≤ s.start ∧ s.start < b
  place : ∀ word ∈ words, a ≤ word.2.start ∧ word.2.start < b
  apart : (words.map Prod.snd).Nodup
  /-- Each closer stands for one entry. -/
  closed : ∀ c ∈ closers words,
    made.countP (·.endsAt c.2) = 1 ∧ made.countP (·.answers c.1 c.2) = 1
  mismatched : (ds.filter (·.isMismatchedClose)).map Diagnostic.span
    = ((closers words).filter fun c => made.any (·.isWrongAt c.2)).map Prod.snd

namespace Moves

variable {a b : Nat} {opens made opens' : List Entry} {ds : List Diagnostic}
  {words : List (TokenKind × Span)} {span : Span} {kind : DirectiveKind}

/-- A step that does nothing is one of the `Moves`. -/
theorem refl (a b : Nat) (opens : List Entry) : Moves a b opens [] opens [] [] where
  blocks _ := Nat.add_comm ..
  unterminated := rfl
  neverClosed := rfl
  ends _ he := by cases he
  place _ hword := by cases hword
  apart := .nil
  closed _ hc := by cases hc
  mismatched := rfl

/-- Every frame that is abandoned is reported as what its entry says (`Frame.unclosed`), and its
entry ends nowhere, since no closer stands behind it. -/
theorem counts_unclosed {ts : List Token} {left : List Frame}
    (hleft : ∀ frame ∈ left, frame.entry ts ≠ .other) :
    let es := left.map (Frame.entry ts)
    let ds := left.map fun frame => frame.unclosed.on frame.opening
    ds.countP (·.isUnterminatedDirective) = es.countP (·.isOpenBlock) ∧
      ds.countP (·.isNeverClosed) = es.countP (·.isOpenElement) ∧
      ds.filter (·.isMismatchedClose) = [] ∧ ∀ e ∈ es, ∀ s, e.endsAt s = false := by
  have hall := fun frame hframe => Frame.reported (hleft frame hframe)
  -- both counts are over `left` itself, frame by frame
  refine ⟨?_, ?_, List.filter_eq_nil_iff.mpr fun d hd => ?_, fun e he s => ?_⟩
  · rw [List.countP_map, List.countP_map]
    refine List.countP_congr fun frame hframe => ?_
    exact Bool.eq_iff_iff.mp (hall frame hframe).1
  · rw [List.countP_map, List.countP_map]
    refine List.countP_congr fun frame hframe => ?_
    exact Bool.eq_iff_iff.mp (hall frame hframe).2.1
  · obtain ⟨frame, hframe, rfl⟩ := List.mem_map.mp hd
    rw [(hall frame hframe).2.2.1]
    decide
  · obtain ⟨frame, hframe, rfl⟩ := List.mem_map.mp he
    exact (hall frame hframe).2.2.2 s

/-- Frames that `abandon` closes on the way to a step make entries of their own, in front of those
of the step. -/
theorem abandoned {ts : List Token} {left : List Frame}
    (hleft : ∀ frame ∈ left, frame.entry ts ≠ .other) (h : Moves a b opens made opens' ds words) :
    Moves a b (left.map (Frame.entry ts) ++ opens) (made ++ left.map (Frame.entry ts)) opens'
      (ds ++ left.map fun frame => frame.unclosed.on frame.opening) words := by
  obtain ⟨hblocks, helements, hmismatched, hends⟩ := counts_unclosed hleft
  generalize left.map (Frame.entry ts) = es at *
  generalize (left.map fun frame => frame.unclosed.on frame.opening) = unclosed at *
  -- none of the new entries ends with what stands at a span
  have hnone := fun s => Entry.counts_of_not_endsAt fun e he => hends e he s
  refine ⟨fun kind => ?_, ?_, ?_, fun e he s hs => ?_, h.place, h.apart, fun c hc => ?_, ?_⟩
  · have := h.blocks kind
    rw [List.countP_append, List.countP_append]
    omega
  · rw [List.countP_append, List.countP_append, h.unterminated, hblocks]
  · rw [List.countP_append, List.countP_append, h.neverClosed, helements]
  · rcases List.mem_append.mp he with he | he
    · exact h.ends e he s hs
    · rw [hends e he s] at hs
      cases hs
  · rw [List.countP_append, List.countP_append, (hnone c.2 c.1).1, (hnone c.2 c.1).2.1]
    exact h.closed c hc
  · rw [List.filter_append, hmismatched, List.append_nil, h.mismatched]
    congr 1
    refine List.filter_congr fun c hc => ?_
    rw [List.any_append, (hnone c.2 c.1).2.2, Bool.or_false]

/-- Nodes that close nothing and are closed by nothing: text, interpolations, complete elements,
branches, and errors on the span of the step. -/
theorem quiet (hmade : ∀ e ∈ made, e = .other ∨ e = .error span) (hspan : span.start < span.stop)
    (hds : AllPlain ds) (hwords : ∀ word ∈ words, word.2 = span ∧ word.1.closes? = none ∧
      ∀ kind : DirectiveKind, word.1 ≠ kind.openWord) (hapart : (words.map Prod.snd).Nodup) :
    Moves span.start span.stop opens made opens ds words := by
  obtain ⟨hunterminated, hmismatched, hnever⟩ := hds.balanced
  -- no keyword opens or closes a block, and no entry is one
  have hclosers : closers words = [] :=
    List.filterMap_eq_nil_iff.mpr fun word hword => by rw [(hwords word hword).2.1]; rfl
  have hzero : ∀ p : Entry → Bool, p .other = false → p (.error span) = false →
      made.countP p = 0 := by
    intro p hother herror
    refine List.countP_eq_zero.mpr fun e he => ?_
    rcases hmade e he with rfl | rfl
    · rw [hother]
      decide
    · rw [herror]
      decide
  refine ⟨fun kind => ?_, ?_, ?_, fun e he s hs => ?_, fun word hword => ?_, hapart,
    fun c hc => ?_, ?_⟩
  · have hwords : words.countP (·.1 == kind.openWord) = 0 := by
      refine List.countP_eq_zero.mpr fun word hword => ?_
      simpa using (hwords word hword).2.2 kind
    rw [hzero _ rfl rfl, hwords, Nat.zero_add, Nat.add_zero]
  · rw [List.countP_eq_length_filter, hunterminated, hzero _ rfl rfl]
    rfl
  · rw [List.countP_eq_length_filter, hnever, hzero _ rfl rfl]
    rfl
  · rcases hmade e he with rfl | rfl
    · cases hs
    · rw [← beq_iff_eq.mp hs]
      exact ⟨Nat.le_refl _, hspan⟩
  · rw [(hwords word hword).1]
    exact ⟨Nat.le_refl _, hspan⟩
  · rw [hclosers] at hc
    cases hc
  · rw [hmismatched, hclosers]
    rfl

/-- The keyword of a further branch neither opens nor closes a block. -/
theorem quiet_branch (word : BranchWord) :
    let w := (Builder.keywordOf word, span)
    w.2 = span ∧ w.1.closes? = none ∧ ∀ kind : DirectiveKind, w.1 ≠ kind.openWord := by
  refine ⟨rfl, by cases word <;> rfl, fun kind hkind => ?_⟩
  cases word <;> cases kind <;> cases hkind

/-- An element or a block is opened, a block by its keyword (`DirectiveKind.openWord`). Nothing is
made yet. -/
theorem opening {e : Entry} (he : (e = .openElement ∧ words = []) ∨
    ∃ kind : DirectiveKind, e = .openBlock kind ∧ words = [(kind.openWord, span)])
    (hspan : span.start < span.stop) :
    Moves span.start span.stop opens [] (e :: opens) [] words := by
  have hclosers : closers words = [] := by
    rcases he with ⟨-, rfl⟩ | ⟨kind, -, rfl⟩
    · rfl
    · cases kind <;> rfl
  -- an element counts for no keyword, a block for its opening one
  refine ⟨fun k => ?_, rfl, rfl, fun e he => (nomatch he), fun word hword => ?_, ?_, ?_, ?_⟩
  · rcases he with ⟨rfl, rfl⟩ | ⟨kind, rfl, rfl⟩
    · exact Nat.zero_add _
    · rw [List.countP_nil, Nat.zero_add, List.countP_cons]
      congr 1
      cases kind <;> cases k <;> rfl
  · rcases he with ⟨-, rfl⟩ | ⟨kind, -, rfl⟩
    · cases hword
    · rw [List.mem_singleton.mp hword]
      exact ⟨Nat.le_refl _, hspan⟩
  · rcases he with ⟨-, rfl⟩ | ⟨kind, -, rfl⟩
    · exact .nil
    · exact List.pairwise_singleton ..
  · intro c hc
    rw [hclosers] at hc
    cases hc
  · rw [hclosers]
    rfl

/-- An element is closed by its end tag: what was `openElement` among the open entries is `other`
among those that are made, and no keyword is taken. -/
theorem tagged (a b : Nat) : Moves a b (.openElement :: opens) [.other] opens [] [] where
  blocks k := by simp [Entry.isDirective]
  unterminated := rfl
  neverClosed := rfl
  ends e he s hs := by
    rw [List.mem_singleton.mp he] at hs
    cases hs
  place _ hword := by cases hword
  apart := .nil
  closed _ hc := by cases hc
  mismatched := rfl

/-- A closer makes one entry, of the block that it closes or of an error. The entry is wrong
(`Entry.isWrongAt`) if and only if that is reported. -/
theorem answered {e : Entry} (he : (∃ covers, e = .block kind span covers) ∨ e = .error span)
    (hspan : span.start < span.stop)
    (hblocks : ∀ k, [e].countP (·.isDirective k) + opens'.countP (·.isDirective k)
      = opens.countP (·.isDirective k))
    (hunterminated : ds.countP (·.isUnterminatedDirective) = 0)
    (hnever : ds.countP (·.isNeverClosed) = 0)
    (hmismatched : (ds.filter (·.isMismatchedClose)).map Diagnostic.span
      = if e.isWrongAt span then [span] else []) :
    Moves span.start span.stop opens [e] opens' ds [(kind.closeWord, span)] := by
  -- the keyword is that of one closer, and opens nothing
  have hclosers : closers [(kind.closeWord, span)] = [(kind, span)] := by
    cases kind <;> rfl
  have hword : ∀ k : DirectiveKind, [(kind.closeWord, span)].countP (·.1 == k.openWord) = 0 := by
    intro k
    cases kind <;> cases k <;> rfl
  have hplace : span.start ≤ span.start ∧ span.start < span.stop := ⟨Nat.le_refl _, hspan⟩
  refine ⟨fun k => ?_, ?_, ?_, fun d hd s hs => ?_, fun word hword => ?_,
    List.pairwise_singleton .., fun c hc => ?_, ?_⟩
  · rw [hword, Nat.add_zero]
    exact hblocks k
  · rw [hunterminated]
    rcases he with ⟨covers, rfl⟩ | rfl <;> rfl
  · rw [hnever]
    rcases he with ⟨covers, rfl⟩ | rfl <;> rfl
  · rw [List.mem_singleton.mp hd] at hs
    rcases he with ⟨covers, rfl⟩ | rfl
    · rw [← beq_iff_eq.mp hs]
      exact hplace
    · rw [← beq_iff_eq.mp hs]
      exact hplace
  · rw [List.mem_singleton.mp hword]
    exact hplace
  · rw [hclosers, List.mem_singleton] at hc
    subst hc
    rcases he with ⟨covers, rfl⟩ | rfl <;> simp [Entry.endsAt, Entry.answers]
  · rw [hmismatched, hclosers]
    cases hwrong : e.isWrongAt span <;> simp [hwrong]

/-- A block is closed by its closer, which is reported if it is a wrong one, that is, if it `covers`
frames that are still open in the block. -/
theorem closing (kind : DirectiveKind) (covers : Bool) (opens : List Entry)
    (hspan : span.start < span.stop) (hunterminated : ds.countP (·.isUnterminatedDirective) = 0)
    (hnever : ds.countP (·.isNeverClosed) = 0)
    (hmismatched : (ds.filter (·.isMismatchedClose)).map Diagnostic.span
      = if covers then [span] else []) :
    Moves span.start span.stop (.openBlock kind :: opens) [.block kind span covers] opens ds
      [(kind.closeWord, span)] := by
  refine answered (.inl ⟨covers, rfl⟩) hspan (fun k => ?_) hunterminated hnever ?_
  · simp [List.countP_cons, Entry.isDirective, Nat.add_comm]
  · simp [hmismatched, Entry.isWrongAt]

end Moves

/-- What a piece is in the books: a node with a quiet entry, a tag that will be an open element, a
block with the keyword of its kind. -/
def Piece.Counts (ts : List Token) : Piece → Prop
  | .node n => n.entry ts = .other ∨ n.entry ts = .error n.span
  | .startTag e => (Frame.element e #[]).entry ts = .openElement
  | .opener kind head => head.keyword = kind.openWord
  | _ => True

/-- A complete node stands for no keyword but the one that asks for raw markup. -/
theorem Piece.keywords_node (n : Node) :
    (Piece.node n).keywords = [] ∨ (Piece.node n).keywords = [(.html, n.span)] := by
  cases n with
  | interpolation i =>
    show (if i.raw then _ else _) = _ ∨ (if i.raw then _ else _) = _
    cases i.raw with
    | false => exact .inl rfl
    | true => exact .inr rfl
  | _ => exact .inl rfl

/-- A piece ends where its last token ends (`endOf`). -/
theorem endOf_of_take {first l : Token} {ts front : List Token} {n : Nat}
    (h : ts.take n = front ++ [l]) (hn : n = front.length + 1) : endOf first ts n = l.span.stop := by
  have hl : ts[front.length]? = some l := by
    have htake : (ts.take n)[front.length]? = some l := by
      rw [h]
      simp
    rwa [List.getElem?_take_of_lt (by omega)] at htake
  rw [endOf, hn, List.getElem?_cons_succ, hl]
  rfl

/-- What ends where a token of a file ends is that token, since tokens of one source do not
overlap. -/
theorem any_endsAt {source : String} {l : Token} (hl : l ∈ significantTokens source)
    (k : TokenKind) :
    (significantTokens source).any (fun t => t.kind == k && t.span.stop == l.span.stop)
      = (l.kind == k) := by
  rw [Bool.eq_iff_iff, List.any_eq_true]
  constructor
  · rintro ⟨t, ht, hthere⟩
    obtain ⟨hkind, hstop⟩ := Bool.and_eq_true_iff.mp hthere
    -- both have bytes, so they share the last one
    have ht' := ((spaced_significantTokens source).mem (List.mem_map_of_mem ht)).2.1
    have hl' := ((spaced_significantTokens source).mem (List.mem_map_of_mem hl)).2.1
    rw [beq_iff_eq] at hstop
    obtain rfl : t = l := eq_of_overlap ht hl (by omega) (by omega)
    exact hkind
  · intro hkind
    exact ⟨l, hl, Bool.and_eq_true_iff.mpr ⟨hkind, beq_self_eq_true _⟩⟩

/-- A start tag is an element that has to be closed if it ends as one: `Element.isOpen` asks the
tokens of the file for a `>` where the tag ends, and `readStartTag` asks the last token of the
tag. -/
theorem readStartTag_counts {r : Reading} {source : String} (first : Token) {ts : List Token}
    (hts : ∀ t ∈ ts, t ∈ significantTokens source) :
    (readStartTag r first ts).piece.Counts (significantTokens source) := by
  rcases readStartTag_cases r first ts with
    ⟨hpiece, -⟩ | ⟨name, us, as, last, ds, htake, htaken, hname, htokens, hpiece, -⟩
  · rw [hpiece]
    exact .inr rfl
  · -- the last token of the tag, which is the name if nothing stands behind that
    obtain ⟨front, l, hsplit, hlast⟩ : ∃ front l, name :: us = front ++ [l] ∧
        ((last = none ∧ l.kind ≠ .tagClose) ∨
          (last = some l.kind ∧ (l.kind = .tagClose ∨ l.kind = .selfClose))) := by
      rcases htokens.last_cases with ⟨hlast, hnone⟩ | ⟨front, l, rfl, hlast, hl⟩
      · have hsplit := (List.dropLast_append_getLast (List.cons_ne_nil name us)).symm
        refine ⟨_, _, hsplit, .inl ⟨hlast, ?_⟩⟩
        rcases List.mem_cons.mp (List.getLast_mem (List.cons_ne_nil name us)) with heq | hmem
        · rw [heq, hname]
          decide
        · exact hnone _ hmem
      · exact ⟨name :: front, l, rfl, .inr ⟨hlast, hl⟩⟩
    have hstop : endOf first ts (readStartTag r first ts).taken = l.span.stop := by
      have hlength := congrArg List.length hsplit
      rw [List.length_cons, List.length_append, List.length_singleton] at hlength
      exact endOf_of_take (htake.trans hsplit) (htaken.trans hlength)
    have hl : l ∈ significantTokens source := by
      refine hts l (List.mem_of_mem_take (i := (readStartTag r first ts).taken) ?_)
      rw [htake, hsplit]
      exact List.mem_append_right _ (List.mem_singleton_self _)
    -- the question for a `>` where the tag ends is that for the kind of its last token
    have hopen : (significantTokens source).any (fun t => t.kind == .tagClose
        && t.span.stop == (spanOf first ts (readStartTag r first ts).taken).stop)
          = (l.kind == .tagClose) := by
      show (significantTokens source).any (fun t => t.kind == .tagClose
        && t.span.stop == endOf first ts _) = _
      rw [hstop]
      exact any_endsAt hl .tagClose
    rw [hpiece]
    dsimp only
    split
    · rename_i hcomplete
      refine .inl (if_neg (Bool.eq_false_iff.mp ?_))
      unfold Element.isOpen
      dsimp only
      rw [hopen]
      rcases hlast with ⟨rfl, hkind⟩ | ⟨rfl, hkind | hkind⟩
      · simp [hkind]
      · simpa [hkind] using hcomplete
      · simp [hkind]
    · rename_i hincomplete
      refine if_pos ?_
      unfold Element.isOpen
      dsimp only
      rw [hopen]
      rcases hlast with ⟨rfl, hkind⟩ | ⟨rfl, hkind | hkind⟩
      · simp at hincomplete
      · simpa [hkind] using hincomplete
      · simp [hkind] at hincomplete

/-- `readBraces` makes quiet nodes, or they open with the keyword of their kind. -/
theorem readBraces_counts (r : Reading) (first : Token) (ts us : List Token) :
    (readBraces r first ts).piece.Counts us := by
  unfold readBraces
  split <;> first | exact rfl | exact .inl rfl | trivial

/-- What every piece `Counts` for, by the reader that read it. -/
theorem Piece.read_counts {r : Reading} {source : String} {first : Token} {ts : List Token}
    (htrace : Trace .template (first :: ts)) (hfirst : first.kind ≠ .templateClose)
    (hts : ∀ t ∈ ts, t ∈ significantTokens source) :
    (Piece.read r first ts).piece.Counts (significantTokens source) := by
  -- text and comments count for nothing; tags and braces by their own readers
  rcases htrace.piece_cases hfirst with
    ⟨hkind, -⟩ | ⟨hkind, -⟩ | ⟨hkind, -⟩ | ⟨hkind, -⟩ | ⟨hkind, -⟩
  · rw [Piece.read, hkind]
    exact .inl rfl
  · rw [Piece.read, hkind]
    exact .inl rfl
  · rw [Piece.read, hkind]
    exact readStartTag_counts first hts
  · rw [Piece.read, hkind]
    unfold readEndTag
    dsimp only
    split
    · exact .inr rfl
    · trivial
  · rw [Piece.read, hkind]
    exact readBraces_counts r first ts _

/-! ### Forests

A step of a builder changes the forest, and with it the books. There is one lemma for each sort of
step, and `Forest.Adds.moves` sends each way of adding a piece to its own. -/

namespace Forest

variable {ts : List Token} {f f' : Forest} {ds : List Diagnostic}
  {words : List (TokenKind × Span)} {span : Span}

/-- A step on the span leads from the first forest to the second one and keeps to the books: the
entries that it makes come in, what is open stays `Tidy`, and the step is one of the `Moves`. -/
def Books (ts : List Token) (span : Span) (f f' : Forest) (ds : List Diagnostic)
    (words : List (TokenKind × Span)) : Prop :=
  ∃ made, (f'.entries ts).Perm (made ++ f.entries ts) ∧ f'.Tidy ts ∧
    Moves span.start span.stop (f.opens ts) made (f'.opens ts) ds words

namespace Books

/-- A complete node comes in with a quiet entry and with no keyword but its own. -/
theorem node (hf : f.Tidy ts) {n : Node} (hentry : n.entry ts = .other ∨ n.entry ts = .error n.span)
    (hchildren : n.children = []) (hspan : n.span.start < n.span.stop) :
    Books ts n.span f (f.push n) [] (Piece.node n).keywords := by
  have hmade : ∀ e ∈ [n.entry ts], e = .other ∨ e = .error n.span :=
    List.forall_mem_singleton.mpr hentry
  refine ⟨[n.entry ts], f.entries_push hchildren, hf.push (Node.isOpen_of_entry hentry), ?_⟩
  rw [f.opens_push]
  rcases Piece.keywords_node n with hnone | hhtml
  · rw [hnone]
    exact .quiet hmade hspan .nil (List.forall_mem_nil _) .nil
  · rw [hhtml]
    refine .quiet hmade hspan .nil (List.forall_mem_singleton.mpr ⟨rfl, rfl, ?_⟩)
      (List.pairwise_singleton ..)
    intro kind hkind
    cases kind <;> cases hkind

/-- An element is opened that has to be closed. -/
theorem startTag (hf : f.Tidy ts) {e : Element} (he : (Frame.element e #[]).entry ts = .openElement)
    (hspan : span.start < span.stop) : Books ts span f (f.openFrame (.element e #[])) [] [] := by
  have hopens : (f.openFrame (.element e #[])).opens ts = .openElement :: f.opens ts :=
    congrArg (· :: _) he
  refine ⟨[], .of_eq (f.entries_openFrame ts rfl), hf.openFrame ?_ rfl, ?_⟩
  · rw [he]
    decide
  · rw [hopens]
    exact .opening (.inl ⟨rfl, rfl⟩) hspan

/-- A block has to be closed. -/
theorem entry_block (b : OpenBlock) : (Frame.block b).entry ts ≠ .other := by
  intro h
  cases h

/-- A block is opened by its keyword. -/
theorem opener (hf : f.Tidy ts) {kind : DirectiveKind} {head : BranchHead}
    (hhead : head.keyword = kind.openWord) (hspan : span.start < span.stop) :
    Books ts span f (f.openFrame (.block ⟨kind, #[], head, #[]⟩)) [] [(head.keyword, span)] := by
  have hopens : (f.openFrame (.block ⟨kind, #[], head, #[]⟩)).opens ts
      = .openBlock kind :: f.opens ts := rfl
  refine ⟨[], .of_eq (f.entries_openFrame ts rfl), hf.openFrame (entry_block _) rfl, ?_⟩
  rw [hopens, hhead]
  exact .opening (.inr ⟨kind, rfl, rfl⟩) hspan

/-- An end tag closes the element that it finds, and abandons the frames above it. -/
theorem endTag (hf : f.Tidy ts) {name : String} {n : Nat}
    (htarget : f.frames.findIdx? (·.isElement name) = some n) :
    Books ts span f (f.closeBy n span) (f.neverClosed n) [] := by
  obtain ⟨target, htag, htidy, hopens, hperm, htidy'⟩ := exists_closeBy hf htarget span
  obtain ⟨e, children, rfl⟩ : ∃ e children, target = .element e children := by
    cases target with
    | element e children => exact ⟨e, children, rfl⟩
    | block b => cases htag
  have hentry : (Frame.element e children).entry ts = .openElement := by
    rcases Frame.entry_cases htidy with ⟨b, hb, -⟩ | ⟨-, -, -, hentry⟩
    · cases hb
    · exact hentry
  refine ⟨_, hperm, htidy', ?_⟩
  rw [hopens, hentry]
  exact (Moves.tagged _ _).abandoned fun frame hframe => (hf frame (List.mem_of_mem_take hframe)).1

/-- The innermost block stays open with one branch more, which makes no entry. -/
theorem branch (hf : f.Tidy ts) {block : OpenBlock} {outer : List Frame} {word : BranchWord}
    {head : BranchHead} (hframes : f.frames = .block block :: outer) (hds : AllPlain ds)
    (hspan : span.start < span.stop) :
    Books ts span f { f with frames := .block (block.startBranch head) :: outer } ds
      [(Builder.keywordOf word, span)] := by
  have hopens : ({ f with frames := .block (block.startBranch head) :: outer } : Forest).opens ts
      = f.opens ts := by
    rw [opens, opens, hframes]
    rfl
  refine ⟨[], .of_eq ?_, fun frame hframe => ?_, ?_⟩
  · rw [entries, nodes_startBranch hframes]
    rfl
  · rcases List.mem_cons.mp hframe with rfl | hframe
    · rw [Frame.children_startBranch]
      exact ⟨entry_block _, (hf _ (by rw [hframes]; exact List.mem_cons_self ..)).2⟩
    · exact hf frame (by rw [hframes]; exact List.mem_cons_of_mem _ hframe)
  · rw [hopens]
    exact .quiet (List.forall_mem_nil _) hspan hds (List.forall_mem_singleton.mpr (Moves.quiet_branch word))
      (List.pairwise_singleton ..)

/-- A closer closes the block that it finds, and abandons the frames above it, if there are any. That
there are some is what may be reported of the closer. -/
theorem closer (ds : List Diagnostic) (hf : f.Tidy ts) {kind : DirectiveKind} {n : Nat}
    (htarget : f.frames.findIdx? (·.isBlock kind) = some n) (hspan : span.start < span.stop)
    (hunterminated : ds.countP (·.isUnterminatedDirective) = 0)
    (hnever : ds.countP (·.isNeverClosed) = 0)
    (hmismatched : (ds.filter (·.isMismatchedClose)).map Diagnostic.span
      = if decide (0 < n) then [span] else []) :
    Books ts span f (f.closeBy n span) (ds ++ f.neverClosed n) [(kind.closeWord, span)] := by
  obtain ⟨target, hblock, -, hopens, hperm, htidy⟩ := exists_closeBy hf htarget span
  obtain ⟨b, rfl, rfl⟩ := target.eq_block_of_isBlock hblock
  refine ⟨_, hperm, htidy, ?_⟩
  rw [hopens]
  have hmoves := Moves.closing b.kind (decide (0 < n)) ((f.closeBy n span).opens ts) hspan
    hunterminated hnever hmismatched
  exact hmoves.abandoned fun frame hframe => (hf frame (List.mem_of_mem_take hframe)).1

/-- What is stray leaves an error node in its place, and all that is open stays so. -/
theorem error (hf : f.Tidy ts)
    (hmoves : Moves span.start span.stop (f.opens ts) [.error span] (f.opens ts) ds words) :
    Books ts span f (f.push (.error span)) ds words := by
  refine ⟨[.error span], f.entries_push rfl, hf.push rfl, ?_⟩
  rw [f.opens_push]
  exact hmoves

end Books

end Forest

/-- **Every piece keeps to the books.** One case for each of the ways in which a piece can join a
forest (`Forest.Adds`). -/
theorem Forest.Adds.moves {r : Reading} {f f' : Forest} {piece : Piece} {ds : List Diagnostic}
    {ts : List Token} {span : Span} (h : f.Adds r piece f' ds) (hf : f.Tidy ts)
    (hpiece : piece.Counts ts) (hplace : piece.NestedAt span) (hspan : span.start < span.stop) :
    f.Books ts span f' ds piece.keywords := by
  have hmade : ∀ e ∈ [Entry.error span], e = .other ∨ e = .error span :=
    List.forall_mem_singleton.mpr (.inr rfl)
  cases h with
  | node n =>
    obtain ⟨rfl, -, hchildren⟩ := hplace
    exact .node hf hpiece hchildren hspan
  | startTag e => exact .startTag hf hpiece hspan
  | opener kind head =>
    obtain rfl : head.span = span := hplace
    exact .opener hf hpiece hspan
  | @endTag name s n htarget =>
    obtain rfl : s = span := hplace
    exact .endTag hf htarget
  | strayEndTag =>
    obtain rfl := hplace
    exact .error hf (.quiet hmade hspan (.single (Problem.plain rfl _)) (List.forall_mem_nil _) .nil)
  | @branch word run s block outer hframes hkind =>
    obtain rfl : s = span := hplace
    exact .branch hf hframes (Builder.branchExpression_plain r word run s) hspan
  | @strayBranch word run s problem hproblem =>
    obtain rfl : s = span := hplace
    have hplain : problem.isPlain = true := by
      rcases hproblem with rfl | rfl <;> rfl
    exact .error hf (.quiet hmade hspan (.single (Problem.plain hplain _))
      (List.forall_mem_singleton.mpr (Moves.quiet_branch word)) (List.pairwise_singleton ..))
  | @closer kind s htarget =>
    obtain rfl : s = span := hplace
    exact .closer [] hf htarget hspan rfl rfl rfl
  | @closerOver kind s n innermost htarget =>
    obtain rfl : s = span := hplace
    -- the closer is reported before what it abandons
    obtain ⟨hunterminated, hnever, hmismatched⟩ :=
      Problem.counts_mismatched (p := .closerOver kind innermost) rfl s
    exact .closer [_] hf htarget hspan hunterminated hnever hmismatched
  | @strayCloser kind s problem htarget hproblem =>
    obtain rfl : s = span := hplace
    obtain ⟨hunterminated, hnever, hmismatched⟩ := Problem.counts_mismatched hproblem s
    refine .error hf (.answered (.inr rfl) hspan (fun k => Nat.zero_add _) hunterminated hnever ?_)
    rw [hmismatched]
    simp [Entry.isWrongAt]

end RsxInspect
