import RsxInspect.Proofs.Template.FileNesting
import RsxInspect.Proofs.Template.Shape
import RsxInspect.Proofs.Template.Spans

/-!
# Files and the shapes of their trees

Every piece of a template brings along nodes and frames of the right shape (`Piece.read_shaped`),
one reader after the other. A text takes all tokens of text that follow each other, so the next
piece is none (`Piece.behind_text`).

Hence the loop over the pieces of a template keeps the shape of its forest
(`Builder.Reaches.shaped`), and all trees of a file have it, whatever is wrong with the file
(`shaped_parse?`).
-/

namespace RsxInspect

/-! ### Pieces

One lemma for each reader: the node or the frame that it makes has its shape, by the tokens that it
was read from. -/

section Pieces

variable {r : Reading} {first : Token} {ts : List Token} {ds : List Diagnostic} {a b : Nat}

/-- What `Piece.read` gives is a text only if it starts with a token of text; all other readers make
something else. -/
theorem Piece.read_isText (htrace : Trace .template (first :: ts))
    (hfirst : first.kind ≠ .templateClose) (htext : (Piece.read r first ts).piece.isText = true) :
    first.kind = .text := by
  -- each other reader makes pieces of its own, none of them a text
  rcases htrace.piece_cases hfirst with
    ⟨hkind, -⟩ | ⟨hkind, -⟩ | ⟨hkind, -⟩ | ⟨hkind, -⟩ | ⟨hkind, -⟩
  · rw [Piece.read, hkind] at htext
    cases htext
  · exact hkind
  · have hother : (readStartTag r first ts).piece.isText = false := by
      rcases readStartTag_cases r first ts with ⟨hpiece, -⟩ | ⟨_, _, _, _, _, -, -, -, -, hpiece, -⟩
      · rw [hpiece]
        rfl
      · rw [hpiece]
        dsimp only
        split <;> rfl
    rw [Piece.read, hkind] at htext
    exact absurd htext (Bool.eq_false_iff.mp hother)
  · have hother : (readEndTag r first ts).piece.isText = false := by
      unfold readEndTag
      dsimp only
      split <;> rfl
    rw [Piece.read, hkind] at htext
    exact absurd htext (Bool.eq_false_iff.mp hother)
  · have hother : (readBraces r first ts).piece.isText = false := by
      unfold readBraces
      split <;> rfl
    rw [Piece.read, hkind] at htext
    exact absurd htext (Bool.eq_false_iff.mp hother)

/-- For a text `Piece.read` takes all tokens of text that follow each other, so what is left does
not start with one. -/
theorem Piece.behind_text (hfirst : first.kind = .text) :
    ∀ t ∈ (ts.drop (Piece.read r first ts).taken).head?, t.kind ≠ .text := by
  intro t ht hkind
  have htaken : (Piece.read r first ts).taken = (ts.takeWhile (·.kind == .text)).length := by
    rw [Piece.read, hfirst]
    rfl
  have hhead := List.head?_dropWhile_not (fun t : Token => t.kind == .text) ts
  rw [htaken, drop_length_takeWhile] at ht
  rw [Option.mem_def.mp ht] at hhead
  exact Bool.eq_false_iff.mp hhead (beq_iff_eq.mpr hkind)

theorem readText_shaped (hmem : ∀ t ∈ first :: ts, t ∈ significantTokens r.source)
    (hspaced : Spaced r.source a ((first :: ts).map Token.span) b) (hfirst : first.kind = .text) :
    (readText r first ts).piece.Brings r (Node.Shaped r.source) (Frame.Shaped r.source) ds := by
  obtain ⟨hmem, hbehind⟩ := List.forall_mem_cons.mp hmem
  have hfront : ts.takeWhile (·.kind == .text) <+: ts := List.takeWhile_prefix _
  refine ⟨TextNode.Shaped.of_textRun ?_, rfl⟩
  cases hspaced with
  | span gap nonempty hspaced =>
    have hsplit : ts.takeWhile (·.kind == .text) ++ ts.dropWhile (·.kind == .text) = ts :=
      List.takeWhile_append_dropWhile
    rw [← hsplit, List.map_append] at hspaced
    refine (TextRun.of_text hmem hfirst).foldl (fun t ht => hbehind t (hfront.subset ht))
      (fun t ht => ?_) hspaced
    exact beq_iff_eq.mp (List.all_eq_true.mp List.all_takeWhile t ht)

/-- A start tag makes an element without content, or opens one that has some: `readStartTag_cases`
tells the two apart. -/
theorem readStartTag_shaped (hmem : ∀ t ∈ ts, t ∈ significantTokens r.source) :
    (readStartTag r first ts).piece.Brings r (Node.Shaped r.source) (Frame.Shaped r.source) ds := by
  have hcounts := readStartTag_counts (r := r) first hmem
  rcases readStartTag_cases r first ts with
    ⟨hpiece, -⟩ | ⟨name, us, as, last, es, -, -, -, -, hpiece, -⟩
  · rw [hpiece]
    exact ⟨trivial, rfl⟩
  · dsimp only at hpiece
    split at hpiece
    · rw [hpiece]
      exact ⟨⟨fun _ => ⟨rfl, rfl⟩, nofun, .empty⟩, rfl⟩
    · rw [hpiece] at hcounts ⊢
      refine ⟨?_, .empty⟩
      -- an element that is open by its entry has to be closed
      by_contra hnot
      have hentry := hcounts.symm.trans (if_neg hnot)
      cases hentry

/-- The name of an end tag stands right behind its opening mark, by the trace: in the mode
`tagClose` nothing else is a name. -/
theorem readEndTag_shaped (htrace : Trace .tagClose ts)
    (hsuffix : first :: ts <:+ significantTokens r.source) (hfirst : first.kind = .tagEndOpen) :
    (readEndTag r first ts).piece.Brings r (Node.Shaped r.source) (Frame.Shaped r.source) ds := by
  have hrow := (tokensInRow_significantTokens r.source).suffix hsuffix
  have hstops := readEndTag_stops r first htrace
  rcases name_cases ts with ⟨hname, -⟩ | ⟨name, us, rfl, hname, hkind⟩
  · unfold readEndTag
    rw [hname]
    exact ⟨trivial, rfl⟩
  · have hpiece : (readEndTag r first (name :: us)).piece = .endTag (r.textOf name)
        (spanOf first (name :: us) (readEndTag r first (name :: us)).taken) := by
      unfold readEndTag
      rw [hname]
    -- the name was taken, so the tag reaches at least to its end
    obtain ⟨n, htaken⟩ : ∃ n, (readEndTag r first (name :: us)).taken = n + 1 := by
      refine Nat.exists_eq_add_of_le' ?_
      unfold readEndTag
      rw [hname]
      exact Nat.le_add_right_of_le (Nat.le_add_right 1 _)
    have hn : n ≤ us.length := by
      have hle := hstops.1
      rw [htaken] at hle
      exact Nat.le_of_succ_le_succ hle
    rw [hpiece]
    refine ⟨trivial, fun frame hframe => ⟨hframe.close_none _, fun hnamed => hframe.close _ ?_⟩⟩
    intro s hs
    obtain rfl := Option.some.inj hs
    cases frame with
    | element e children =>
      refine ⟨first, name, us, hsuffix, hfirst, hkind, rfl, ?_, hnamed⟩
      show name.span.stop ≤ endOf first (name :: us) _
      rw [htaken]
      exact hrow.stop_le_endOf hn
    | block b => cases hnamed

theorem readOpener_shaped (kind : DirectiveKind) :
    (readOpener r first ts kind.openWord kind).piece.Brings r (Node.Shaped r.source)
      (Frame.Shaped r.source) ds := by
  cases kind with
  | choice => exact DirectiveKind.Branched.opener rfl ⟨nofun, nofun⟩
  | loop => exact DirectiveKind.Branched.opener rfl ⟨fun _ => rfl, nofun⟩

theorem readBranch_shaped (word : BranchWord) :
    (readBranch first ts word).piece.Brings r (Node.Shaped r.source) (Frame.Shaped r.source) ds := by
  refine ⟨trivial, fun _ block hkind helse hblock => ?_⟩
  refine hblock.startBranch hkind helse rfl ⟨nofun, ?_⟩
  cases word with
  | elseIf => exact nofun
  | elseBranch => exact fun _ => rfl

/-- The keyword of a closer stands right behind its opening braces, so the closer is a `KeywordAt`
its span. -/
theorem readCloser_shaped (kind : DirectiveKind) {word : Token} {us : List Token}
    (hsuffix : first :: word :: us <:+ significantTokens r.source)
    (hfirst : first.kind = .interpolationOpen) (hword : word.kind = kind.closeWord) :
    (readCloser first (word :: us) kind).piece.Brings r (Node.Shaped r.source)
      (Frame.Shaped r.source) ds := by
  refine ⟨trivial, fun frame hframe => ⟨hframe.close_none _, fun hblock => hframe.close _ ?_⟩⟩
  intro s hs
  obtain rfl := Option.some.inj hs
  obtain ⟨b, rfl, rfl⟩ := frame.eq_block_of_isBlock hblock
  exact ⟨first, word, us, hsuffix, hfirst, hword, rfl⟩

theorem readBraces_shaped (hsuffix : first :: ts <:+ significantTokens r.source)
    (hfirst : first.kind = .interpolationOpen) :
    (readBraces r first ts).piece.Brings r (Node.Shaped r.source) (Frame.Shaped r.source) ds := by
  unfold readBraces
  cases ts with
  | nil => exact ⟨trivial, rfl⟩
  | cons word us =>
    rw [List.head?_cons, Option.map_some]
    cases hword : word.kind with
    | ifBlock => exact readOpener_shaped .choice
    | eachBlock => exact readOpener_shaped .loop
    | elseIf => exact readBranch_shaped .elseIf
    | elseBranch => exact readBranch_shaped .elseBranch
    | endIf => exact readCloser_shaped .choice hsuffix hfirst hword
    | endEach => exact readCloser_shaped .loop hsuffix hfirst hword
    | _ => exact ⟨trivial, rfl⟩

/-- **Pieces bring along nodes of the right shape.** The cases are those of `Piece.read`. -/
theorem Piece.read_shaped (htrace : Trace .template (first :: ts))
    (hfirst : first.kind ≠ .templateClose) (hsuffix : first :: ts <:+ significantTokens r.source)
    (hspaced : Spaced r.source a ((first :: ts).map Token.span) b) (ds : List Diagnostic) :
    (Piece.read r first ts).piece.Brings r (Node.Shaped r.source) (Frame.Shaped r.source) ds := by
  have hmem : ∀ t ∈ first :: ts, t ∈ significantTokens r.source := fun t ht => hsuffix.subset ht
  rcases htrace.piece_cases hfirst with
    ⟨hkind, -⟩ | ⟨hkind, -⟩ | ⟨hkind, -⟩ | ⟨hkind, hbehind⟩ | ⟨hkind, -⟩
  · rw [Piece.read, hkind]
    exact ⟨trivial, rfl⟩
  · rw [Piece.read, hkind]
    exact readText_shaped hmem hspaced hkind
  · rw [Piece.read, hkind]
    exact readStartTag_shaped fun t ht => hmem t (List.mem_cons_of_mem _ ht)
  · rw [Piece.read, hkind]
    exact readEndTag_shaped hbehind hsuffix hkind
  · rw [Piece.read, hkind]
    exact readBraces_shaped hsuffix hkind

end Pieces

/-! ### Templates

Between two texts there is always another piece, since a text takes all text tokens that stand
there; this is carried along the loop as a part of the invariant. -/

section Template

variable {r : Reading} {p₀ p : Builder.Progress} {ts₀ ts : List Token} {b : Nat}

/-- The forest has its shape so far, and if a text comes next, then there is none in front of it.
The second part is what `Forest.Adds.shaped` asks for. -/
structure Builder.Progress.Shaped (source : String) (p : Progress) (ts : List Token) : Prop where
  forest : p.builder.forest.Shaped source
  apart : ∀ t ∈ ts.head?, t.kind = .text →
    ∀ n ∈ p.builder.forest.innermost.getLast?, n.isText = false

/-- **The loop over pieces keeps the shape**, by induction on `Builder.Reaches`. -/
theorem Builder.Reaches.shaped (h : Reaches r p₀ ts₀ p ts) (h₀ : Trace .template ts₀)
    (hspaced : Spaced r.source p₀.stop (ts₀.map Token.span) b)
    (hsuffix : ts₀ <:+ significantTokens r.source) (hforest : p₀.builder.forest = .empty) :
    p.Shaped r.source ts := by
  induction h with
  | start =>
    refine ⟨?_, fun t _ _ n hn => ?_⟩
    · rw [hforest]
      exact .empty
    · rw [hforest] at hn
      cases hn
  | @piece p t ts h ht ih =>
    have htrace := h.trace h₀
    have hhere := h.spaced h₀ hspaced
    obtain ⟨ds, hadds, -⟩ := add_read r p.builder htrace ht hhere
    have hbrings := Piece.read_shaped htrace ht (h.suffix.trans hsuffix) hhere ds
    refine ⟨hadds.shaped ih.forest hbrings fun htext => ?_, fun u hu hnext n hn => ?_⟩
    · exact ih.apart t rfl (Piece.read_isText htrace ht htext)
    · -- behind a text comes no other one
      refine Bool.eq_false_iff.mpr fun htext => ?_
      have hfirst := Piece.read_isText htrace ht (hadds.innermost n hn htext)
      exact Piece.behind_text hfirst u hu hnext

/-- A template is `Shaped`, whatever is open at its end: what is abandoned is closed by nothing. -/
theorem Document.ReadsTemplate.shaped {notes : Notes} {opening : Token}
    {s : SectionRead TemplateSection} {k : Nat} (h : ReadsTemplate r notes opening ts s p k)
    (htrace : Trace .template ts)
    (hspaced : Spaced r.source opening.span.stop (ts.map Token.span) b)
    (hsuffix : ts <:+ significantTokens r.source) :
    (∀ n ∈ Node.subtreeAll s.content.children, n.Shaped r.source) ∧
      NoTextsTouch s.content.children := by
  obtain ⟨hholds, hroots⟩ := (h.reaches.shaped htrace hspaced hsuffix rfl).forest
  rw [h.children]
  refine ⟨hholds.roots_abandon (fun frame hframe => hframe.close_none _) ?_,
    Forest.Shaped.roots_abandon hroots _ _⟩
  exact fun frame inner hframe => hframe.push fun htext =>
    absurd htext (Bool.eq_false_iff.mp (inner.isText_close _ _))

end Template

/-! ### Files -/

/-- The nodes of a section are `Shaped`, and no two texts touch at the top of a template. -/
structure Section.Shaped (source : String) (s : Section) : Prop where
  nodes : ∀ n ∈ s.nodes, n.Shaped source
  roots : NoTextsTouch s.roots

/-- At the top of the loop over sections all that were read have their shapes, by induction on
`Document.Reaches`. -/
theorem Document.Reaches.shaped {r : Reading} {done : Array Section} {notes : Notes}
    {ts : List Token} (h : Reaches r #[] .empty (significantTokens r.source) done notes ts) :
    ∀ s ∈ done.toList, s.Shaped r.source := by
  induction h with
  | start => exact fun s hs => (nomatch hs)
  | @opened done notes t ts kind s h hkind hs ih =>
    have hbetween := h.between
    have hnew : s.content.Shaped r.source := by
      rw [hs]
      cases kind with
      -- only a template has nodes and roots
      | template =>
        obtain ⟨p, k, hread⟩ := hbetween.readsTemplate hkind r (notesAt r done notes .template t)
        obtain ⟨hnodes, hroots⟩ := hread.shaped (hbetween.mode hkind) hbetween.spaced_behind
          ((List.suffix_cons t ts).trans hbetween.suffix)
        exact ⟨hnodes, hroots⟩
      | _ => exact ⟨fun n hn => (nomatch hn), .empty⟩
    intro u hu
    rw [Array.toList_push, List.mem_append, List.mem_singleton] at hu
    rcases hu with hu | rfl
    · exact ih u hu
    · exact hnew
  | skipped h hkind ih => exact ih

/-- **Every tree has its shape.** Let the scan of a file reach the end. The file is read exactly if the
scans of its values do (`Document.valuesEnd`), and then, whatever is wrong with it, blocks have the
branches of their kind, elements without content are empty, what closes something belongs to it, and
texts are plain and stand apart (`Document.Shaped`). -/
theorem shaped_parse? (source : String) (withTrees : Bool)
    (h : (Scanner.ofSource source).toEnd?.isSome = true) :
    (Document.parse? source withTrees).isSome
        = Document.valuesEnd source (significantTokens source) ∧
      ∀ parsed, Document.parse? source withTrees = some parsed → parsed.document.Shaped source := by
  let r : Reading := ⟨source, withTrees⟩
  refine Document.forall_parse? withTrees h ?_
  have hshaped := (Document.reaches_end r source).shaped
  refine ⟨fun n hn => ?_, fun s hs => (hshaped s hs).roots⟩
  obtain ⟨s, hs, hn⟩ := List.mem_flatMap.mp hn
  exact (hshaped s hs).nodes n hn

/-- A choice with two last branches and the closer of a loop in it, in an element that is never closed,
behind an element without content and a text of two words. -/
theorem shaped_parse?_malformed :
    let source := String.ofList
      "<template>a b<br><p>{{@if c}}d{{:else}}{{/each}}{{:else}}</br>".toList
    (Scanner.ofSource source).toEnd?.isSome = true ∧
      ∃ parsed, Document.parse? source true = some parsed ∧ parsed.document.Shaped source ∧
        parsed.document.nodes.size = 8 := by
  intro source
  have hend : (Scanner.ofSource source).toEnd?.isSome = true := by decide +kernel
  obtain ⟨-, hshaped⟩ := shaped_parse? source true hend
  have hsize : (Document.parse? source true).map (·.document.nodes.size) = some 8 := by
    decide +kernel
  obtain ⟨parsed, hparsed, hsize⟩ := Option.map_eq_some_iff.mp hsize
  exact ⟨hend, parsed, hparsed, hshaped parsed hparsed, hsize⟩

end RsxInspect
