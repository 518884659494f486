import RsxInspect.Proofs.Template.Agreement
import RsxInspect.Proofs.Template.Ordered
import RsxInspect.Proofs.Template.Steps

/-!
# Templates and files as they are read

What the two loops of a file come to, in terms of the tokens they started with. The bricks:

* `Builder.Reaches.eq_drop` and `Builder.Reaches.spaced`: at each top of the loop over pieces the
  tokens that are next are what is left of those at the start, and they are `Spaced` behind the last
  piece.
* `Builder.reaches_end`: the loop stops in front of the closing tag, if there is one, or at the end.
* `Document.ReadsTemplate`: a template as it is read, with the builder that the loop leaves. What is
  open then is closed where the last piece ended (`ReadsTemplate.stop_le`).
* `Between.mode`, `Between.spaced_behind`, `Between.bad`: what is known of the token at a top of the
  loop over sections, and of those behind it.
* `Document.readSection_span`: a section stands where its tokens stand.

The loop over the sections turns the tokens of each section into one span and skips nothing but bad
characters (`Document.Reaches.exists_spans`).
-/

namespace RsxInspect

/-! ### The loop over pieces

What a loop of the program does is a recursion over tokens, so its invariants are said of its tops,
`Reaches`; here stands what they all need of the tokens that are left. -/

namespace Builder

variable {r : Reading} {p₀ p : Progress} {ts₀ ts : List Token} {source : String} {a b : Nat}

namespace Reaches

/-- The tokens that are taken stand in front of those that are next, and the last one of them ends
where the loop says (`Progress.stop`). -/
theorem eq_drop (h : Reaches r p₀ ts₀ p ts) (h₀ : Trace .template ts₀) {first : Token}
    (hfirst : p₀.stop = first.span.stop) :
    ∃ k, k ≤ ts₀.length ∧ p.taken = p₀.taken + k ∧ ts = ts₀.drop k ∧ p.stop = endOf first ts₀ k := by
  induction h with
  | start => exact ⟨0, Nat.zero_le _, rfl, rfl, hfirst⟩
  | @piece p t ts h ht ih =>
    obtain ⟨k, hk, htaken, heq, -⟩ := ih
    have hle := (Piece.read_stops r (h.trace h₀) ht).1
    have hlength := congrArg List.length heq
    rw [List.length_cons, List.length_drop] at hlength
    refine ⟨k + (Piece.read r t ts).taken + 1, by omega, ?_, ?_, ?_⟩
    · show p.taken + 1 + _ = _
      omega
    · rw [Nat.add_assoc, Nat.add_comm _ 1, ← List.drop_drop, ← List.drop_drop, ← heq]
      rfl
    · -- the last token of the piece, seen from the start
      have hlast : (first :: ts₀)[k + (Piece.read r t ts).taken + 1]?
          = (t :: ts)[(Piece.read r t ts).taken]? := by
        rw [List.getElem?_cons_succ, heq, List.getElem?_drop]
      show endOf t ts _ = _
      unfold endOf
      rw [hlast, List.getElem?_eq_getElem (Nat.lt_succ_of_le hle)]
      rfl

/-- The tokens that are next are `Spaced` behind the last piece. -/
theorem spaced (h : Reaches r p₀ ts₀ p ts) (h₀ : Trace .template ts₀)
    (hspaced : Spaced source p₀.stop (ts₀.map Token.span) b) :
    Spaced source p.stop (ts.map Token.span) b := by
  induction h with
  | start => exact hspaced
  | piece h ht ih =>
    have hgroup := Spaced.group (Piece.read_stops r (h.trace h₀) ht).1 ih
    cases hgroup with
    | span _ _ rest => exact rest

end Reaches

/-- The loop over pieces stops behind `k` of the tokens, in front of the closing tag or the end of
the input. The same place is found from the tokens (`readFrom_gathered`) and from the tops of the
loop. -/
theorem reaches_end (r : Reading) (p : Progress) {first : Token} (hfirst : p.stop = first.span.stop)
    (htrace : Trace .template ts) (hspaced : Spaced source a (ts.map Token.span) b) :
    ∃ k, (readFrom r p ts).taken = p.taken + k ∧ Stops k ts ∧
      (∀ t, (ts.drop k).head? = some t → t.kind = .templateClose) ∧
      (readFrom r p ts).stop = endOf first ts k ∧
      Reaches r p ts (readFrom r p ts) (ts.drop k) := by
  obtain ⟨k, parts, hread⟩ := readFrom_gathered r p htrace hspaced
  -- the same end, seen from the tokens and from the tops of the loop
  have hstart : Reaches r p ts p ts := .start
  obtain ⟨rest, hend⟩ := hstart.exists_end
  obtain ⟨j, -, htaken, rfl, hstop⟩ := hend.eq_drop htrace hfirst
  obtain rfl : j = k := Nat.add_left_cancel (htaken.symm.trans hread.taken)
  exact ⟨j, htaken, hread.stops, hread.ended, hstop, hend⟩

/-- Adding the piece that is next does what is on the list (`Forest.Adds`), since such a piece is
not nothing. -/
theorem add_read (r : Reading) (b : Builder) {t : Token} {c : Nat}
    (htrace : Trace .template (t :: ts)) (ht : t.kind ≠ .templateClose)
    (hspaced : Spaced source a ((t :: ts).map Token.span) c) :
    ∃ ds, b.forest.Adds r (Piece.read r t ts).piece (b.add r (Piece.read r t ts)).forest ds ∧
      (b.add r (Piece.read r t ts)).notes.findings
        = b.notes.findings.recordAll r.source ((Piece.read r t ts).diagnostics ++ ds) := by
  apply add_adds
  intro hnothing
  obtain ⟨p, hp⟩ := (Piece.read_standsFor r htrace ht hspaced).becomes
  rw [hnothing] at hp
  exact hp

end Builder

/-! ### Templates

All lemmas on a whole template start from `ReadsTemplate`, so that `readTemplate` is unfolded only
once (`exists_readsTemplate`). -/

namespace Document

variable {r : Reading} {notes : Notes} {opening : Token} {ts : List Token} {source : String}
  {a b : Nat}

/-- A template behind its opening tag is read from the builder `p` that the loop over its pieces
leaves, behind `k` of the tokens: where it stands, what it takes, its children, and what is reported
up to its end. -/
structure ReadsTemplate (r : Reading) (notes : Notes) (opening : Token) (ts : List Token)
    (s : SectionRead TemplateSection) (p : Builder.Progress) (k : Nat) : Prop where
  reaches : Builder.Reaches r
    ⟨⟨.empty, notes.reportAll r.source (openTagProblem r opening)⟩, 0, opening.span.stop⟩ ts
    p (ts.drop k)
  stops : Stops k ts
  ended : ∀ t, (ts.drop k).head? = some t → t.kind = .templateClose
  first : s.content.opening = opening.span
  span : s.content.span = spanOf opening ts s.taken
  stop : p.stop = endOf opening ts k
  closing : s.content.closing = (ts.drop k).head?.map Token.span
  taken : s.taken = k + if s.content.closing.isSome then 1 else 0
  rest : ts.drop s.taken = (ts.drop k).tail
  children : s.content.children
    = (p.builder.forest.abandon p.stop p.builder.forest.frames.length).roots.toList
  findings : s.notes.findings = p.builder.notes.findings.recordAll r.source
    (p.builder.forest.neverClosed p.builder.forest.frames.length
      ++ unclosedProblem .template opening s.content.closing)

/-- In markup `ReadsTemplate` always holds of some section. -/
theorem exists_readsTemplate (r : Reading) (notes : Notes) (opening : Token)
    (htrace : Trace .template ts) (hspaced : Spaced source a (ts.map Token.span) b) :
    ∃ p k, ReadsTemplate r notes opening ts (readTemplate r notes opening ts) p k := by
  let p₀ : Builder.Progress :=
    ⟨⟨.empty, notes.reportAll r.source (openTagProblem r opening)⟩, 0, opening.span.stop⟩
  obtain ⟨k, htaken, hstops, hended, hstop, hreaches⟩ := Builder.reaches_end r p₀ rfl htrace hspaced
  have htaken : (Builder.readFrom r p₀ ts).taken = k := htaken.trans (Nat.zero_add k)
  -- the pieces end at the closing tag or at the end of the tokens, so the filter keeps what is
  -- there
  have hclosing : (readTemplate r notes opening ts).content.closing
      = (ts.drop k).head?.map Token.span := by
    show ((ts.drop (Builder.readFrom r p₀ ts).taken).head?.filter
      (·.kind == .templateClose)).map (·.span) = _
    rw [htaken]
    cases hhead : (ts.drop k).head? with
    | none => rfl
    | some t => rw [Option.filter_some, if_pos (by rw [hended t hhead]; rfl)]
  have hall : (readTemplate r notes opening ts).taken
      = k + if (readTemplate r notes opening ts).content.closing.isSome then 1 else 0 :=
    congrArg (· + _) htaken
  obtain ⟨hforest, hfindings⟩ := Builder.finish_eq (Builder.readFrom r p₀ ts).builder r.source
    (Builder.readFrom r p₀ ts).stop
  refine ⟨_, k, hreaches, hstops, hended, rfl, rfl, hstop, hclosing, hall, ?_, ?_, ?_⟩
  · rw [hall, hclosing, ← List.drop_drop]
    cases ts.drop k <;> rfl
  · exact congrArg (·.roots.toList) hforest
  · show Findings.recordAll r.source (Builder.finish _ r.source _).notes.findings _ = _
    rw [hfindings, Forest.neverClosed, List.take_length]
    exact List.foldl_append.symm

namespace ReadsTemplate

variable {s : SectionRead TemplateSection} {p : Builder.Progress} {k : Nat}

/-- The closing tag is one of the tokens. -/
theorem taken_le (h : ReadsTemplate r notes opening ts s p k) : s.taken ≤ ts.length := by
  have hle := h.stops.1
  rw [h.taken, h.closing]
  cases hrest : ts.drop k with
  | nil => exact hle
  | cons t rest =>
    have hlength := congrArg List.length hrest
    rw [List.length_drop, List.length_cons] at hlength
    show k + 1 ≤ ts.length
    omega

/-- The last piece ends in front of the closing tag, or where the template ends without one. -/
theorem stop_le (h : ReadsTemplate r notes opening ts s p k) (htrace : Trace .template ts)
    (hspaced : Spaced source opening.span.stop (ts.map Token.span) b) :
    p.stop ≤ s.content.contentEnd ∧ s.content.contentEnd ≤ s.content.span.stop := by
  have hbehind := h.reaches.spaced htrace hspaced
  unfold TemplateSection.contentEnd
  rw [h.span, h.taken, h.closing]
  cases hrest : ts.drop k with
  | nil => exact ⟨Nat.le_of_eq h.stop, Nat.le_refl _⟩
  | cons t rest =>
    rw [hrest] at hbehind
    obtain ⟨hstart, hnonempty, -⟩ := hbehind.ordered
    refine ⟨hstart, ?_⟩
    -- the closing tag is the last token of the template
    have hlast : (opening :: ts)[k + 1]? = some t := by
      rw [List.getElem?_cons_succ, ← List.head?_drop, hrest]
      rfl
    show t.span.start ≤ (((opening :: ts)[k + 1]?).getD opening).span.stop
    rw [hlast]
    exact Nat.le_of_lt hnonempty

end ReadsTemplate

/-! ### The loop over sections

The same for the loop over sections, whose tops are `Between` sections. -/

namespace Between

variable {t : Token} {kind : SectionKind}

/-- At a top of the loop the tokens that are left are `Spaced`, as those of the file are. -/
theorem spaced (h : Between source notes ts) :
    ∃ a, Spaced source a (ts.map Token.span) (Scanner.ofSource source).toEnd.2.offset := by
  obtain ⟨before, hbefore⟩ := h.suffix
  have hall := spaced_significantTokens source
  rw [← hbefore, List.map_append] at hall
  exact hall.behind

/-- Behind the token that opens a section the scan is in the mode of the section
(`SectionKind.mode`). -/
theorem mode (h : Between source notes (t :: ts)) (hkind : sectionOpenedBy? t.kind = some kind) :
    Trace kind.mode ts := by
  rcases h.trace.section_cases with ⟨kind', hkind', hmode⟩ | ⟨hnone, -⟩
  · cases hkind.symm.trans hkind'
    exact hmode
  · rw [hnone] at hkind
    cases hkind

/-- A token at the top of the loop is not empty. -/
theorem nonempty (h : Between source notes (t :: ts)) : t.span.start < t.span.stop := by
  obtain ⟨a, hspaced⟩ := h.spaced
  exact (hspaced.mem (List.mem_cons_self ..)).2.1

/-- The tokens behind it are spaced from its end on. -/
theorem spaced_behind (h : Between source notes (t :: ts)) :
    Spaced source t.span.stop (ts.map Token.span) (Scanner.ofSource source).toEnd.2.offset := by
  obtain ⟨a, hspaced⟩ := h.spaced
  cases hspaced with
  | span _ _ rest => exact rest

/-- A template that opens here is read as `ReadsTemplate` says. -/
theorem readsTemplate (h : Between source notes (t :: ts))
    (hkind : sectionOpenedBy? t.kind = some .template) (r : Reading) (notes' : Notes) :
    ∃ p k, ReadsTemplate r notes' t ts (readTemplate r notes' t ts) p k :=
  exists_readsTemplate r notes' t (h.mode hkind) h.spaced_behind

/-- A token that opens no section is bad. -/
theorem bad (h : Between source notes (t :: ts)) (hkind : sectionOpenedBy? t.kind = none) :
    t.kind = .badCharacter := by
  rcases h.head with hbad | hopens
  · exact hbad
  · rw [hkind] at hopens
    cases hopens

end Between

/-- `readCode` takes no more than there is. -/
theorem readCode_taken_le (r : Reading) (notes : Notes) (kind : SectionKind) (opening : Token)
    (ts : List Token) : (readCode r notes kind opening ts).taken ≤ ts.length := by
  unfold readCode
  generalize codeKinds kind = kinds
  obtain ⟨code, close⟩ := kinds
  have hle : (ts.takeWhile (·.kind == code)).length ≤ ts.length :=
    (List.takeWhile_prefix _).length_le
  dsimp only
  generalize (ts.takeWhile (·.kind == code)).length = k at hle ⊢
  cases hrest : ts.drop k with
  | nil => exact hle
  | cons t rest =>
    have hlength := congrArg List.length hrest
    rw [List.length_drop, List.length_cons] at hlength
    split <;> omega

/-- A section stands where its tokens stand, and takes no more than there are. -/
theorem readSection_span {kind : SectionKind} (htrace : Trace kind.mode ts)
    (hspaced : Spaced source a (ts.map Token.span) b) :
    let s := readSection r notes kind opening ts
    s.taken ≤ ts.length ∧ s.content.span = spanOf opening ts s.taken := by
  cases kind with
  | template =>
    obtain ⟨p, k, hread⟩ := exists_readsTemplate r notes opening htrace hspaced
    exact ⟨hread.taken_le, hread.span⟩
  | frontMatter => exact ⟨readCode_taken_le r notes .frontMatter opening ts, rfl⟩
  | script => exact ⟨readCode_taken_le r notes .script opening ts, rfl⟩
  | style => exact ⟨readCode_taken_le r notes .style opening ts, rfl⟩

/-- The sections are `Spaced`: they stand in a row with the tokens behind them. Whatever else stands
between them is a bad character. By induction on the tops of the loop: the tokens of a section are
grouped into its span. -/
theorem Reaches.exists_spans {done : Array Section}
    (h : Reaches r #[] .empty (significantTokens source) done notes ts) :
    ∃ spans, Spaced source 0 (spans ++ ts.map Token.span) (Scanner.ofSource source).toEnd.2.offset ∧
      (done.toList.map Section.span).Sublist spans ∧
      (done.toList.map Section.span = spans ∨
        ∃ t ∈ significantTokens source, t.kind = .badCharacter) ∧
      ∀ s ∈ spans, s ∈ done.toList.map Section.span ∨
        ∃ t ∈ significantTokens source, t.kind = .badCharacter ∧ t.span = s := by
  induction h with
  | start => exact ⟨[], spaced_significantTokens source, .slnil, .inl rfl, List.forall_mem_nil _⟩
  | @opened done notes t ts kind s h hkind hs ih =>
    have hbetween := h.between
    obtain ⟨spans, hspaced, hsub, hall, hitems⟩ := ih
    obtain ⟨hle, hspan⟩ : s.taken ≤ ts.length ∧ s.content.span = spanOf t ts s.taken := by
      rw [hs]
      exact readSection_span (hbetween.mode hkind) hbetween.spaced_behind
    -- the tokens of the section become its span
    refine ⟨spans ++ [s.content.span], ?_, ?_, ?_, fun x hx => ?_⟩
    · obtain ⟨hbefore, hstart, hbehind⟩ : Spaced source 0 spans t.span.start ∧ _ := hspaced.split
      have hall : Spaced source t.span.start ((t :: ts).map Token.span) _ :=
        .span hbefore.blank_right hstart hbehind
      have hgroup := hall.group hle
      rw [hspan, List.append_assoc]
      exact hbefore.trans hgroup
    · rw [Array.toList_push, List.map_append]
      exact hsub.append_right _
    · refine hall.imp_left fun heq => ?_
      rw [Array.toList_push, List.map_append, heq]
      rfl
    · rw [Array.toList_push, List.map_append, List.mem_append]
      rcases List.mem_append.mp hx with hx | hx
      · exact (hitems x hx).imp_left .inl
      · exact .inl (.inr hx)
  | @skipped done notes t ts h hkind ih =>
    -- what is skipped keeps a span of its own
    have hbad := h.between.bad hkind
    have hmem : t ∈ significantTokens source := h.between.suffix.subset (List.mem_cons_self ..)
    obtain ⟨spans, hspaced, hsub, -, hitems⟩ := ih
    refine ⟨spans ++ [t.span], ?_, hsub.trans (List.sublist_append_left ..), .inr ⟨t, hmem, hbad⟩,
      fun x hx => ?_⟩
    · rw [List.append_assoc]
      exact hspaced
    · rcases List.mem_append.mp hx with hx | hx
      · exact hitems x hx
      · exact .inr ⟨t, hmem, hbad, (List.mem_singleton.mp hx).symm⟩

/-- A file that is read to its end is read by the loop over its sections. -/
theorem reaches_end (r : Reading) (source : String) :
    Reaches r #[] .empty (significantTokens source)
      (readFrom r #[] .empty (significantTokens source)).1
      (readFrom r #[] .empty (significantTokens source)).2 [] :=
  Reaches.exists_end .start

end Document

/-- A scan that reaches the end, in the sense of `toEnd?`, stops behind the last byte. -/
theorem offset_toEnd {source : String} (h : (Scanner.ofSource source).toEnd?.isSome = true) :
    (Scanner.ofSource source).toEnd.2.offset = source.utf8ByteSize := by
  obtain ⟨⟨tokens, s⟩, htoEnd⟩ := Option.isSome_iff_exists.mp h
  obtain ⟨hreads, hend⟩ := Scanner.toEnd?_eq_some_iff.mp htoEnd
  have hrun : (Scanner.ofSource source).toEnd.2 = s := by
    rw [Scanner.toEnd, hreads.toEndFrom hend]
  rw [Scanner.ofSource_eq_behind] at hreads
  obtain ⟨mid, rest, hsource, hs⟩ := hreads.exists_behind
  rw [hs] at hend
  obtain rfl : rest = [] := hend
  rw [hrun, hs, Scanner.behind_offset, List.nil_append, ← String.utf8Len_toList, hsource,
    List.append_nil]

end RsxInspect
