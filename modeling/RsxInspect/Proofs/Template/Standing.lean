import RsxInspect.Proofs.Diagnostic.Once
import RsxInspect.Proofs.Template.MadeFiles

/-!
# Where reports stand

What is reported while a piece is read stands on tokens of that piece: it meets no other token of
the file, except maybe the tag that closes the template, where something else was expected
(`Piece.read_stands`). The same holds of what is reported when the piece is added, apart from the
frames that are left open (`Forest.Adds.encloses`). So a report on a token comes from the piece that
the token is in.

There are two notions. `Span.Encloses` is about spans alone, and the readers of runs, tags and
braces are followed with it, one lemma for each (`…_encloses`). `StandsIn` is about the tokens of
the file, and is got from the first by `StandsIn.of_encloses`, since tokens do not overlap.
-/

namespace RsxInspect

/-! ### Reports and tokens

`Encloses` is a preorder on spans that `Span.cover` respects. -/

namespace Span.Encloses

variable {s t u : Span}

theorem refl (s : Span) : s.Encloses s := ⟨Nat.le_refl _, Nat.le_refl _⟩

theorem trans (h : s.Encloses t) (h' : t.Encloses u) : s.Encloses u :=
  ⟨Nat.le_trans h.1 h'.1, Nat.le_trans h'.2 h.2⟩

theorem cover (h : s.Encloses t) (h' : s.Encloses u) : s.Encloses (t.cover u) :=
  ⟨Nat.le_min.mpr ⟨h.1, h'.1⟩, Nat.max_le.mpr ⟨h.2, h'.2⟩⟩

end Span.Encloses

namespace Diagnostic

/-- The diagnostic speaks of single tokens, and not of something that is left open; the others stand
on what was opened, which may be far away. -/
def isOfTokens (d : Diagnostic) : Bool :=
  d.kind == .unexpectedToken || d.kind == .badCharacter || d.kind == .unterminatedString

/-- Closing tags aside, all tokens of the file that the diagnostic meets lie in the span `s`. -/
structure StandsIn (source : String) (s : Span) (d : Diagnostic) : Prop where
  le : d.span.start ≤ d.span.stop
  meets : ∀ t ∈ significantTokens source, t.kind ≠ .templateClose → d.span.meets t.span = true →
    s.Encloses t.span

/-- So it is with all on the list that speak of tokens (`isOfTokens`). -/
def AllStandIn (source : String) (s : Span) (ds : List Diagnostic) : Prop :=
  ∀ d ∈ ds, d.isOfTokens = true → d.StandsIn source s

variable {source : String} {d : Diagnostic} {s s' : Span} {ds es : List Diagnostic}

theorem StandsIn.mono (h : d.StandsIn source s) (hs : s'.Encloses s) : d.StandsIn source s' :=
  ⟨h.le, fun t ht hkind hmeets => hs.trans (h.meets t ht hkind hmeets)⟩

theorem AllStandIn.nil : AllStandIn source s [] := List.forall_mem_nil _

theorem AllStandIn.append (h : AllStandIn source s ds) (h' : AllStandIn source s es) :
    AllStandIn source s (ds ++ es) :=
  List.forall_mem_append.mpr ⟨h, h'⟩

theorem AllStandIn.mono (h : AllStandIn source s ds) (hs : s'.Encloses s) : AllStandIn source s' ds :=
  fun d hd hkind => (h d hd hkind).mono hs

/-- Diagnostics of other kinds than `isOfTokens` stand anywhere. -/
theorem AllStandIn.of_others (h : ∀ d ∈ ds, d.isOfTokens = false) : AllStandIn source s ds := by
  intro d hd hkind
  rw [h d hd] at hkind
  cases hkind

/-- What stands from one token to the end of another one meets none of those around them, since the
significant tokens are `Spaced`. -/
theorem StandsIn.of_encloses {first last : Token} (hle : d.span.start ≤ d.span.stop)
    (hfirst : first ∈ significantTokens source) (hlast : last ∈ significantTokens source)
    (h : Span.Encloses ⟨first.span.start, last.span.stop⟩ d.span) :
    d.StandsIn source ⟨first.span.start, last.span.stop⟩ := by
  refine ⟨hle, fun t ht _ hmeets => ?_⟩
  obtain ⟨hstart, hstop⟩ := Span.meets_iff.mp hmeets
  obtain ⟨hleft, hright⟩ : first.span.start ≤ d.span.start ∧ d.span.stop ≤ last.span.stop := h
  have hnonempty : ∀ u ∈ significantTokens source, u.span.start < u.span.stop := fun u hu =>
    ((spaced_significantTokens source).ordered.mem (List.mem_map_of_mem hu)).2.1
  have := hnonempty first hfirst
  have := hnonempty last hlast
  -- a token that meets `d` but starts before the first token would overlap it; the same at the
  -- other end
  constructor
  · by_contra hbefore
    have hbefore : t.span.start < first.span.start := Nat.lt_of_not_le hbefore
    obtain rfl := eq_of_overlap ht hfirst (by omega) (by omega)
    exact Nat.lt_irrefl _ hbefore
  · by_contra hbehind
    have hbehind : last.span.stop < t.span.stop := Nat.lt_of_not_le hbehind
    obtain rfl := eq_of_overlap ht hlast (by omega) (by omega)
    exact Nat.lt_irrefl _ hbehind

/-- What stands on a closing tag meets no other token, so `StandsIn` says nothing of it. -/
theorem StandsIn.of_close {u : Token} (hu : u ∈ significantTokens source)
    (hkind : u.kind = .templateClose) (h : d.span = u.span) : d.StandsIn source s := by
  refine ⟨h ▸ (fits_significantTokens source u hu).le, fun t ht hother hmeets => ?_⟩
  rw [h] at hmeets
  obtain ⟨hstart, hstop⟩ := Span.meets_iff.mp hmeets
  obtain rfl := eq_of_overlap ht hu hstop hstart
  exact absurd hkind hother

/-- At the end of the file there are no tokens that could be met. -/
theorem StandsIn.of_end (h : d.span = Span.point source.utf8ByteSize) : d.StandsIn source s := by
  refine ⟨h ▸ Nat.le_refl _, fun t ht _ hmeets => ?_⟩
  rw [h] at hmeets
  have hsize := (fits_significantTokens source t ht).stop.le_size
  have hstart : source.utf8ByteSize < t.span.stop := (Span.meets_iff.mp hmeets).1
  omega

end Diagnostic

/-! ### Runs

A report on a run is made of the spans of its tokens, or of a tree that was read from these. -/

section Runs

variable {r : Reading} {run : List Token} {s : Span}

/-- A run lies where its tokens lie: `Span.ofRun?` goes from the first to the last of them. -/
theorem Span.ofRun?_encloses {s' : Span} (hrun : ∀ t ∈ run, s.Encloses t.span)
    (h : Span.ofRun? run = some s') : s.Encloses s' := by
  unfold Span.ofRun? at h
  split at h
  · rename_i first last hfirst hlast
    rw [← Option.some.inj h]
    exact (hrun first (List.mem_of_head? hfirst)).cover (hrun last (List.mem_of_getLast? hlast))
  · cases h

theorem Problem.onRun?_encloses {p : Problem} (hrun : ∀ t ∈ run, s.Encloses t.span) :
    ∀ d ∈ p.onRun? run, s.Encloses d.span := by
  intro d hd
  obtain ⟨s', hs', rfl⟩ := Option.map_eq_some_iff.mp (Option.mem_toList.mp hd)
  exact Span.ofRun?_encloses hrun hs'

/-- The report on a tree that there is none of (`Expr.parse`) stands in the run. -/
theorem Expression.ofRun?_encloses (h : TokensInRow r.source run)
    (hrun : ∀ t ∈ run, s.Encloses t.span) (wanted : Bool) :
    ∀ d ∈ (Expression.ofRun? r run wanted).2, s.Encloses d.span ∧ d.kind = .unexpectedToken := by
  unfold Expression.ofRun?
  split
  · exact List.forall_mem_nil _
  · rename_i s' hs'
    have hclosed : (Expr.Passage.of r.source run).Closed s.Encloses := by
      refine ⟨?_, fun _ _ => .cover⟩
      -- the run is not empty, so its end is the end of its last token
      cases hlast : run.getLast? with
      | none =>
        rw [List.getLast?_eq_none_iff.mp hlast] at hs'
        cases hs'
      | some last =>
        have hmem := List.mem_of_getLast? hlast
        have hend : (Expr.Passage.of r.source run).endSpan = Span.point last.span.stop := by
          rw [Expr.Passage.endSpan, Expr.Passage.of, hlast]
          rfl
        rw [hend]
        exact ⟨Nat.le_trans (hrun last hmem).1 (h.fits last hmem).le, (hrun last hmem).2⟩
    have hspans := Expr.spans_of_parse hclosed hrun
    split
    · split
      · exact List.forall_mem_nil _
      · rename_i d herror
        rw [herror] at hspans
        exact List.forall_mem_singleton.mpr hspans
    · exact List.forall_mem_nil _

end Runs

/-! ### Tags -/

section Tags

variable {r : Reading} {s : Span} {us : List Token}

/-- What `AttributeValue.ofToken` reports stands in the value: on the value itself, on bad
characters in it, or on its run. -/
theorem AttributeValue.ofToken_encloses {t : Token} (ht : t.span.Fits r.source) :
    ∀ d ∈ (AttributeValue.ofToken r t).2, t.span.Encloses d.span := by
  unfold AttributeValue.ofToken
  dsimp only
  split
  · rename_i hbraces
    obtain ⟨done, inner, beyond, hinner⟩ := exists_inner ht hbraces
    have htokens : ∀ u ∈ (valueTokens r t).1, t.span.Encloses u.span := by
      intro u hu
      obtain ⟨hstart, -, hstop⟩ := hinner.ordered.mem (List.mem_map_of_mem hu)
      exact ⟨by omega, hstop⟩
    refine List.forall_mem_append.mpr ⟨List.forall_mem_append.mpr ⟨fun d hd => ?_, fun d hd => ?_⟩, ?_⟩
    · obtain ⟨u, hu, hd⟩ := List.mem_filterMap.mp hd
      obtain ⟨p, -, rfl⟩ := Option.map_eq_some_iff.mp hd
      exact htokens u hu
    · exact (Expression.ofRun?_encloses hinner.tokensInRow htokens true d hd).1
    · exact forall_mem_ite (List.forall_mem_singleton.mpr (.refl _)) (List.forall_mem_nil _)
  · exact List.forall_mem_nil _

theorem AttributeTokens.encloses {a : Attribute} {ds : List Diagnostic}
    (h : AttributeTokens r us a ds) (hfits : ∀ u ∈ us, u.span.Fits r.source)
    (hus : ∀ u ∈ us, s.Encloses u.span) : ∀ d ∈ ds, s.Encloses d.span := by
  cases h with
  | bare => exact List.forall_mem_nil _
  | unvalued => exact List.forall_mem_singleton.mpr (hus _ (by simp))
  | @valued t equals v =>
    intro d hd
    exact (hus v (by simp)).trans (AttributeValue.ofToken_encloses (hfits v (by simp)) d hd)

theorem TagTokens.encloses {as : List Attribute} {last : Option TokenKind} {ds : List Diagnostic}
    (h : TagTokens r us as last ds) (hfits : ∀ u ∈ us, u.span.Fits r.source)
    (hus : ∀ u ∈ us, s.Encloses u.span) : ∀ d ∈ ds, s.Encloses d.span := by
  induction h with
  | unended | ended => exact List.forall_mem_nil _
  | attr ha _ ih =>
    obtain ⟨hfirst, hrest⟩ := List.forall_mem_append.mp hfits
    obtain ⟨hus, hts⟩ := List.forall_mem_append.mp hus
    exact List.forall_mem_append.mpr ⟨ha.encloses hfirst hus, ih hrest hts⟩
  | bad _ _ ih =>
    exact ih (List.forall_mem_cons.mp hfits).2 (List.forall_mem_cons.mp hus).2
  | stray _ _ _ _ ih =>
    obtain ⟨ht, hts⟩ := List.forall_mem_cons.mp hus
    exact List.forall_mem_cons.mpr ⟨ht, ih (List.forall_mem_cons.mp hfits).2 hts⟩

theorem strayInEndTag_encloses (ts : List Token)
    (hts : ∀ u ∈ ts.take (strayInEndTag r ts).1, s.Encloses u.span) :
    ∀ d ∈ (strayInEndTag r ts).2, s.Encloses d.span := by
  induction ts with
  | nil => exact List.forall_mem_nil _
  | cons t ts ih =>
    rw [strayInEndTag] at hts ⊢
    split
    · rename_i hkind
      rw [hkind] at hts
      exact ih (List.forall_mem_cons.mp hts).2
    · rename_i hkind
      rw [hkind] at hts
      obtain ⟨ht, hts⟩ := List.forall_mem_cons.mp hts
      exact List.forall_mem_cons.mpr ⟨ht, ih hts⟩
    · exact List.forall_mem_nil _

end Tags

/-! ### Pieces

Each piece lies in its `spanOf`; the readers of start and end tags report on single tokens of
theirs. -/

/-- What is reported when the piece is added lies in the span, apart from what is said of frames.
Only the head of a branch is read so late. -/
def Piece.LiesIn (r : Reading) (s : Span) : Piece → Prop
  | .endTag _ span | .closer _ span => s.Encloses span
  | .branch word run span => s.Encloses span ∧
      ∀ d ∈ (Builder.branchExpression r word run span).2, s.Encloses d.span
  | _ => True

/-- What is reported of the piece lies in the tokens that it takes, or stands on whatever comes in
place of the name of a tag (`unexpectedNext`). -/
structure PieceRead.LiesIn (r : Reading) (ts : List Token) (s : Span) (read : PieceRead) : Prop where
  diagnostics : ∀ d ∈ read.diagnostics, s.Encloses d.span ∨
    d = r.unexpectedNext ts .tagName ∧ ∀ t ∈ ts.head?, t.kind = .templateClose
  piece : read.piece.LiesIn r s

section Pieces

variable {r : Reading} {source : String} {first : Token} {ts : List Token} {n : Nat} {s : Span}

/-- What is taken lies in its span `spanOf`. -/
theorem spanOf_encloses (h : TokensInRow source (first :: ts)) (hn : n ≤ ts.length) :
    ∀ t ∈ first :: ts.take n, (spanOf first ts n).Encloses t.span := by
  obtain ⟨a, b, hfirst, hlast, hplace⟩ := place_spanOf first hn
  obtain rfl : first = a := Option.some.inj hfirst
  have htaken : TokensInRow source (first :: ts.take n) :=
    h.sublist (.cons_cons first (List.take_sublist n ts))
  intro t ht
  rw [hplace]
  exact ⟨(htaken.start_le ht).1, htaken.le_stop hlast ht⟩

/-- A report that lies in the `spanOf` what is taken stands there, in the sense of the tokens of the
file. -/
theorem Diagnostic.standsIn_spanOf {d : Diagnostic}
    (hts : ∀ t ∈ first :: ts, t ∈ significantTokens source)
    (hn : n ≤ ts.length) (hle : d.span.start ≤ d.span.stop)
    (h : (spanOf first ts n).Encloses d.span) : d.StandsIn source (spanOf first ts n) := by
  obtain ⟨a, b, hfirst, hlast, hplace⟩ := place_spanOf first hn
  obtain rfl : first = a := Option.some.inj hfirst
  have hsub : (first :: ts.take n).Sublist (first :: ts) := .cons_cons first (List.take_sublist n ts)
  rw [hplace] at h ⊢
  exact .of_encloses hle (hts first (List.mem_cons_self ..))
    (hts b (hsub.subset (List.mem_of_getLast? hlast))) h

/-- The rest of a start tag takes nothing only in front of the closing tag, or at the end:
everything else is taken and reported by `TagBody.readFrom`. -/
theorem TagBody.head_of_taken (r : Reading) (done : TagBody) (hdone : done.terminator = none)
    (h : (TagBody.readFrom r done ts).taken = done.taken) :
    ∀ t ∈ ts.head?, t.kind = .templateClose := by
  intro t ht
  obtain ⟨ts, rfl⟩ := List.head?_eq_some_iff.mp ht
  by_contra hkind
  -- whatever else comes is taken
  have hmore : ∀ (done' : TagBody) us, done'.terminator = none → done.taken < done'.taken →
      (TagBody.readFrom r done' us).taken ≠ done.taken := by
    intro done' us hdone' hlt
    obtain ⟨k, -, -, -, htaken, -⟩ := TagBody.readFrom_tokens r done' us hdone'
    omega
  revert h
  rw [TagBody.readFrom.eq_def]
  dsimp only
  split
  · apply hmore
    · exact hdone
    · show done.taken < done.taken + 1 + _
      omega
  · exact fun h => absurd h (Nat.succ_ne_self _)
  · exact fun h => absurd h (Nat.succ_ne_self _)
  · rename_i hclose
    exact absurd hclose hkind
  · exact hmore _ _ hdone (Nat.lt_succ_self _)
  · exact hmore _ _ hdone (Nat.lt_succ_self _)

theorem readStartTag_liesIn (h : TokensInRow r.source (first :: ts))
    (hn : (readStartTag r first ts).taken ≤ ts.length) :
    (readStartTag r first ts).LiesIn r ts (spanOf first ts (readStartTag r first ts).taken) := by
  have hall := spanOf_encloses h hn
  -- the rest of the tag reports on its tokens
  have hbody : ∀ k (us : List Token), us <:+ ts →
      (∀ t ∈ us.take ((TagBody.readFrom r ⟨#[], none, k, #[]⟩ us).taken - k),
        (spanOf first ts (readStartTag r first ts).taken).Encloses t.span) →
      ∀ d ∈ (TagBody.readFrom r ⟨#[], none, k, #[]⟩ us).diagnostics.toList,
        (spanOf first ts (readStartTag r first ts).taken).Encloses d.span := by
    intro k us hus htaken
    obtain ⟨j, as, es, -, hj, -, hdiagnostics, htokens⟩ :=
      TagBody.readFrom_tokens r ⟨#[], none, k, #[]⟩ us rfl
    rw [hj, Nat.add_sub_cancel_left] at htaken
    rw [hdiagnostics]
    exact htokens.encloses (fun t ht => (h.tail.suffix hus).fits t (List.mem_of_mem_take ht)) htaken
  have hpiece : (readStartTag r first ts).piece.LiesIn r
      (spanOf first ts (readStartTag r first ts).taken) := by
    rcases readStartTag_cases r first ts with ⟨hpiece, -⟩ | ⟨_, _, _, _, _, -, -, -, -, hpiece, -⟩
    · rw [hpiece]
      trivial
    · rw [hpiece]
      dsimp only
      split <;> trivial
  refine ⟨?_, hpiece⟩
  have hunended : ∀ (c : Bool) text, ∀ d ∈ (if c then [(Problem.startTagWithoutEnd text).on
      (spanOf first ts (readStartTag r first ts).taken)] else []),
        (spanOf first ts (readStartTag r first ts).taken).Encloses d.span := fun c text =>
    forall_mem_ite (List.forall_mem_singleton.mpr (.refl _)) (List.forall_mem_nil _)
  revert hall hbody hunended
  unfold readStartTag
  rcases name_cases ts with ⟨hname, -⟩ | ⟨name, us, rfl, hname, -⟩
  · rw [hname]
    intro hall hbody hunended
    refine List.forall_mem_append.mpr ⟨List.forall_mem_append.mpr ⟨?_, fun d hd => ?_⟩,
      fun d hd => .inl (hunended _ _ d hd)⟩
    · refine List.forall_mem_singleton.mpr ?_
      by_cases htaken : (TagBody.readFrom r ⟨#[], none, 0, #[]⟩ ts).taken = 0
      · exact .inr ⟨rfl, TagBody.head_of_taken r ⟨#[], none, 0, #[]⟩ rfl htaken⟩
      · -- the token in place of the name is one of those that are taken
        obtain ⟨k, hk⟩ := Nat.exists_eq_succ_of_ne_zero htaken
        cases ts with
        | nil =>
          rw [TagBody.readFrom] at hk
          cases hk
        | cons t us =>
          refine .inl (hall t (List.mem_cons_of_mem _ ?_))
          show t ∈ (t :: us).take (TagBody.readFrom r ⟨#[], none, 0, #[]⟩ (t :: us)).taken
          rw [hk]
          exact List.mem_cons_self ..
    · exact .inl (hbody 0 ts (List.suffix_refl ts)
        (fun t ht => hall t (List.mem_cons_of_mem _ ht)) d hd)
  · rw [hname]
    intro hall hbody hunended
    refine List.forall_mem_append.mpr ⟨fun d hd => .inl ?_, fun d hd => .inl (hunended _ _ d hd)⟩
    refine hbody 1 us (List.suffix_cons name us) (fun t ht => hall t (List.mem_cons_of_mem _ ?_)) d hd
    -- the name is taken first
    obtain ⟨k, -, -, -, hk, -⟩ := TagBody.readFrom_tokens r ⟨#[], none, 1, #[]⟩ us rfl
    show t ∈ (name :: us).take (TagBody.readFrom r ⟨#[], none, 1, #[]⟩ us).taken
    rw [hk, Nat.add_sub_cancel_left] at ht
    rw [hk, Nat.add_comm]
    exact List.mem_cons_of_mem _ ht

theorem readEndTag_liesIn (h : TokensInRow r.source (first :: ts))
    (hn : (readEndTag r first ts).taken ≤ ts.length) :
    (readEndTag r first ts).LiesIn r ts (spanOf first ts (readEndTag r first ts).taken) := by
  have hall := spanOf_encloses h hn
  let skip := if (ts.head?.filter (·.kind == .tagName)).isNone then 0 else 1
  let stray := strayInEndTag r (ts.drop skip)
  let closed := (ts.drop (skip + stray.1)).head?.any (·.kind == .tagClose)
  let n := skip + stray.1 + (if closed then 1 else 0)
  have htaken : (readEndTag r first ts).taken = n := by
    unfold readEndTag
    dsimp only
    split <;> rfl
  rw [htaken] at hall ⊢
  have hreports : ∀ d ∈ stray.2 ++ (if closed then [] else [Problem.endTagWithoutEnd.on
      (spanOf first ts n)]), (spanOf first ts n).Encloses d.span := by
    -- a stray token is one of those taken, behind the name
    refine List.forall_mem_append.mpr ⟨strayInEndTag_encloses _ fun t ht => hall t ?_, ?_⟩
    · apply List.mem_cons_of_mem
      show t ∈ ts.take (skip + stray.1 + _)
      rw [List.take_add, List.take_add]
      exact List.mem_append_left _ (List.mem_append_right _ ht)
    · exact forall_mem_ite (List.forall_mem_nil _) (List.forall_mem_singleton.mpr (.refl _))
  unfold readEndTag
  dsimp only
  split
  · refine ⟨fun d hd => .inl ?_, trivial⟩
    rcases List.mem_append.mp hd with hd | hd
    · exact hreports d hd
    · rw [List.mem_singleton.mp hd]
      exact .refl _
  · exact ⟨fun d hd => .inl (hreports d hd), .refl _⟩

end Pieces

/-! ### Braces

The run of braces is `Around`: it stands behind the opening braces and in front of what ends it. -/

/-- The run of the braces stands between them, as a row of tokens. -/
structure Braces.Around (r : Reading) (b : Braces) : Prop where
  row : TokensInRow r.source b.run
  run : ∀ t ∈ b.run, b.span.Encloses t.span

section Braces

variable {r : Reading} {first : Token} {ts : List Token} {skip : Nat} {b : Braces} {run : List Token}
  {s : Span}

theorem Braces.around_read (h : TokensInRow r.source (first :: ts)) (hskip : skip ≤ ts.length)
    (hn : (Braces.read first ts skip).taken ≤ ts.length) :
    (Braces.read first ts skip).Around r := by
  obtain ⟨back, htokens, -⟩ := Braces.tokens first hskip
  refine ⟨h.tail.sublist ((List.takeWhile_sublist _).trans (List.drop_sublist skip ts)),
    fun t ht => spanOf_encloses h hn t (List.mem_cons_of_mem _ ?_)⟩
  rw [htokens]
  exact List.mem_append_left _ (List.mem_append_right _ ht)

theorem Braces.unclosed_encloses (b : Braces) : ∀ d ∈ b.unclosed, b.span.Encloses d.span :=
  forall_mem_ite (List.forall_mem_nil _) (List.forall_mem_singleton.mpr (.refl _))

/-- What `readLoopHead` reports speaks of its run, or of a part of it. -/
theorem readLoopHead_encloses (h : TokensInRow r.source run) (hrun : ∀ t ∈ run, s.Encloses t.span) :
    ∀ d ∈ (readLoopHead r run).2.1, s.Encloses d.span ∧ d.kind = .unexpectedToken := by
  have hunbound : ∀ d ∈ (readLoopHead.unbound r run).2.1,
      s.Encloses d.span ∧ d.kind = .unexpectedToken := by
    refine List.forall_mem_append.mpr ⟨fun d hd => ⟨Problem.onRun?_encloses hrun d hd, ?_⟩,
      Expression.ofRun?_encloses h hrun false⟩
    obtain ⟨s', -, rfl⟩ := Option.map_eq_some_iff.mp (Option.mem_toList.mp hd)
    rfl
  have hlist := List.takeWhile_sublist (l := run) (·.kind != .asWord)
  unfold readLoopHead
  dsimp only
  split
  · split
    · exact hunbound
    · exact Expression.ofRun?_encloses (h.sublist hlist) (fun t ht => hrun t (hlist.subset ht)) true
  · exact hunbound

theorem branchExpression_encloses {word : BranchWord} {span : Span} (h : TokensInRow r.source run)
    (hrun : ∀ t ∈ run, span.Encloses t.span) :
    ∀ d ∈ (Builder.branchExpression r word run span).2, span.Encloses d.span := by
  cases word with
  | elseBranch => exact Problem.onRun?_encloses hrun
  | elseIf =>
    refine List.forall_mem_append.mpr ⟨fun d hd => (Expression.ofRun?_encloses h hrun true d hd).1, ?_⟩
    exact forall_mem_ite (List.forall_mem_singleton.mpr (.refl _)) (List.forall_mem_nil _)

theorem readInterpolation_liesIn (raw : Bool) (h : (Braces.read first ts skip).Around r) :
    (readInterpolation r first ts skip raw).LiesIn r ts (Braces.read first ts skip).span := by
  refine ⟨fun d hd => .inl ?_, trivial⟩
  refine List.forall_mem_append.mpr ⟨List.forall_mem_append.mpr ⟨Braces.unclosed_encloses _,
    fun d hd => (Expression.ofRun?_encloses h.row h.run true d hd).1⟩, ?_⟩ d hd
  exact forall_mem_ite (List.forall_mem_singleton.mpr (.refl _)) (List.forall_mem_nil _)

theorem readOpener_liesIn (keyword : TokenKind) (kind : DirectiveKind)
    (h : (Braces.read first ts 1).Around r) :
    (readOpener r first ts keyword kind).LiesIn r ts (Braces.read first ts 1).span := by
  have hmissing : ∀ c : Bool, ∀ d ∈ (if c then [(Problem.directiveWithoutExpression kind).on
      (Braces.read first ts 1).span] else []), (Braces.read first ts 1).span.Encloses d.span := fun c =>
    forall_mem_ite (List.forall_mem_singleton.mpr (.refl _)) (List.forall_mem_nil _)
  refine ⟨fun d hd => .inl ?_, trivial⟩
  revert d
  cases kind with
  | choice =>
    exact List.forall_mem_append.mpr ⟨List.forall_mem_append.mpr
      ⟨fun d hd => (Expression.ofRun?_encloses h.row h.run true d hd).1, Braces.unclosed_encloses _⟩,
      hmissing _⟩
  | loop =>
    exact List.forall_mem_append.mpr ⟨List.forall_mem_append.mpr
      ⟨fun d hd => (readLoopHead_encloses h.row h.run d hd).1, Braces.unclosed_encloses _⟩,
      hmissing _⟩

theorem readBranch_liesIn (word : BranchWord) (h : (Braces.read first ts 1).Around r) :
    (readBranch first ts word).LiesIn r ts (Braces.read first ts 1).span :=
  ⟨fun d hd => .inl (Braces.unclosed_encloses _ d hd), .refl _, branchExpression_encloses h.row h.run⟩

theorem readCloser_liesIn (kind : DirectiveKind) (h : (Braces.read first ts 1).Around r) :
    (readCloser first ts kind).LiesIn r ts (Braces.read first ts 1).span :=
  ⟨fun d hd => .inl (List.forall_mem_append.mpr
    ⟨Braces.unclosed_encloses _, Problem.onRun?_encloses h.run⟩ d hd), .refl _⟩

theorem readBraces_liesIn (h : TokensInRow r.source (first :: ts))
    (hn : (readBraces r first ts).taken ≤ ts.length) :
    (readBraces r first ts).LiesIn r ts (spanOf first ts (readBraces r first ts).taken) := by
  -- a keyword is one of the tokens
  have hone : ∀ {k : TokenKind}, ts.head?.map Token.kind = some k →
      (Braces.read first ts 1).taken ≤ ts.length → (Braces.read first ts 1).Around r := by
    intro k hk
    cases ts with
    | nil => cases hk
    | cons word us => exact Braces.around_read h (Nat.le_add_left 1 us.length)
  revert hn
  unfold readBraces
  split
  · rename_i hk
    exact fun hn => readOpener_liesIn .ifBlock .choice (hone hk hn)
  · rename_i hk
    exact fun hn => readOpener_liesIn .eachBlock .loop (hone hk hn)
  · rename_i hk
    exact fun hn => readBranch_liesIn .elseIf (hone hk hn)
  · rename_i hk
    exact fun hn => readBranch_liesIn .elseBranch (hone hk hn)
  · rename_i hk
    exact fun hn => readCloser_liesIn .choice (hone hk hn)
  · rename_i hk
    exact fun hn => readCloser_liesIn .loop (hone hk hn)
  · rename_i hk
    exact fun hn => readInterpolation_liesIn true (hone hk hn)
  · exact fun hn => readInterpolation_liesIn false (Braces.around_read h (Nat.zero_le _) hn)

end Braces

/-! ### Reports on a piece

What a piece reports itself and what is reported when it is added are two lists, and both stand in
it. -/

section Pieces

variable {r : Reading} {first : Token} {ts : List Token}

theorem Piece.read_liesIn (r : Reading) (h : TokensInRow r.source (first :: ts))
    (hn : (Piece.read r first ts).taken ≤ ts.length) :
    (Piece.read r first ts).LiesIn r ts (spanOf first ts (Piece.read r first ts).taken) := by
  revert hn
  unfold Piece.read
  split
  · exact readStartTag_liesIn h
  · exact readEndTag_liesIn h
  · exact fun _ => ⟨List.forall_mem_nil _, trivial⟩
  · exact fun _ => ⟨List.forall_mem_nil _, trivial⟩
  · exact readBraces_liesIn h
  · exact fun _ => ⟨List.forall_mem_nil _, trivial⟩
  · exact fun _ => ⟨List.forall_mem_singleton.mpr (.inl (.refl first.span)), trivial⟩

/-- **Reports stand in their piece.** What `Piece.read` reports meets no token of the file but those
that the piece takes, and closing tags. -/
theorem Piece.read_stands (htrace : Trace .template (first :: ts)) (hfirst : first.kind ≠ .templateClose)
    (hsuffix : first :: ts <:+ significantTokens r.source) :
    ∀ d ∈ (Piece.read r first ts).diagnostics,
      d.StandsIn r.source (spanOf first ts (Piece.read r first ts).taken) := by
  have hn := (Piece.read_stops r htrace hfirst).1
  have hrow := (tokensInRow_significantTokens r.source).suffix hsuffix
  have hmade := Piece.read_made htrace hfirst (fun t ht => hsuffix.subset ht) hrow
  intro d hd
  rcases (Piece.read_liesIn r hrow hn).diagnostics d hd with hencloses | ⟨rfl, hclose⟩
  · exact Diagnostic.standsIn_spanOf (fun t ht => hsuffix.subset ht) hn
      (hmade.diagnostics d hd).fits.le hencloses
  · cases ts with
    | nil => exact .of_end rfl
    | cons t us =>
      exact .of_close (hsuffix.subset (List.mem_cons_of_mem _ (List.mem_cons_self ..)))
        (hclose t rfl) rfl

end Pieces

theorem Forest.neverClosed_others (f : Forest) (n : Nat) :
    ∀ d ∈ f.neverClosed n, d.isOfTokens = false := by
  intro d hd
  obtain ⟨frame, -, rfl⟩ := List.mem_map.mp hd
  cases frame <;> rfl

/-- What is reported where a forest `Adds` a piece lies in the piece, or speaks of frames that are
left open. -/
theorem Forest.Adds.encloses {r : Reading} {f f' : Forest} {piece : Piece} {ds : List Diagnostic}
    {s : Span} (h : f.Adds r piece f' ds) (hplaced : piece.Placed r) (hpiece : piece.LiesIn r s) :
    ∀ d ∈ ds, d.isOfTokens = false ∨ d.span.Fits r.source ∧ s.Encloses d.span := by
  have hframes : ∀ n, ∀ d ∈ f.neverClosed n,
      d.isOfTokens = false ∨ d.span.Fits r.source ∧ s.Encloses d.span :=
    fun n d hd => .inl (f.neverClosed_others n d hd)
  cases h with
  | node | startTag | opener | closer => exact List.forall_mem_nil _
  | endTag => exact hframes _
  | strayEndTag => exact List.forall_mem_singleton.mpr (.inr ⟨hplaced, hpiece⟩)
  | branch => exact fun d hd => .inr ⟨(hplaced.2 d hd).fits, hpiece.2 d hd⟩
  | strayBranch => exact List.forall_mem_singleton.mpr (.inr ⟨hplaced.1, hpiece.1⟩)
  | closerOver => exact List.forall_mem_cons.mpr ⟨.inr ⟨hplaced, hpiece⟩, hframes _⟩
  | strayCloser => exact List.forall_mem_singleton.mpr (.inr ⟨hplaced, hpiece⟩)

/-! ### The loops

A token is taken by one step of the loop over pieces, so all that is reported on it comes from this
step. -/

namespace Builder

variable {r : Reading} {p₀ p : Progress} {ts₀ ts : List Token} {t : Token} {a b : Nat}

/-- One more piece: what `Builder.add` reports stands on the tokens of the piece. -/
theorem add_stands (builder : Builder) (htrace : Trace .template (t :: ts))
    (ht : t.kind ≠ .templateClose) (hspaced : Spaced r.source a ((t :: ts).map Token.span) b)
    (hsuffix : t :: ts <:+ significantTokens r.source) :
    ∃ ds, builder.forest.Adds r (Piece.read r t ts).piece (builder.add r (Piece.read r t ts)).forest ds ∧
      (builder.add r (Piece.read r t ts)).notes.findings = builder.notes.findings.recordAll r.source
        ((Piece.read r t ts).diagnostics ++ ds) ∧
      Diagnostic.AllStandIn r.source (spanOf t ts (Piece.read r t ts).taken)
        ((Piece.read r t ts).diagnostics ++ ds) := by
  obtain ⟨ds, hadds, hfindings⟩ := add_read r builder htrace ht hspaced
  have hn := (Piece.read_stops r htrace ht).1
  have hrow := (tokensInRow_significantTokens r.source).suffix hsuffix
  have hmade := Piece.read_made htrace ht (fun u hu => hsuffix.subset hu) hrow
  refine ⟨ds, hadds, hfindings, .append (fun d hd _ => Piece.read_stands htrace ht hsuffix d hd) ?_⟩
  intro d hd hkind
  rcases hadds.encloses hmade.placed (Piece.read_liesIn r hrow hn).piece d hd with hother | ⟨hfits, hin⟩
  · rw [hkind] at hother
    cases hother
  · exact Diagnostic.standsIn_spanOf (fun u hu => hsuffix.subset hu) hn hfits.le hin

/-- What the loop over pieces reports of tokens stands on those that it takes, from one top to
another that it `Reaches`. -/
theorem Reaches.stands (h : Reaches r p₀ ts₀ p ts) (h₀ : Trace .template ts₀)
    (hspaced : Spaced r.source p₀.stop (ts₀.map Token.span) b)
    (hsuffix : ts₀ <:+ significantTokens r.source) :
    p₀.stop ≤ p.stop ∧ ∃ es,
      p.builder.notes.findings = p₀.builder.notes.findings.recordAll r.source es ∧
      Diagnostic.AllStandIn r.source ⟨p₀.stop, p.stop⟩ es := by
  induction h with
  | start => exact ⟨Nat.le_refl _, [], rfl, .nil⟩
  | @piece p t ts h ht ih =>
    obtain ⟨hle, es, hfindings, hes⟩ := ih
    have htrace := h.trace h₀
    -- the piece at `t` adds what it reports to what was reported before it
    have hhere := h.spaced h₀ hspaced
    have hrest := h.suffix.trans hsuffix
    have hgap := hhere.ordered.1
    have hend : t.span.start ≤ endOf t ts (Piece.read r t ts).taken :=
      ((tokensInRow_significantTokens r.source).suffix hrest).start_le_endOf _
    obtain ⟨ds, -, hmore, hds⟩ := add_stands p.builder htrace ht hhere hrest
    refine ⟨?_, es ++ ((Piece.read r t ts).diagnostics ++ ds), ?_, ?_⟩
    · show p₀.stop ≤ endOf t ts _
      omega
    · rw [hmore, hfindings]
      exact List.foldl_append.symm
    · refine .append (hes.mono ⟨Nat.le_refl _, ?_⟩) (hds.mono ⟨?_, Nat.le_refl (endOf t ts _)⟩)
      · show p.stop ≤ endOf t ts _
        omega
      · show p₀.stop ≤ t.span.start
        omega

end Builder

namespace Document

open Diagnostic (AllStandIn)

variable {r : Reading} {notes : Notes} {opening : Token} {ts : List Token} {b : Nat} {s : Span}
  {kind : SectionKind}

theorem openTagProblem_others (r : Reading) (opening : Token) :
    ∀ d ∈ openTagProblem r opening, d.isOfTokens = false :=
  forall_mem_ite (List.forall_mem_nil _) (List.forall_mem_singleton.mpr rfl)

theorem unclosedProblem_others (kind : SectionKind) (opening : Token) (closing : Option Span) :
    ∀ d ∈ unclosedProblem kind opening closing, d.isOfTokens = false :=
  forall_mem_ite (List.forall_mem_nil _) (List.forall_mem_singleton.mpr rfl)

theorem duplicateProblem_others (done : Array Section) (kind : SectionKind) (opening : Token) :
    ∀ d ∈ duplicateProblem done kind opening, d.isOfTokens = false :=
  forall_mem_ite (List.forall_mem_singleton.mpr rfl) (List.forall_mem_nil _)

/-- `readSection` reports on no tokens but its own: what is not among the reports of its delimiters
comes from its pieces, and stands in these. -/
theorem readSection_stands (notes : Notes) (htrace : Trace kind.mode ts)
    (hspaced : Spaced r.source opening.span.stop (ts.map Token.span) b)
    (hsuffix : opening :: ts <:+ significantTokens r.source) :
    ∃ es, (readSection r notes kind opening ts).notes.findings
        = notes.findings.recordAll r.source es ∧
      AllStandIn r.source (readSection r notes kind opening ts).content.span es := by
  by_cases hkind : kind = .template
  · subst hkind
    obtain ⟨p, k, hread⟩ := exists_readsTemplate r notes opening htrace hspaced
    obtain ⟨-, es, hfindings, hes⟩ := hread.reaches.stands htrace hspaced
      ((List.suffix_cons opening ts).trans hsuffix)
    obtain ⟨hstop, hend⟩ := hread.stop_le htrace hspaced
    have hopening := ((fits_significantTokens r.source opening
      (hsuffix.subset (List.mem_cons_self ..))).le)
    refine ⟨openTagProblem r opening ++ (es
      ++ (p.builder.forest.neverClosed p.builder.forest.frames.length
        ++ unclosedProblem .template opening (readTemplate r notes opening ts).content.closing)), ?_, ?_⟩
    · show (readTemplate r notes opening ts).notes.findings = _
      rw [hread.findings, hfindings]
      show Findings.recordAll _ (Findings.recordAll _ (Findings.recordAll _ notes.findings _) _) _ = _
      simp only [Findings.recordAll, List.foldl_append]
    · refine .append (.of_others (openTagProblem_others r opening)) (.append (hes.mono ?_)
        (.append (.of_others (Forest.neverClosed_others _ _))
          (.of_others (unclosedProblem_others _ _ _))))
      refine ⟨?_, Nat.le_trans hstop hend⟩
      show (readTemplate r notes opening ts).content.span.start ≤ opening.span.stop
      rw [hread.span]
      exact hopening
  · -- code is reported on as a whole
    have hcode : (readSection r notes kind opening ts).notes
        = (readCode r notes kind opening ts).notes := by
      cases kind with
      | template => exact absurd rfl hkind
      | _ => rfl
    refine ⟨_, congrArg Notes.findings hcode, .of_others ?_⟩
    refine List.forall_mem_append.mpr ⟨?_, unclosedProblem_others _ _ _⟩
    exact forall_mem_ite (List.forall_mem_nil _) (openTagProblem_others r opening)

end Document

end RsxInspect
