import RsxInspect.Proofs.Scan.Literal
import RsxInspect.Proofs.Scan.Sections
import RsxInspect.Proofs.Template.Ordered
import RsxInspect.Proofs.Text.Slice

/-!
# Braces in attribute values

The text between the braces of an attribute value is scanned on its own. That scan is the scan of a
range of the file (`exists_inner`): it starts behind the opening braces and ends in front of the
closing ones, or at the end of the value if these are missing. `Token.Inner` is what is known of the
range: where it stands (`inWindow`), and that its tokens fit the source and follow each other
(`fits`, `ordered`).

Closing braces do not stand in it, since the value ends with the first ones
(`Token.Inner.closeBraces_not_mem_value`); so what is not part of an expression there is a bad
character, or the tag that closes the template (`valueTokens_cases`).
-/

namespace RsxInspect

open String (utf8Len)

/-- The mark is at the end of the text, as a list. -/
theorem endsWith_iff {mark text : List Char} : endsWith mark text = true ↔ mark <:+ text := by
  rw [endsWith, List.isPrefixOf_iff_prefix, List.reverse_prefix]

/-- A token that is read inside of a window `Fits` the source, whatever the mode of the scanner. -/
theorem Scanner.InWindow.fits_next {source : String} {stop : Nat} {s : Scanner}
    (h : s.InWindow source stop) : s.next.1.span.Fits source := by
  rw [h.span_next]
  exact .of_boundaries h.isBoundary_offset h.next.isBoundary_offset h.offset_le_next

/-- The tokens of a run that goes on inside of a window fit the source, by induction on
`Scanner.Reads`. -/
theorem Scanner.Reads.fits {source : String} {stop : Nat} {s s' : Scanner} {ts : List Token}
    (h : Reads s ts s') (hwindow : s.InWindow source stop) : ∀ t ∈ ts, t.span.Fits source := by
  induction h with
  | done s => exact fun t ht => (nomatch ht)
  | step hmove _ ih =>
    intro t ht
    rcases List.mem_cons.mp ht with rfl | ht
    · exact hwindow.fits_next
    · exact ih hwindow.next t ht

/-- The tokens of a file fit it. -/
theorem fits_significantTokens (source : String) :
    ∀ t ∈ significantTokens source, t.span.Fits source := by
  intro t ht
  have hwindow := Scanner.inWindow_ofRange source 0 source.utf8ByteSize .initial
  exact (Scanner.ofSource source).reads_toEnd.fits hwindow t (List.mem_of_mem_filter ht)

/-- Where the text between the braces of an attribute value stands, in a token that starts with
braces: two bytes behind its start, and as many in front of its end if it is closed. -/
def Token.valueRange (t : Token) (source : String) : Span :=
  let closed := endsWith Delimiter.closeBraces
    ((t.text source).toList.drop Delimiter.openBraces.length)
  ⟨t.span.start + Delimiter.openBraces.length,
    if closed then t.span.stop - Delimiter.closeBraces.length else t.span.stop⟩

/-- The tokens of a run follow each other, as long as none of them is empty. -/
theorem Scanner.Reads.ordered {s s' : Scanner} {ts : List Token} (h : Reads s ts s') :
    Span.Ordered s.offset (ts.map Token.span) s'.offset := by
  induction h with
  | done s => exact Nat.le_refl _
  | step hmove _ ih =>
    refine ⟨Nat.le_of_eq (span_next_start _).symm, ?_, ?_⟩
    · rw [span_next_start, span_next_stop]
      exact hmove
    · rw [span_next_stop]
      exact ih

section Value

variable {r : Reading} {t : Token}

/-- The text between the braces of a value, as a part of the source: what is in front of it, the
text, and what is behind it make up the source, and `valueRange` is the place of the middle one. -/
structure Token.Inner (r : Reading) (t : Token) (done inner beyond : List Char) : Prop where
  source : r.source.toList = done ++ inner ++ beyond
  start : utf8Len done = t.span.start + 2
  stop : utf8Len (done ++ inner) ≤ t.span.stop
  range : t.valueRange r.source = ⟨utf8Len done, utf8Len (done ++ inner)⟩
  text : ∃ back, (r.textOf t).toList = Delimiter.openBraces ++ inner ++ back ∧
    (back = Delimiter.closeBraces ∨ back = [] ∧ ¬ endsWith Delimiter.closeBraces inner = true)
  scanner : valueScanner r.source t = ⟨⟨utf8Len done, none, inner⟩, .interpolation⟩

/-- **Braces in attribute values.** What stands between them is a range of the source, and this
range is what is scanned again (`valueScanner`). -/
theorem exists_inner (hfits : t.span.Fits r.source)
    (hbraces : Delimiter.openBraces.isPrefixOf (r.textOf t).toList = true) :
    ∃ done inner beyond, t.Inner r done inner beyond := by
  obtain ⟨before, inside, behind, hsource, hspan, htext⟩ := hfits.exists_split
  have hchars : (r.textOf t).toList = inside := by
    show (t.span.text r.source).toList = inside
    rw [htext, String.toList_ofList]
  rw [hchars] at hbraces
  obtain ⟨inner, rfl⟩ := List.isPrefixOf_iff_prefix.mp hbraces
  have hopen : utf8Len Delimiter.openBraces = 2 := by decide
  have hclose : utf8Len Delimiter.closeBraces = 2 := by decide
  have hdrop : (t.text r.source).toList.drop Delimiter.openBraces.length = inner := by
    show (r.textOf t).toList.drop _ = inner
    rw [hchars, List.drop_left]
  have hstart : utf8Len (before ++ Delimiter.openBraces) = t.span.start + 2 := by
    rw [hspan, String.utf8Len_append, hopen]
  have hstop : utf8Len (before ++ Delimiter.openBraces ++ inner) = t.span.stop := by
    rw [hspan, List.append_assoc]
  have hrange : t.valueRange r.source = ⟨t.span.start + 2,
      if endsWith Delimiter.closeBraces inner then t.span.stop - 2 else t.span.stop⟩ := by
    rw [Token.valueRange, hdrop]
    rfl
  -- closed, the value ends two characters before its token does; open, where the token does
  by_cases hclosed : endsWith Delimiter.closeBraces inner = true
  · obtain ⟨cs, rfl⟩ := endsWith_iff.mp hclosed
    rw [← List.append_assoc, String.utf8Len_append, hclose] at hstop
    refine ⟨before ++ Delimiter.openBraces, cs, Delimiter.closeBraces ++ behind, ?_, hstart,
      by omega, ?_, ⟨Delimiter.closeBraces, ?_, .inl rfl⟩, ?_⟩
    · rw [hsource]
      simp only [List.append_assoc]
    · rw [hrange, if_pos hclosed, hstart, ← hstop, Nat.add_sub_cancel]
    · rw [hchars, List.append_assoc]
    · rw [valueScanner, hstart]
      simp only [hdrop, hclosed, if_true, List.length_append, Nat.add_sub_cancel_right,
        List.take_left]
      rfl
  · refine ⟨before ++ Delimiter.openBraces, inner, behind, ?_, hstart, Nat.le_of_eq hstop, ?_,
      ⟨[], ?_, .inr ⟨rfl, hclosed⟩⟩, ?_⟩
    · rw [hsource]
      simp only [List.append_assoc]
    · rw [hrange, if_neg hclosed, hstart, hstop]
    · rw [hchars, List.append_nil]
    · rw [valueScanner, hstart]
      simp only [hdrop, if_neg hclosed]
      rfl

namespace Token.Inner

variable {done inner beyond : List Char}

/-- The scan of a value goes along with that of the range (`Scanner.Along`): what stands in front of
it does not count in an expression. -/
theorem along (h : t.Inner r done inner beyond) :
    (valueScanner r.source t).Along 0 (.behind done inner .interpolation) := by
  rw [h.scanner]
  exact ⟨rfl, rfl, .refl _, fun hmode => (nomatch hmode)⟩

/-- `valueTokens`, the tokens between the braces of a value, are those of a scan of the range, moved
to their places. -/
theorem tokens (h : t.Inner r done inner beyond) :
    (valueTokens r t).1
      = significant (Scanner.behind done inner .interpolation).toEnd.1.toList := by
  have htokens := h.along.toEnd.1
  rw [Token.moved_zero, Array.map_id] at htokens
  rw [valueTokens, htokens]
  rfl

/-- The range is the window of a scanner, in the sense of `InWindow`. -/
theorem inWindow (h : t.Inner r done inner beyond) :
    (Scanner.behind done inner .interpolation).InWindow r.source (utf8Len done + utf8Len inner) :=
  ⟨done, inner, beyond, h.source, rfl, rfl⟩

/-- All of `valueTokens` fit the source. -/
theorem fits (h : t.Inner r done inner beyond) :
    ∀ u ∈ (valueTokens r t).1, u.span.Fits r.source := by
  intro u hu
  rw [h.tokens] at hu
  exact (Scanner.reads_toEnd _).fits h.inWindow u (List.mem_of_mem_filter hu)

/-- Whatever the `valueScanner` reads fits the source, however often it is asked for a token: also
behind a closing tag, and where it stands still. -/
theorem fits_tokenAt (h : t.Inner r done inner beyond) (k : Nat) :
    ((valueScanner r.source t).tokenAt k).span.Fits r.source := by
  rw [h.along.tokenAt, Token.moved_zero]
  exact (h.inWindow.after k).fits_next

/-- The `valueTokens` follow each other behind the opening ones, so two bytes behind the start of
the value. -/
theorem ordered (h : t.Inner r done inner beyond) :
    Span.Ordered (t.span.start + 2) ((valueTokens r t).1.map Token.span) t.span.stop := by
  have hreads := (Scanner.behind done inner .interpolation).reads_toEnd
  obtain ⟨mid, rest, hinner, hend⟩ := hreads.exists_behind
  have hall := hreads.ordered
  rw [Scanner.behind_offset, hend, Scanner.behind_offset, h.start] at hall
  rw [h.tokens]
  refine (hall.sublist ?_).mono ?_
  · exact (List.filter_sublist ..).map Token.span
  · have hle : utf8Len (done ++ mid) ≤ utf8Len (done ++ inner) := by
      rw [hinner, ← List.append_assoc, String.utf8Len_append _ rest]
      exact Nat.le_add_right _ _
    exact Nat.le_trans hle h.stop

end Token.Inner

/-! ### What stands between the braces

The scan of the file ended the value at the first `}}`, so the scan of the range meets none. -/

/-- Up to the first place of a mark (`indexOf?`) the mark does not stand. -/
theorem Text.not_infix_take {mark cs : List Char} {k j : Nat} (hmark : mark ≠ [])
    (h : indexOf? mark cs = some k) (hj : j < k + mark.length) : ¬ mark <:+: cs.take j := by
  rintro ⟨front, back, hsplit⟩
  obtain ⟨-, hfirst⟩ := (indexOf?_eq_some_iff hmark).mp h
  have hlength := congrArg List.length hsplit
  rw [List.length_append, List.length_append, List.length_take] at hlength
  refine hfirst front.length (by omega) ⟨back ++ cs.drop j, ?_⟩
  have hcs : cs = front ++ (mark ++ (back ++ cs.drop j)) := by
    conv => lhs; rw [← List.take_append_drop j cs, ← hsplit]
    simp only [List.append_assoc]
  conv => rhs; rw [hcs, List.drop_left]

theorem Text.not_infix_of_none {mark cs : List Char} (hmark : mark ≠ [])
    (h : indexOf? mark cs = none) : ¬ mark <:+: cs := by
  rintro ⟨front, back, hsplit⟩
  refine (indexOf?_eq_none_iff hmark).mp h front.length ⟨back, ?_⟩
  rw [← hsplit, List.append_assoc, List.drop_left]

/-- A construct that runs past its mark ends with the first one, or takes all if there is none. -/
theorem Text.take_past_cases {mark : List Char} (hmark : mark ≠ []) (cs : List Char) :
    (∃ front, cs.take (past mark cs).length = front ++ mark ∧ ¬ mark <:+: front) ∨
      cs.take (past mark cs).length = cs ∧ ¬ mark <:+: cs := by
  unfold past
  cases hindex : indexOf? mark cs with
  | none => exact .inr ⟨List.take_length, not_infix_of_none hmark hindex⟩
  | some k =>
    obtain ⟨⟨beyond, hstands⟩, -⟩ := (indexOf?_eq_some_iff hmark).mp hindex
    refine .inl ⟨cs.take k, ?_, not_infix_take hmark hindex ?_⟩
    · rw [List.take_add, ← hstands, List.take_left]
    · exact Nat.lt_add_of_pos_right (List.length_pos_iff.mpr hmark)

/-- Without an equals sign in front, only quoted values are read (`Lexeme.inStartTag`). -/
theorem Lexeme.isQuote_of_looseValue {last : Option TokenKind} {cs : List Char} :
    (inStartTag last cs).kind = .attrValue → cs.head?.any isQuote = true := by
  unfold inStartTag templateCloseOr blanksOr
  repeat' split
  all_goals first
    | exact fun _ => ‹isQuote _ = true›
    | (intro h; cases h)

/-- The length of a value with braces, in terms of the first closing ones. -/
theorem Lexeme.length_inAttributeValue_braces {last : Option TokenKind} {rest : List Char} :
    let cs := '\x7b' :: '\x7b' :: rest
    (inAttributeValue last cs).kind = .attrValue →
      (inAttributeValue last cs).length = (Text.past Delimiter.closeBraces cs).length := by
  intro cs
  have hquote : ¬ isQuote '\x7b' = true := by decide
  have hleads : Delimiter.openBraces.isPrefixOf cs = true := rfl
  unfold cs inAttributeValue templateCloseOr blanksOr
  dsimp only
  rw [if_neg hquote, if_pos hleads]
  repeat' split
  all_goals first
    | exact fun _ => rfl
    | (intro h; cases h)

/-- A value that starts with braces runs past the first closing ones, in whatever mode it is
read. -/
theorem Lexeme.length_of_bracedValue {state : LexState} {before : Option Char} {cs : List Char}
    (hcs : cs ≠ []) (hkind : (lex state before cs).kind = .attrValue)
    (hbraces : Delimiter.openBraces <+: cs) :
    (lex state before cs).length = (Text.past Delimiter.closeBraces cs).length := by
  have hstep := lex_transition state before hcs
  obtain ⟨mode, last⟩ := state
  rw [hkind] at hstep
  generalize (lex ⟨mode, last⟩ before cs).mode = n at hstep
  cases hstep with
  | expression h | plainExpression h | keyword h => exact absurd h (by decide)
  | value =>
    obtain ⟨rest, rfl⟩ := hbraces
    exact length_inAttributeValue_braces hkind
  | looseValue =>
    -- braces are no quote
    obtain ⟨rest, rfl⟩ := hbraces
    have hquote : isQuote '\x7b' = true := isQuote_of_looseValue hkind
    exact absurd hquote (by decide)

/-- The lexeme is that of closing braces which stand ahead, and takes just these. -/
structure Lexeme.TakesClose (cs : List Char) (x : Lexeme) : Prop where
  stands : Delimiter.closeBraces <+: cs
  length : x.length = Delimiter.closeBraces.length

/-- Closing braces end an expression exactly where they stand, since no other rule of `inExpression`
gives this kind. -/
theorem Lexeme.inExpression_of_close {cs : List Char} :
    (inExpression cs).kind = .interpolationClose → TakesClose cs (inExpression cs) := by
  have hoperator : ∀ p ∈ Vocabulary.operators, p.2 ≠ .interpolationClose := by decide
  have hword : ∀ word, (Vocabulary.expressionKeyword? word).getD .identifier
      ≠ .interpolationClose := by
    intro word
    unfold Vocabulary.expressionKeyword?
    repeat' split
    all_goals decide
  unfold inExpression templateCloseOr blanksOr
  repeat' split
  all_goals first
    | exact fun _ => ⟨List.isPrefixOf_iff_prefix.mp ‹_›, rfl⟩
    | exact fun h => absurd h (hoperator _ (List.mem_of_find?_eq_some ‹_›))
    | exact fun h => absurd h (hword _)
    | (intro h; cases h)

theorem Lexeme.inDirective_of_close {cs : List Char} :
    (inDirective cs).kind = .interpolationClose → TakesClose cs (inDirective cs) := by
  have hkeyword : ∀ p ∈ Vocabulary.directiveKeywords, p.2 ≠ .interpolationClose := by decide
  unfold inDirective templateCloseOr blanksOr
  repeat' split
  all_goals first
    | exact fun _ => ⟨List.isPrefixOf_iff_prefix.mp ‹_›, rfl⟩
    | exact inExpression_of_close
    | exact fun h => absurd h (hkeyword _ (List.mem_of_find?_eq_some ‹_›))
    | (intro h; cases h)

/-- A lexeme of closing braces `TakesClose`: they are read where they stand, in every mode that
reads them. -/
theorem Lexeme.closeBraces_of_kind {state : LexState} {before : Option Char} {cs : List Char}
    (hcs : cs ≠ []) (hkind : (lex state before cs).kind = .interpolationClose) :
    TakesClose cs (lex state before cs) := by
  have hstep := lex_transition state before hcs
  obtain ⟨mode, last⟩ := state
  rw [hkind] at hstep
  generalize (lex ⟨mode, last⟩ before cs).mode = n at hstep
  cases hstep with
  | expressionEnd => exact inExpression_of_close hkind
  | directiveEnd => exact inDirective_of_close hkind
  | expression h | plainExpression h | keyword h => exact absurd h (by decide)

/-- The tokens of a run are read where they stand: for each of them there is a call, at its start,
that reads it. -/
theorem Scanner.Reads.exists_place {done rest : List Char} {state : LexState} {ts : List Token}
    {s' : Scanner} (h : Reads (behind done rest state) ts s') {u : Token} (hu : u ∈ ts) :
    ∃ mid ahead state', rest = mid ++ ahead ∧ ahead ≠ [] ∧
      u = (behind (done ++ mid) ahead state').next.1 := by
  obtain ⟨before, after, rfl⟩ := List.append_of_mem hu
  obtain ⟨s, hbefore, hafter⟩ := h.split
  obtain ⟨mid, ahead, hrest, hs⟩ := hbefore.exists_behind
  obtain ⟨hnext, hmove, -⟩ := hafter.of_cons
  have hahead := rest_ne_nil_of_moves hmove
  rw [hs] at hnext hahead
  exact ⟨mid, ahead, s.state, hrest, hahead, hnext⟩

namespace Token.Inner

variable {done inner beyond : List Char}

/-- Closing braces do not stand between the braces of a value, or the value would have ended
there. -/
theorem closeBraces_not_mem_value (h : t.Inner r done inner beyond)
    (ht : t ∈ significantTokens r.source) (hkind : t.kind = .attrValue) :
    ¬ Delimiter.closeBraces <:+: inner := by
  obtain ⟨state, before, cs, hcs, hlexed, htext⟩ := exists_lexeme (List.mem_of_mem_filter ht)
  obtain ⟨back, hchars, hback⟩ := h.text
  have htake : Delimiter.openBraces ++ inner ++ back
      = cs.take (lex state before cs).length := by
    rw [← hchars, Reading.textOf, htext, String.toList_ofList]
  have hbraces : Delimiter.openBraces <+: cs := by
    refine List.IsPrefix.trans ⟨inner ++ back, ?_⟩ (List.take_prefix (lex state before cs).length cs)
    rw [← htake, List.append_assoc]
  rw [Lexeme.length_of_bracedValue hcs (hlexed ▸ hkind) hbraces] at htake
  have hinner : inner <:+: Delimiter.openBraces ++ inner := (List.suffix_append _ inner).isInfix
  have hmark : Delimiter.closeBraces ≠ [] := by decide
  rcases Text.take_past_cases hmark cs with ⟨front, hfront, hnone⟩ | ⟨hall, hnone⟩
  · rw [hfront] at htake
    rcases hback with rfl | ⟨rfl, hopen⟩
    · rw [List.append_cancel_right htake] at hinner
      exact fun hin => hnone (hin.trans hinner)
    · -- braces at the end are those of the value
      refine absurd ?_ hopen
      rw [List.append_nil] at htake
      have hlast : endsWith Delimiter.closeBraces (Delimiter.openBraces ++ inner) = true :=
        endsWith_iff.mpr (htake ▸ List.suffix_append front _)
      have hlength := four_le_of_braces (List.prefix_append _ inner) hlast
      refine endsWith_iff.mpr (List.suffix_of_suffix_length_le (endsWith_iff.mp hlast)
        (List.suffix_append _ inner) ?_)
      rw [List.length_append] at hlength
      exact Nat.le_of_add_le_add_left hlength
  · rw [hall] at htake
    have hcs : inner <:+: cs := htake ▸ ⟨Delimiter.openBraces, back, rfl⟩
    exact fun hin => hnone (hin.trans hcs)

/-- So they are none of its `valueTokens`, and nothing but a closing tag of the template leads out
of the expression. -/
theorem kind_ne_close (h : t.Inner r done inner beyond) (ht : t ∈ significantTokens r.source)
    (hkind : t.kind = .attrValue) : ∀ u ∈ (valueTokens r t).1, u.kind ≠ .interpolationClose := by
  intro u hu hclose
  rw [h.tokens] at hu
  have hreads := (Scanner.behind done inner .interpolation).reads_toEnd
  obtain ⟨mid, ahead, state, hinner, hahead, rfl⟩ := hreads.exists_place (List.mem_of_mem_filter hu)
  rw [Scanner.next_behind hahead] at hclose
  have hmark := (Lexeme.closeBraces_of_kind hahead hclose).stands
  refine h.closeBraces_not_mem_value ht hkind (hmark.isInfix.trans ?_)
  rw [hinner]
  exact (List.suffix_append mid ahead).isInfix

end Token.Inner

/-- As long as nothing ends it, what is read in an expression is a part of it or a bad character, by
induction on the `Trace` of its modes. -/
theorem Trace.expression_cases {ts : List Token} (h : Trace .interpolation ts)
    (hclose : ∀ u ∈ ts, u.kind ≠ .interpolationClose) :
    (∀ u ∈ ts, u.kind.isExpression = true ∨ u.kind = .badCharacter) ∨
      ∃ u ∈ ts, u.kind = .templateClose := by
  induction ts with
  | nil => exact .inl fun u hu => (nomatch hu)
  | cons u us ih =>
    obtain ⟨n, hstep, hrest⟩ := h.of_cons
    have hblank := h.kind_ne_whitespace
    have hhere := hclose u (List.mem_cons_self ..)
    have hmore := fun hrest => ih hrest fun v hv => hclose v (List.mem_cons_of_mem _ hv)
    generalize hkind : u.kind = k at hstep hblank hhere
    -- what is read here does not end the expression
    have hgoes : n = .interpolation → (k.isExpression = true ∨ k = .badCharacter) →
        (∀ v ∈ u :: us, v.kind.isExpression = true ∨ v.kind = .badCharacter) ∨
          ∃ v ∈ u :: us, v.kind = .templateClose := by
      rintro rfl hk
      rcases hmore hrest with hall | ⟨v, hv, hend⟩
      · refine .inl fun v hv => ?_
        rcases List.mem_cons.mp hv with rfl | hv
        · rw [hkind]
          exact hk
        · exact hall v hv
      · exact .inr ⟨v, List.mem_cons_of_mem _ hv, hend⟩
    cases hstep with
    | expressionResync => exact .inr ⟨u, List.mem_cons_self .., hkind⟩
    | blankExpression => exact absurd rfl hblank
    | expressionEnd => exact absurd rfl hhere
    | expression hk => exact hgoes rfl (.inl hk)
    | badExpression => exact hgoes rfl (.inr rfl)

/-- **Tokens between the braces of a value.** They are parts of an expression and bad characters, or
the tag that closes the template is one of them. The latter is the only way out of the mode
`interpolation` that is left. -/
theorem valueTokens_cases (ht : t ∈ significantTokens r.source) (hkind : t.kind = .attrValue)
    (hbraces : Delimiter.openBraces.isPrefixOf (r.textOf t).toList = true) :
    (∀ u ∈ (valueTokens r t).1, u.kind.isExpression = true ∨ u.kind = .badCharacter) ∨
      ∃ u ∈ (valueTokens r t).1, u.kind = .templateClose := by
  obtain ⟨done, inner, beyond, hinner⟩ := exists_inner (fits_significantTokens r.source t ht) hbraces
  refine Trace.expression_cases ?_ (hinner.kind_ne_close ht hkind)
  rw [hinner.tokens]
  exact (Scanner.behind done inner .interpolation).reads_toEnd.trace

end Value

end RsxInspect
