import RsxInspect.Proofs.Scan.Chunking
import RsxInspect.Proofs.Template.Value

/-!
# Text between braces

Behind opening braces a scan reads an expression token by token and stops at closing braces. A scan
that sees no more than the text in front of these reads the same tokens (`Reads.up_to_close`), and
wherever else this text stands, it is found there again with all its tokens (`Reads.text_moved`).
-/

namespace RsxInspect

open String (utf8Len)

namespace Scanner

/-- As long as nothing ends the run between braces (`endsRun`), the scan stays in the mode
`interpolation`. -/
theorem Reads.stays {s s' : Scanner} {ts : List Token} (h : Reads s ts s')
    (hmode : s.state.mode = .interpolation) (hts : ∀ t ∈ ts, t.kind.endsRun = false) :
    s'.state.mode = .interpolation := by
  induction h with
  | done s => exact hmode
  | @step s s' ts hmove hrun ih =>
    refine ih ?_ fun t ht => hts t (List.mem_cons_of_mem _ ht)
    have hstep := transition_next hmove
    have hhere := hts s.next.1 (List.mem_cons_self ..)
    rw [hmode] at hstep
    generalize s.next.1.kind = k at hstep hhere
    generalize s.next.2.state.mode = m at hstep
    cases hstep with
    | blankExpression | expression | badExpression => rfl
    | expressionResync | expressionEnd => cases hhere

/-- A run between braces (`Reads`) is read as well where nothing behind it is in sight, since no
rule of an expression looks further than it takes. -/
theorem Reads.alone {done inner beyond : List Char} {last : Option TokenKind} {state : LexState}
    {ts : List Token} (hbeyond : beyond ≠ [])
    (h : Reads (behind done (inner ++ beyond) ⟨.interpolation, last⟩) ts
      (behind (done ++ inner) beyond state)) (hts : ∀ t ∈ ts, t.kind.endsRun = false) :
    ∃ head, Reads (behind done inner ⟨.interpolation, last⟩) ts (behind (done ++ inner) [] head) := by
  obtain ⟨head, hhead, -⟩ := h.first_part hbeyond fun us s hus hs hword => by
    -- the words that would be cut off stand between sections
    have hstays := hs.stays rfl fun t ht => hts t (hus.subset ht)
    cases hword.1.symm.trans hstays
  exact ⟨head, hhead⟩

/-- A `significant` token stands behind those in front of it, blanks or not, so the run can be split
there. -/
theorem exists_split_of_significant {us run more : List Token} {t : Token}
    (h : significant us = run ++ t :: more) :
    ∃ front back, us = front ++ t :: back ∧ significant front = run ∧ significant back = more := by
  obtain ⟨front, back, rfl, hfront, hback⟩ := List.filter_eq_append_iff.mp h
  obtain ⟨blanks, behind, rfl, hblanks, -, hbehind⟩ := List.filter_eq_cons_iff.mp hback
  refine ⟨front ++ blanks, behind, (List.append_assoc ..).symm, ?_, hbehind⟩
  have hnone : significant blanks = [] := List.filter_eq_nil_iff.mpr hblanks
  rw [significant_append, hnone, List.append_nil]
  exact hfront

/-- **Up to closing braces.** The significant tokens in front of the closing braces are those of the
text in front of them, read alone in the same state. -/
theorem Reads.up_to_close {done ahead : List Char} {last : Option TokenKind} {ts run more : List Token}
    {close : Token} {s' : Scanner} (h : Reads (behind done ahead ⟨.interpolation, last⟩) ts s')
    (hts : significant ts = run ++ close :: more) (hrun : ∀ t ∈ run, t.kind.endsRun = false)
    (hclose : close.kind = .interpolationClose) :
    ∃ inner beyond us head, ahead = inner ++ Delimiter.closeBraces ++ beyond ∧
      close.span.stop = utf8Len (done ++ inner) + 2 ∧ significant us = run ∧
      Reads (behind done inner ⟨.interpolation, last⟩) us (behind (done ++ inner) [] head) := by
  -- the closing braces among all tokens
  obtain ⟨us, back, rfl, hus, -⟩ := exists_split_of_significant hts
  have hends : ∀ t ∈ us, t.kind.endsRun = false := by
    intro t ht
    by_cases htrivia : t.kind.isTrivia = true
    · cases hkind : t.kind <;> first | rfl | (rw [hkind] at htrivia; cases htrivia)
    · refine hrun t (hus ▸ List.mem_filter.mpr ⟨ht, ?_⟩)
      rw [Bool.eq_false_iff.mpr htrivia]
      rfl
  -- where they stand
  obtain ⟨place, hfirst, hsecond⟩ := h.split
  obtain ⟨inner, left, rfl, hplace⟩ := hfirst.exists_behind
  rw [hplace] at hfirst hsecond
  obtain ⟨hnext, hmove, -⟩ := hsecond.of_cons
  have hleft : left ≠ [] := rest_ne_nil_of_moves hmove
  rw [next_behind hleft] at hnext
  have hkind := hclose
  rw [hnext] at hkind
  obtain ⟨⟨beyond, rfl⟩, hlength⟩ := Lexeme.closeBraces_of_kind hleft hkind
  obtain ⟨head, hhead⟩ := hfirst.alone hleft hends
  refine ⟨inner, beyond, us, head, (List.append_assoc ..).symm, ?_, hus, hhead⟩
  rw [hnext]
  show utf8Len (done ++ inner ++ (Delimiter.closeBraces ++ beyond).take _) = _
  rw [hlength, List.take_left, String.utf8Len_append _ Delimiter.closeBraces]
  rfl

/-- The tokens of a text have the same characters wherever the text stands (`Token.text`). -/
theorem Reads.text_moved {source target : String} {done done' inner beyond beyond' : List Char}
    {state : LexState} {ts : List Token} {s' : Scanner} {d : Nat}
    (h : Reads (behind done inner state) ts s') (hsource : source.toList = done ++ inner ++ beyond)
    (htarget : target.toList = done' ++ inner ++ beyond') (hd : utf8Len done' = utf8Len done + d) :
    ∀ t ∈ ts, t.text source = (t.moved d).text target := by
  intro t ht
  obtain ⟨mid, ahead, state', rfl, hahead, rfl⟩ := h.exists_place ht
  rw [next_behind hahead]
  dsimp only
  -- the text of a token is cut out of `inner`, which stands in both sources
  generalize (lex state' (done ++ mid).getLast? ahead).length = n
  have hhere : source.toList = (done ++ mid) ++ ahead.take n ++ (ahead.drop n ++ beyond) := by
    rw [hsource, List.append_assoc (done ++ mid), ← List.append_assoc (ahead.take n),
      List.take_append_drop]
    simp only [List.append_assoc]
  have hthere : target.toList = (done' ++ mid) ++ ahead.take n ++ (ahead.drop n ++ beyond') := by
    rw [htarget, List.append_assoc (done' ++ mid), ← List.append_assoc (ahead.take n),
      List.take_append_drop]
    simp only [List.append_assoc]
  have hmoved : Span.moved d ⟨utf8Len (done ++ mid), utf8Len (done ++ mid ++ ahead.take n)⟩
      = ⟨utf8Len (done' ++ mid), utf8Len (done' ++ mid) + utf8Len (ahead.take n)⟩ := by
    simp only [Span.moved, String.utf8Len_append, hd, Span.mk.injEq]
    omega
  show Span.text _ _ = Span.text (Span.moved d _) _
  rw [hmoved, String.utf8Len_append _ (ahead.take n), Span.text_of_split _ _ _ hhere,
    Span.text_of_split _ _ _ hthere]

end Scanner

end RsxInspect
