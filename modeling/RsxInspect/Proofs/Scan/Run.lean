import RsxInspect.Proofs.Scan.Place

/-!
# Runs of a scan

`s.Reads ts s'` says that the scanner `s` reads the tokens `ts`, none of them empty, and becomes
`s'`. Runs compose (`Reads.trans`) and can be cut (`Reads.split`), and what each token preserves a
run preserves (`Reads.preserves`).

Reading all tokens up to the end of the window is a run that ends there (`toEnd?_eq_some_iff`), and
so are the scan of a range (`scan?_eq_some_iff`) and of a file (`tokenize?_eq_some_iff`). Where the
scan stands still, `toEnd` gives the run up to there (`reads_toEnd`), and there is no way on
(`toEnd_stays`).
-/

namespace RsxInspect

open String (utf8Len)

namespace Scanner

/-- A token starts where the scanner stands and ends where it stands afterwards
(`span_next_stop`). -/
theorem span_next_start (s : Scanner) : s.next.1.span.start = s.offset := by
  unfold next
  split <;> rfl

theorem span_next_stop (s : Scanner) : s.next.1.span.stop = s.next.2.offset := by
  unfold next
  split <;> rfl

/-- The scanner `s` reads the tokens and becomes the other scanner, getting on with each of them:
one constructor for no token, one for a call of `next` in front of a run. -/
inductive Reads : Scanner → List Token → Scanner → Prop where
  | done (s : Scanner) : Reads s [] s
  | step {s s' : Scanner} {ts : List Token} (hmove : s.offset < s.next.2.offset)
      (rest : Reads s.next.2 ts s') : Reads s (s.next.1 :: ts) s'

namespace Reads

theorem eq_of_nil {s s' : Scanner} (h : Reads s [] s') : s' = s := by
  cases h
  rfl

theorem of_cons {s s' : Scanner} {t : Token} {ts : List Token} (h : Reads s (t :: ts) s') :
    t = s.next.1 ∧ s.offset < s.next.2.offset ∧ Reads s.next.2 ts s' := by
  cases h with
  | step hmove rest => exact ⟨rfl, hmove, rest⟩

theorem trans {s t u : Scanner} {ts us : List Token} (hs : Reads s ts t) (ht : Reads t us u) :
    Reads s (ts ++ us) u := by
  induction hs with
  | done s => exact ht
  | step hmove _ ih => exact .step hmove (ih ht)

/-- A run (`Reads`) is cut in two at any of its tokens. -/
theorem split {s u : Scanner} {ts us : List Token} (h : Reads s (ts ++ us) u) :
    ∃ t, Reads s ts t ∧ Reads t us u := by
  induction ts generalizing s with
  | nil => exact ⟨s, .done s, h⟩
  | cons a ts ih =>
    cases h with
    | step hmove rest =>
      obtain ⟨t, hts, hus⟩ := ih rest
      exact ⟨t, .step hmove hts, hus⟩

theorem offset_le {s s' : Scanner} {ts : List Token} (h : Reads s ts s') :
    s.offset ≤ s'.offset := by
  induction h with
  | done s => exact Nat.le_refl _
  | step hmove _ ih => exact Nat.le_of_lt (Nat.lt_of_lt_of_le hmove ih)

/-- A run (`Reads`) that reads something gets on, since each of its tokens does. -/
theorem offset_lt {s s' : Scanner} {ts : List Token} (h : Reads s ts s') (hts : ts ≠ []) :
    s.offset < s'.offset := by
  cases h with
  | done => exact absurd rfl hts
  | step hmove rest => exact Nat.lt_of_lt_of_le hmove rest.offset_le

/-- A run that ends no later than another one is a beginning of it. -/
theorem prefix_of_offset_le {s t u : Scanner} {ts us : List Token} (ht : Reads s ts t)
    (hu : Reads s us u) (h : t.offset ≤ u.offset) : ∃ vs, us = ts ++ vs ∧ Reads t vs u := by
  induction ht generalizing us with
  | done s => exact ⟨us, rfl, hu⟩
  | step hmove rest ih =>
    cases hu with
    | done =>
      have := rest.offset_le
      omega
    | step hmove' rest' =>
      obtain ⟨vs, rfl, hvs⟩ := ih rest' h
      exact ⟨vs, rfl, hvs⟩

/-- Where a run ends can be told from its tokens. -/
theorem offset_eq {s s' t t' : Scanner} {ts : List Token} (hs : Reads s ts s') (ht : Reads t ts t')
    (h : s.offset = t.offset) : s'.offset = t'.offset := by
  induction hs generalizing t with
  | done s =>
    cases ht
    exact h
  | step hmove _ ih =>
    rename_i s _ _ _
    generalize htoken : s.next.1 = token at ht
    cases ht with
    | step hmove' rest' =>
      refine ih rest' ?_
      rw [← span_next_stop s, htoken, span_next_stop]

/-- The tokens of a run depend on where it starts and ends only. -/
theorem eq_of_offset_eq {s t u : Scanner} {ts us : List Token} (ht : Reads s ts t)
    (hu : Reads s us u) (h : t.offset = u.offset) : ts = us ∧ t = u := by
  induction ht generalizing us with
  | done s =>
    cases hu with
    | done => exact ⟨rfl, rfl⟩
    | step hmove rest =>
      have := rest.offset_le
      omega
  | step hmove rest ih =>
    cases hu with
    | done =>
      have := rest.offset_le
      omega
    | step hmove' rest' =>
      obtain ⟨rfl, rfl⟩ := ih rest' h
      exact ⟨rfl, rfl⟩

/-- What each token preserves, a run preserves. `P` is asked for at places of a source, where
`behind` says what is behind and what is ahead. -/
theorem preserves {P : Scanner → Prop} {done rest : List Char} {state : LexState}
    {ts : List Token} {s' : Scanner}
    (hstep : ∀ done rest state, rest ≠ [] → P (Scanner.behind done rest state) →
      P (Scanner.behind done rest state).next.2)
    (h : Reads (Scanner.behind done rest state) ts s')
    (hstart : P (Scanner.behind done rest state)) : P s' := by
  generalize hs : Scanner.behind done rest state = s at h hstart
  induction h generalizing done rest state with
  | done s => exact hstart
  | step hmove _ ih =>
    subst hs
    have hend : rest ≠ [] := rest_ne_nil_of_moves hmove
    have hnext := hstep done rest state hend hstart
    rw [next_behind hend] at hnext ih
    exact ih rfl hnext

/-- A run (`Reads`) moves some characters from what is ahead to what is behind. -/
theorem exists_behind {done rest : List Char} {state : LexState} {ts : List Token} {s' : Scanner}
    (h : Reads (Scanner.behind done rest state) ts s') :
    ∃ mid rest', rest = mid ++ rest' ∧ s' = Scanner.behind (done ++ mid) rest' s'.state := by
  generalize hs : Scanner.behind done rest state = s at h
  induction h generalizing done rest state with
  | done s => exact ⟨[], rest, rfl, by rw [← hs, List.append_nil, behind_state]⟩
  | step hmove _ ih =>
    subst hs
    have hend : rest ≠ [] := rest_ne_nil_of_moves hmove
    generalize hx : lex state done.getLast? rest = x
    have hnext : (Scanner.behind done rest state).next.2
        = Scanner.behind (done ++ rest.take x.length) (rest.drop x.length) (stateAfter state x) := by
      rw [next_behind hend, hx]
    obtain ⟨mid, rest', hrest, hs'⟩ := ih hnext.symm
    refine ⟨rest.take x.length ++ mid, rest', ?_, ?_⟩
    · rw [List.append_assoc, ← hrest, List.take_append_drop]
    · rw [← List.append_assoc]
      exact hs'

end Reads

/-! ### Reading up to the end

A scan goes on as long as its calls move it, and a call that does not move it never will again
(`toEndFrom_of_stays`). So either the end is reached, or the scan stands still for ever. -/

theorem toEndFrom_of_moves {s : Scanner} (h : s.offset < s.next.2.offset) (done : Array Token) :
    s.toEndFrom done = s.next.2.toEndFrom (done.push s.next.1) := by
  have hend : ¬ s.cursor.atEnd = true := by
    rw [Cursor.atEnd, List.isEmpty_iff]
    exact rest_ne_nil_of_moves h
  rw [Scanner.toEndFrom, if_neg hend, dif_pos h]

theorem toEndFrom_of_stays {s : Scanner} (h : ¬ s.offset < s.next.2.offset) (done : Array Token) :
    s.toEndFrom done = (done, s) := by
  rw [Scanner.toEndFrom]
  split
  · rfl
  · rw [dif_neg h]

/-- Reading up to the end (`toEndFrom`) goes on behind a run. -/
theorem Reads.toEndFrom_eq {s s' : Scanner} {ts : List Token} (h : Reads s ts s')
    (done : Array Token) : s.toEndFrom done = s'.toEndFrom (done ++ ts.toArray) := by
  induction h generalizing done with
  | done s => simp
  | step hmove _ ih =>
    rw [toEndFrom_of_moves hmove, ih]
    simp

theorem Reads.toEndFrom {s s' : Scanner} {ts : List Token} (h : Reads s ts s')
    (hend : s'.cursor.rest = []) (done : Array Token) :
    s.toEndFrom done = (done ++ ts.toArray, s') := by
  rw [h.toEndFrom_eq]
  exact toEndFrom_of_stays (fun hmove => rest_ne_nil_of_moves hmove hend) _

/-- The tokens that are read up to the end, or to where the scan stands still, make up a run. The
induction is on the recursion of `toEndFrom`. -/
theorem reads_toEnd (s : Scanner) : Reads s s.toEnd.1.toList s.toEnd.2 := by
  have key : ∀ (done : Array Token) (s : Scanner),
      ∃ ts s', Reads s ts s' ∧ s.toEndFrom done = (done ++ ts.toArray, s') := by
    intro done s
    induction done, s using Scanner.toEndFrom.induct with
    | case1 done s hend =>
      exact ⟨[], s, .done s, (Reads.done s).toEndFrom (List.isEmpty_iff.mp hend) done⟩
    | case2 done s _ step hmove _ ih =>
      obtain ⟨ts, s', hrun, heq⟩ := ih
      refine ⟨s.next.1 :: ts, s', .step hmove hrun, ?_⟩
      rw [toEndFrom_of_moves hmove, heq]
      simp [step]
    | case3 done s _ step hstays =>
      refine ⟨[], s, .done s, ?_⟩
      rw [toEndFrom_of_stays hstays]
      simp
  obtain ⟨ts, s', hrun, heq⟩ := key #[] s
  rw [toEnd, heq]
  simpa using hrun

/-- Behind what is read by `toEnd` there is no way on: the window ends there, or the scan stands
still. -/
theorem toEnd_stays (s : Scanner) : ¬ s.toEnd.2.offset < s.toEnd.2.next.2.offset := by
  have key : ∀ (done : Array Token) (s : Scanner),
      ¬ (s.toEndFrom done).2.offset < (s.toEndFrom done).2.next.2.offset := by
    intro done s
    induction done, s using Scanner.toEndFrom.induct with
    | case1 done s hend =>
      rw [Scanner.toEndFrom, if_pos hend]
      exact fun hmove => rest_ne_nil_of_moves hmove (List.isEmpty_iff.mp hend)
    | case2 done s _ step hmove _ ih =>
      rw [toEndFrom_of_moves hmove]
      exact ih
    | case3 done s _ step hstays =>
      rw [toEndFrom_of_stays hstays]
      exact hstays
  exact key #[] s

/-- A bounded number of tokens (`takeUntilEnd`) that are not empty makes up a run, by induction on
the bound. -/
theorem reads_takeUntilEnd (n : Nat) (s : Scanner)
    (hmove : ∀ t ∈ (s.takeUntilEnd n).1, t.span.start < t.span.stop) :
    Reads s (s.takeUntilEnd n).1.toList (s.takeUntilEnd n).2 := by
  -- over any array read already; the steps move because no token read is empty
  have key : ∀ (n : Nat) (s : Scanner) (done : Array Token),
      ∃ ts s', s.takeUntilEndFrom done n = (done ++ ts.toArray, s') ∧
        ((∀ t ∈ ts, t.span.start < t.span.stop) → Reads s ts s') := by
    intro n
    induction n with
    | zero =>
      intro s done
      exact ⟨[], s, by simp [takeUntilEndFrom], fun _ => .done s⟩
    | succ n ih =>
      intro s done
      rw [takeUntilEndFrom]
      split
      · exact ⟨[], s, by simp, fun _ => .done s⟩
      · obtain ⟨ts, s', heq, hreads⟩ := ih s.next.2 (done.push s.next.1)
        refine ⟨s.next.1 :: ts, s', by simp [heq], fun hall => ?_⟩
        have hhere := hall s.next.1 (by simp)
        rw [span_next_start, span_next_stop] at hhere
        exact .step hhere (hreads fun t ht => hall t (by simp [ht]))
  obtain ⟨ts, s', heq, hreads⟩ := key n s #[]
  rw [takeUntilEnd, heq] at hmove ⊢
  simp only [Array.empty_append, List.mem_toArray] at hmove ⊢
  exact hreads hmove

/-- Reading up to the end (`toEnd?`) is a run that ends there. -/
theorem toEnd?_eq_some_iff {s s' : Scanner} {tokens : Array Token} :
    s.toEnd? = some (tokens, s') ↔ Reads s tokens.toList s' ∧ s'.cursor.rest = [] := by
  constructor
  · intro h
    rw [toEnd?] at h
    simp only [Option.ite_none_right_eq_some, Option.some.injEq] at h
    obtain ⟨hend, heq⟩ := h
    have hrun := s.reads_toEnd
    rw [heq] at hrun hend
    exact ⟨hrun, List.isEmpty_iff.mp hend⟩
  · rintro ⟨hrun, hend⟩
    have hall : s.toEnd = (tokens, s') := by
      rw [toEnd, hrun.toEndFrom hend]
      simp
    rw [toEnd?]
    simp only [hall]
    exact if_pos (List.isEmpty_iff.mpr hend)

/-- The scan reaches the end, `toEnd?`, if nothing is left where it stops. -/
theorem isSome_toEnd? (s : Scanner) : s.toEnd?.isSome = s.toEnd.2.cursor.atEnd := by
  show (if s.toEnd.2.cursor.atEnd then some s.toEnd else none).isSome = _
  cases s.toEnd.2.cursor.atEnd <;> rfl

/-- The scan of a range (`scan?`), as a run up to the end of its window. -/
theorem scan?_eq_some_iff {source : String} {start stop : Nat} {state : LexState} {b : Batch} :
    scan? source start stop state = some b ↔
      ∃ s', Reads (ofRange source start stop state) b.tokens.toList s' ∧ s'.cursor.rest = [] ∧
        b.state = s'.state ∧ b.offset = s'.offset := by
  rw [scan?, Option.map_eq_some_iff]
  constructor
  · rintro ⟨⟨tokens, s'⟩, hrun, rfl⟩
    obtain ⟨hreads, hend⟩ := toEnd?_eq_some_iff.mp hrun
    exact ⟨s', hreads, hend, rfl, rfl⟩
  · rintro ⟨s', hreads, hend, hstate, hoffset⟩
    refine ⟨(b.tokens, s'), toEnd?_eq_some_iff.mpr ⟨hreads, hend⟩, ?_⟩
    cases b
    simp_all

/-- The tokens of a file (`tokenize?`), as a run over the whole of it. -/
theorem tokenize?_eq_some_iff {source : String} {tokens : Array Token} :
    tokenize? source = some tokens ↔
      ∃ ts s', Reads (ofSource source) ts s' ∧ s'.cursor.rest = [] ∧
        tokens = (ts ++ [(⟨.eof, Span.point s'.offset⟩ : Token)]).toArray := by
  rw [tokenize?, Option.map_eq_some_iff]
  constructor
  · rintro ⟨⟨ts, s'⟩, hrun, rfl⟩
    obtain ⟨hreads, hend⟩ := toEnd?_eq_some_iff.mp hrun
    refine ⟨ts.toList, s', hreads, hend, ?_⟩
    simp only [next_of_end hend]
    exact Array.toList_inj.mp (by simp)
  · rintro ⟨ts, s', hreads, hend, rfl⟩
    refine ⟨(ts.toArray, s'), toEnd?_eq_some_iff.mpr ⟨by simpa using hreads, hend⟩, ?_⟩
    simp only [next_of_end hend]
    exact Array.toList_inj.mp (by simp)

end Scanner

end RsxInspect
