import RsxInspect.Proofs.Expr.Viable

/-!
# Readers that fail at once

A reader looks at no token behind the next one, so a failure is due to the next token or to the end
of the tokens. What it has taken before can still be brought to an end, and no tokens that go on with
the same next token can (`Reader.Prompt`). The second part speaks about other readers, those with more
levels: a failure for another cause than the depth stays a failure with any number of levels.

Readers are put together from prompt readers (`Prompt.bind`, `Prompt.foldWhile`). The condition on
what was taken is handed down: it holds of tokens that the reader takes if it holds of them behind
those that were taken before.
-/

namespace RsxInspect

open Reader

namespace Reader

/-- The reader fails on the input with the diagnostic `d`, whatever it leaves. -/
def Fails (r : Reader α) (input : List Token) (d : Diagnostic) : Prop :=
  (r input).result = .error d

variable {r : Reader α} {input rest : List Token} {d : Diagnostic}

theorem Gives.not_fails {a : α} (h : r.Gives input a rest) : ¬ r.Fails input d := by
  intro hfails
  have hsame := h.1.symm.trans hfails
  cases hsame

/-- A reader makes one thing of its input, since `Gives` is what it computes. -/
theorem Gives.unique {a b : α} {rest' : List Token} (h : r.Gives input a rest)
    (h' : r.Gives input b rest') : a = b ∧ rest = rest' := by
  obtain ⟨hvalue, rfl⟩ := h
  obtain ⟨hvalue', rfl⟩ := h'
  exact ⟨Except.ok.inj (hvalue.symm.trans hvalue'), rfl⟩

theorem not_fails_pure {a : α} : ¬ (pure a : Reader α).Fails input d :=
  fun h => nomatch h

theorem not_fails_nextIf {f : TokenKind → Option α} : ¬ (nextIf f).Fails input d := by
  intro h
  unfold Fails at h
  cases input with
  | nil => cases h
  | cons t ts =>
    rw [nextIf] at h
    split at h <;> cases h

theorem fails_fail {e : Diagnostic} : (fail e : Reader α).Fails input d ↔ d = e := by
  constructor
  · intro h
    exact (Except.error.inj h).symm
  · rintro rfl
    rfl

/-- Readers in a row fail (`Fails`) where one of them does: the first one, or the second one on what
the first one leaves. -/
theorem fails_bind {k : α → Reader β} : (r >>= k).Fails input d ↔
    r.Fails input d ∨ ∃ a behind, r.Gives input a behind ∧ (k a).Fails behind d := by
  unfold Fails
  rw [bind_apply, Reader.bind]
  cases hr : (r input).result with
  | error e => simp [Gives, hr]
  | ok a =>
    simp only [Gives, hr, reduceCtorEq, false_or, Except.ok.injEq]
    constructor
    · exact fun h => ⟨a, _, ⟨rfl, rfl⟩, h⟩
    · rintro ⟨b, behind, ⟨rfl, rfl⟩, h⟩
      exact h

variable {f : TokenKind → Option β} {body : α → β → Reader α} {a : α}

/-- A repetition (`foldWhile`) fails in one of its rounds, which is the first one or comes behind
that. -/
theorem fails_foldWhile {t : Token} {ts : List Token} {x : β} (hx : f t.kind = some x) :
    (foldWhile f body a).Fails (t :: ts) d ↔
      (body a x).Fails ts d ∨
        ∃ b behind, (body a x).Gives ts b behind ∧ (foldWhile f body b).Fails behind d := by
  unfold Fails Gives
  rw [foldWhile, hx]
  simp only
  split
  · rename_i hbody
    simp [hbody]
  · rename_i b behind hsuffix hbody
    simp only [hbody, Outcome.widen, reduceCtorEq, false_or, Except.ok.injEq]
    constructor
    · exact fun h => ⟨b, behind, ⟨rfl, rfl⟩, h⟩
    · rintro ⟨c, behind', ⟨rfl, rfl⟩, h⟩
      exact h

/-- So there is a round where it fails, and a first token that asked for it. -/
theorem exists_round (h : (foldWhile f body a).Fails input d) :
    ∃ t ts x, input = t :: ts ∧ f t.kind = some x := by
  unfold Fails at h
  cases input with
  | nil => simp [foldWhile] at h
  | cons t ts =>
    cases hf : f t.kind with
    | none => simp [foldWhile, hf] at h
    | some x => exact ⟨t, ts, x, rfl, hf⟩

end Reader

namespace Expr

/-- The diagnostic stands on the next token, or behind the last one if there is none. -/
def Passage.Concerns (p : Passage) (d : Diagnostic) (ahead : List Token) : Prop :=
  d.span = (ahead.head?.map (·.span)).getD p.endSpan

end Expr

namespace Reader

open RsxInspect.Expr

variable {p : Passage} {C C' : List Token → Prop}

/-- The other readers make the same of what the reader takes, whatever stands behind the next token.
Where the reader fails, and not because of the depth, it has taken tokens with the property `C`, the
diagnostic concerns the next one (`Passage.Concerns`), and the others fail on all tokens that are
the same up to there. -/
structure Prompt (p : Passage) (C : List Token → Prop) (r : Reader α) (r' : ι → Reader α) :
    Prop where
  gives : ∀ input a rest, r.Gives input a rest → ∃ taken, input = taken ++ rest ∧
    ∀ i rest', rest'.head? = rest.head? → (r' i).Gives (taken ++ rest') a rest'
  fails : ∀ input d, r.Fails input d → (∀ s, d ≠ Problem.tooDeep.on s) →
    ∃ taken ahead, input = taken ++ ahead ∧ C taken ∧ p.Concerns d ahead ∧
      ∀ i ahead', ahead'.head? = ahead.head? → ∃ d', (r' i).Fails (taken ++ ahead') d'

theorem head?_append {ts us us' : List Token} (h : us'.head? = us.head?) :
    (ts ++ us').head? = (ts ++ us).head? := by
  cases ts with
  | nil => exact h
  | cons t ts => simp

namespace Prompt

variable {r : Reader α} {r' : ι → Reader α}

theorem mono (h : Prompt p C r r') (hC : ∀ ts, C ts → C' ts) : Prompt p C' r r' := by
  refine ⟨h.gives, fun input d hfails hcause => ?_⟩
  obtain ⟨taken, ahead, hinput, htaken, hmore⟩ := h.fails input d hfails hcause
  exact ⟨taken, ahead, hinput, hC taken htaken, hmore⟩

/-- A reader that never `Fails` and looks at the next token only is `Prompt`, with no condition on
what was taken. -/
theorem of_gives (hnever : ∀ input d, ¬ r.Fails input d)
    (hgives : ∀ input a rest, r.Gives input a rest → ∃ taken, input = taken ++ rest ∧
      ∀ i rest', rest'.head? = rest.head? → (r' i).Gives (taken ++ rest') a rest') :
    Prompt p C r r' :=
  ⟨hgives, fun input d hfails _ => (hnever input d hfails).elim⟩

theorem pure {a : α} : Prompt p C (pure a) (fun _ : ι => pure a) := by
  refine of_gives (fun _ _ => not_fails_pure) fun input b rest hgives => ?_
  obtain ⟨rfl, rfl⟩ := gives_pure.mp hgives
  exact ⟨[], by simp, fun _ rest' _ => gives_pure.mpr ⟨rfl, by simp⟩⟩

theorem peek : Prompt p C peek (fun _ : ι => peek) := by
  refine of_gives (fun _ _ h => nomatch h) fun input x rest hgives => ?_
  obtain ⟨rfl, rfl⟩ := gives_peek.mp hgives
  exact ⟨[], by simp, fun _ rest' hhead => gives_peek.mpr ⟨by simpa using hhead.symm, by simp⟩⟩

theorem nextIf {f : TokenKind → Option β} : Prompt p C (nextIf f) (fun _ : ι => nextIf f) := by
  refine of_gives (fun _ _ => not_fails_nextIf) fun input x rest hgives => ?_
  rcases gives_nextIf.mp hgives with ⟨t, a, rfl, ha, rfl⟩ | ⟨hnone, rfl, rfl⟩
  · exact ⟨[t], by simp, fun _ rest' _ => gives_nextIf.mpr (.inl ⟨t, a, by simp, ha, rfl⟩)⟩
  · refine ⟨[], by simp, fun _ rest' hhead => gives_nextIf.mpr (.inr ⟨?_, rfl, by simp⟩)⟩
    rw [List.nil_append, hhead]
    exact hnone

/-- Readers in a row. What the second one takes stands behind what the first one has taken, so its
condition `C` is about both. -/
theorem bind {k : α → Reader β} {k' : ι → α → Reader β} (hr : Prompt p C r r')
    (hk : ∀ a taken behind, r.Gives (taken ++ behind) a behind →
      Prompt p (fun ts => C (taken ++ ts)) (k a) (fun i => k' i a)) :
    Prompt p C (r >>= k) (fun i => r' i >>= k' i) := by
  constructor
  · intro input b rest hgives
    -- what the two readers take is taken one behind the other
    obtain ⟨a, behind, ha, hb⟩ := gives_bind.mp hgives
    obtain ⟨taken, rfl, htaken⟩ := hr.gives input a behind ha
    obtain ⟨taken', rfl, htaken'⟩ := (hk a taken behind ha).gives behind b rest hb
    refine ⟨taken ++ taken', by simp, fun i rest' hhead => ?_⟩
    rw [List.append_assoc]
    exact gives_bind.mpr
      ⟨a, taken' ++ rest', htaken i _ (head?_append hhead), htaken' i rest' hhead⟩
  · intro input d hfails hcause
    -- the failure is that of the first reader, or the first one gave and the second one failed
    rcases fails_bind.mp hfails with hfirst | ⟨a, behind, ha, hsecond⟩
    · obtain ⟨taken, ahead, hinput, htaken, hconcerns, hsame⟩ :=
        hr.fails input d hfirst hcause
      refine ⟨taken, ahead, hinput, htaken, hconcerns, fun i ahead' hhead => ?_⟩
      obtain ⟨d', hd'⟩ := hsame i ahead' hhead
      exact ⟨d', fails_bind.mpr (.inl hd')⟩
    · obtain ⟨taken, rfl, htaken⟩ := hr.gives input a behind ha
      obtain ⟨taken', ahead, rfl, hC, hconcerns, hsame⟩ :=
        (hk a taken behind ha).fails behind d hsecond hcause
      refine ⟨taken ++ taken', ahead, by simp, hC, hconcerns, fun i ahead' hhead => ?_⟩
      obtain ⟨d', hd'⟩ := hsame i ahead' hhead
      rw [List.append_assoc]
      exact ⟨d', fails_bind.mpr (.inr ⟨a, _, htaken i _ (head?_append hhead), hd'⟩)⟩

/-- A reader that decides by the first token (`next`), and refuses it or goes on behind it. -/
theorem first {k : Option Token → Reader α} {k' : ι → Option Token → Reader α} (hC : C [])
    (hend : ∃ e : Problem, k none = fail (e.on p.endSpan) ∧
      ∀ i, k' i none = fail (e.on p.endSpan))
    (htoken : ∀ t, (∃ e : Problem, k (some t) = fail (e.on t.span) ∧
        ∀ i, k' i (some t) = fail (e.on t.span)) ∨
      Prompt p (fun ts => C (t :: ts)) (k (some t)) (fun i => k' i (some t))) :
    Prompt p C (next >>= k) (fun i => next >>= k' i) := by
  have hfirst : ∀ t ts, next.Gives (t :: ts) (some t) ts := fun t ts => ⟨rfl, rfl⟩
  have hnil : next.Gives [] none [] := ⟨rfl, rfl⟩
  obtain ⟨e, hk, hk'⟩ := hend
  -- the empty input and a refused token fail at once; a good token leaves the work to `k`
  constructor
  · intro input a rest hgives
    obtain ⟨x, behind, hnext, hmore⟩ := gives_bind.mp hgives
    cases input with
    | nil =>
      obtain ⟨rfl, rfl⟩ := hnext.unique hnil
      rw [hk] at hmore
      exact (not_gives_fail hmore).elim
    | cons t ts =>
      obtain ⟨rfl, rfl⟩ := hnext.unique (hfirst t ts)
      rcases htoken t with ⟨e, hrefused, -⟩ | hprompt
      · rw [hrefused] at hmore
        exact (not_gives_fail hmore).elim
      · obtain ⟨taken, rfl, htaken⟩ := hprompt.gives _ a rest hmore
        exact ⟨t :: taken, by simp, fun i rest' hhead =>
          gives_bind.mpr ⟨some t, _, hfirst t _, htaken i rest' hhead⟩⟩
  -- the same split for failures, where a new input may only differ behind the first token
  · intro input d hfails hcause
    rcases fails_bind.mp hfails with hnever | ⟨x, behind, hnext, hmore⟩
    · cases input <;> cases hnever
    · cases input with
      | nil =>
        obtain ⟨rfl, rfl⟩ := hnext.unique hnil
        rw [hk, fails_fail] at hmore
        refine ⟨[], [], rfl, hC, by simp [hmore, Passage.Concerns, Problem.on], ?_⟩
        intro i ahead' hhead
        obtain rfl : ahead' = [] := by simpa using hhead
        exact ⟨_, fails_bind.mpr (.inr ⟨none, [], hnil, hk' i ▸ fails_fail.mpr rfl⟩)⟩
      | cons t ts =>
        obtain ⟨rfl, rfl⟩ := hnext.unique (hfirst t ts)
        rcases htoken t with ⟨e, hrefused, hrefused'⟩ | hprompt
        · rw [hrefused, fails_fail] at hmore
          refine ⟨[], _, rfl, hC, by simp [hmore, Passage.Concerns, Problem.on], ?_⟩
          intro i ahead' hhead
          obtain ⟨ts', rfl⟩ := List.head?_eq_some_iff.mp hhead
          exact ⟨_, fails_bind.mpr
            (.inr ⟨some t, ts', hfirst t ts', hrefused' i ▸ fails_fail.mpr rfl⟩)⟩
        · obtain ⟨taken, ahead, rfl, htaken, hconcerns, hsame⟩ :=
            hprompt.fails _ d hmore hcause
          refine ⟨t :: taken, ahead, by simp, htaken, hconcerns, fun i ahead' hhead => ?_⟩
          obtain ⟨d', hd'⟩ := hsame i ahead' hhead
          exact ⟨d', fails_bind.mpr (.inr ⟨some t, _, hfirst t _, hd'⟩)⟩

theorem eat {kind : TokenKind} : Prompt p C (eat kind) (fun _ : ι => eat kind) :=
  bind nextIf fun _ _ _ _ => pure

/-- A repetition. `Inv` is a property of the tokens that were taken in the rounds so far, so the
condition on a round is about these and what the round has taken. -/
theorem foldWhile {f : TokenKind → Option β} {body : α → β → Reader α}
    {body' : ι → α → β → Reader α} (Inv : List Token → Prop)
    (hround : ∀ done t x a, Inv done → f t.kind = some x →
      Prompt p (fun ts => C (done ++ t :: ts)) (body a x) (fun i => body' i a x))
    (hnext : ∀ done t x a b taken behind, Inv done → f t.kind = some x →
      (body a x).Gives (taken ++ behind) b behind → Inv (done ++ t :: taken))
    {done : List Token} (hdone : Inv done) (a : α) :
    Prompt p (fun ts => C (done ++ ts)) (foldWhile f body a)
      (fun i => foldWhile f (body' i) a) := by
  constructor
  · intro input
    -- each round takes a token, so the induction is on their number
    induction hn : input.length using Nat.strongRecOn generalizing input a done with
    | ind n ih =>
      intro b rest hgives
      rcases gives_foldWhile.mp hgives with
        ⟨hnone, rfl, rfl⟩ | ⟨t, ts, x, c, behind, rfl, hx, hbody, hmore⟩
      · refine ⟨[], by simp, fun _ rest' hhead => gives_foldWhile.mpr (.inl ⟨?_, rfl, by simp⟩)⟩
        rw [List.nil_append, hhead]
        exact hnone
      · obtain ⟨taken, rfl, htaken⟩ := (hround done t x a hdone hx).gives ts c behind hbody
        have hlt : behind.length < n := by
          rw [← hn, List.length_cons, List.length_append]
          omega
        obtain ⟨taken', rfl, htaken'⟩ :=
          ih _ hlt (hnext done t x a c taken behind hdone hx hbody) c behind rfl b rest hmore
        refine ⟨t :: (taken ++ taken'), by simp, fun i rest' hhead => ?_⟩
        rw [List.cons_append, List.append_assoc]
        exact gives_foldWhile.mpr (.inr ⟨t, _, x, c, taken' ++ rest', rfl, hx,
          htaken i _ (head?_append hhead), htaken' i rest' hhead⟩)
  · intro input
    induction hn : input.length using Nat.strongRecOn generalizing input a done with
    | ind n ih =>
      intro d hfails hcause
      obtain ⟨t, ts, x, rfl, hx⟩ := exists_round hfails
      rcases (fails_foldWhile hx).mp hfails with hfirst | ⟨c, behind, hbody, hmore⟩
      · obtain ⟨taken, ahead, rfl, hC, hconcerns, hsame⟩ :=
          (hround done t x a hdone hx).fails ts d hfirst hcause
        refine ⟨t :: taken, ahead, by simp, hC, hconcerns, fun i ahead' hhead => ?_⟩
        obtain ⟨d', hd'⟩ := hsame i ahead' hhead
        exact ⟨d', (fails_foldWhile hx).mpr (.inl hd')⟩
      · obtain ⟨taken, rfl, htaken⟩ := (hround done t x a hdone hx).gives ts c behind hbody
        have hlt : behind.length < n := by
          rw [← hn, List.length_cons, List.length_append]
          omega
        obtain ⟨taken', ahead, rfl, hC, hconcerns, hsame⟩ :=
          ih _ hlt (hnext done t x a c taken behind hdone hx hbody) c behind rfl d hmore hcause
        refine ⟨t :: (taken ++ taken'), ahead, by simp, ?_, hconcerns, fun i ahead' hhead => ?_⟩
        · simpa using hC
        · obtain ⟨d', hd'⟩ := hsame i ahead' hhead
          rw [List.cons_append, List.append_assoc]
          exact ⟨d', (fails_foldWhile hx).mpr
            (.inr ⟨c, _, htaken i _ (head?_append hhead), hd'⟩)⟩

end Prompt

end Reader

end RsxInspect
