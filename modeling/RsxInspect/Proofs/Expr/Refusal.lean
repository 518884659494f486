import RsxInspect.Proofs.Expr.Prompt

/-!
# Expressions are refused at the earliest token

Every reader of the grammar is prompt (`Reader.Prompt`): what it has taken where it fails begins
what its symbol derives (`Symbol.Begins`), and the next token cannot go on with it. There is one
lemma `prompt_…` for each reader, and `prompt_nested` is the induction on the levels.

So the diagnostic of tokens that are no expression stands on the first token that no expression has
behind those in front of it, or behind the last token if all of them begin an expression
(`parse_refuses`). Where a reader fails it is `exists_refused` that says so, and where tokens are
left `exists_left`.
-/

namespace RsxInspect

/-- The message tells that something else than the depth is wrong, so a `found` is no `tooDeep`. -/
theorem Problem.found_ne_tooDeep {expected : Expectation} {text : String} {s s' : Span} :
    (found expected text).on s ≠ tooDeep.on s' := by
  intro hsame
  have hmessage : (found expected text).message = tooDeep.message :=
    congrArg Diagnostic.message hsame
  have hfront := congrArg (fun message => message.toList.take 4) hmessage
  unfold Problem.message at hfront
  cases expected <;> simp [Expectation.phrase, toString] at hfront

namespace Expr

open Reader

variable {p : Passage} {n : Nat} {inner : Nested} {inner' : ι → Nested} {C : List Token → Prop}

/-- What can be `nested` in an expression is read promptly (`Reader.Prompt`), and the other readers,
with more levels, agree with it. -/
structure Nested.Prompt (p : Passage) (inner : Nested) (inner' : ι → Nested) : Prop where
  unary : Reader.Prompt p (Symbol.unary.Begins p.source) inner.unary (fun i => (inner' i).unary)
  expression : Reader.Prompt p (Symbol.expression.Begins p.source) inner.expression
    (fun i => (inner' i).expression)
  arguments : Reader.Prompt p (Symbol.arguments.Begins p.source) inner.arguments
    (fun i => (inner' i).arguments)

/-! ### What a reader has taken

A reader that succeeds has taken what its symbol derives, by `Symbol.Derives`. -/

variable {taken behind : List Token}

theorem Symbol.Derives.exists_tokens {s : Symbol} {r : Reader s.Value} {v : s.Value}
    (h : s.Derives p n r) (hgives : r.Gives (taken ++ behind) v behind) :
    ∃ d : Derivation p.source s, d.tokens = taken := by
  obtain ⟨d, -, -, htokens⟩ := h _ _ _ hgives
  exact ⟨d, (List.append_cancel_right htokens).symm⟩

theorem taken_expect {kind : TokenKind} {expected : Expectation} {t : Token}
    (h : (p.expect kind expected).Gives (taken ++ behind) t behind) :
    taken = [t] ∧ t.kind = kind := by
  obtain ⟨htaken, hkind⟩ := gives_expect h
  rw [← List.singleton_append, List.append_left_inj] at htaken
  exact ⟨htaken, hkind⟩

/-! ### Marks

A mark is one token of its kind, so a reader that expects it has taken nothing where it fails. -/

theorem fails_expect (p : Passage) (expected : Expectation) {kind : TokenKind} {input : List Token}
    (hnone : ∀ t, input.head? = some t → t.kind ≠ kind) :
    ∃ d, (p.expect kind expected).Fails input d ∧ p.Concerns d input := by
  have heat : (eat kind).Gives input none input := gives_eat.mpr (.inr ⟨hnone, rfl, rfl⟩)
  have hpeek : peek.Gives input input.head? input := gives_peek.mpr ⟨rfl, rfl⟩
  cases hhead : input.head? with
  | none =>
    refine ⟨(Problem.ended expected).on p.endSpan, ?_, by simp [Passage.Concerns, hhead, Problem.on]⟩
    rw [hhead] at hpeek
    exact fails_bind.mpr (.inr ⟨none, input, heat,
      fails_bind.mpr (.inr ⟨none, input, hpeek, fails_fail.mpr rfl⟩)⟩)
  | some t =>
    refine ⟨(Problem.found expected (t.text p.source)).on t.span, ?_,
      by simp [Passage.Concerns, hhead, Problem.on]⟩
    rw [hhead] at hpeek
    exact fails_bind.mpr (.inr ⟨none, input, heat,
      fails_bind.mpr (.inr ⟨some t, input, hpeek, fails_fail.mpr rfl⟩)⟩)

theorem prompt_expect {kind : TokenKind} {expected : Expectation} (hC : C []) :
    Prompt p C (p.expect kind expected) (fun _ : ι => p.expect kind expected) := by
  constructor
  · intro input t rest hgives
    obtain ⟨rfl, hkind⟩ := gives_expect hgives
    exact ⟨[t], by simp, fun _ rest' _ => gives_expect_of_terminal ⟨t, hkind⟩ rest'⟩
  · intro input d hfails _
    have hnone : ∀ t, input.head? = some t → t.kind ≠ kind := by
      rintro t ht rfl
      obtain ⟨ts, rfl⟩ := List.head?_eq_some_iff.mp ht
      exact (gives_expect_of_terminal (⟨t, rfl⟩ : Terminal t.kind) ts).not_fails hfails
    obtain ⟨e, he, hconcerns⟩ := fails_expect p expected hnone
    obtain rfl : d = e := Except.error.inj (hfails.symm.trans he)
    refine ⟨[], input, by simp, hC, hconcerns, fun _ ahead' hhead => ?_⟩
    obtain ⟨d', hd', -⟩ := fails_expect p expected (hhead ▸ hnone)
    exact ⟨d', hd'⟩

/-! ### What stands in front of a closing mark -/

section Enclosed

variable {s : Symbol} {r : Reader s.Value} {closing : TokenKind} {expected : Expectation}
  {f : s.Value → Token → Expr}

theorem taken_enclosed (hd : s.Derives p n r) {e : Expr}
    (hgives : (do
      let v ← r
      let mark ← p.expect closing expected
      pure (f v mark)).Gives (taken ++ behind) e behind) :
    ∃ (d : Derivation p.source s) (mark : Terminal closing), taken = d.tokens ++ [mark.1] := by
  obtain ⟨v, us, hinside, hmore⟩ := gives_bind.mp hgives
  obtain ⟨d, -, -, htaken⟩ := hd _ _ _ hinside
  obtain ⟨mark, vs, hmark, hpure⟩ := gives_bind.mp hmore
  obtain ⟨rfl, hkind⟩ := gives_expect hmark
  obtain ⟨-, rfl⟩ := gives_pure.mp hpure
  rw [← List.singleton_append, ← List.append_assoc, List.append_left_inj] at htaken
  exact ⟨d, ⟨mark, hkind⟩, htaken⟩

theorem prompt_enclosed {r' : ι → Reader s.Value} (h : Prompt p (s.Begins p.source) r r')
    (hd : s.Derives p n r) (hC : ∀ ts, s.Begins p.source ts → C ts) :
    Prompt p C
      (do
        let v ← r
        let mark ← p.expect closing expected
        pure (f v mark))
      (fun i => do
        let v ← r' i
        let mark ← p.expect closing expected
        pure (f v mark)) := by
  refine .bind (h.mono hC) fun v taken behind hgives => ?_
  obtain ⟨d, rfl⟩ := hd.exists_tokens hgives
  refine .bind (prompt_expect ?_) fun _ _ _ _ => .pure
  rw [List.append_nil]
  exact hC _ (.of_tokens d)

end Enclosed

/-! ### Operands -/

theorem prompt_readPrimary (h : inner.Prompt p inner') (hd : inner.Derives p n) :
    Prompt p (Symbol.primary.Begins p.source) (readPrimary p inner)
      (fun i => readPrimary p (inner' i)) := by
  refine .first (.nil ⟨Derivation.anyPrimary⟩) ⟨.noExpression, rfl, fun _ => rfl⟩ fun t => ?_
  obtain ⟨kind, span⟩ := t
  -- the first token decides which rule it is
  cases kind with
  | number =>
    dsimp only
    cases NumberLiteral.value? _ with
    | some x => exact .inr .pure
    | none => exact .inl ⟨.found .validNumber _, rfl, fun _ => rfl⟩
  | string | boolean | identifier => exact .inr .pure
  | lParen =>
    let opening : Terminal .lParen := ⟨⟨.lParen, span⟩, rfl⟩
    exact .inr (prompt_enclosed h.expression hd.expression fun ts hts => hts.group opening)
  | _ => exact .inl ⟨.found .operand _, rfl, fun _ => rfl⟩

/-! ### Accesses

The loop over the accesses makes a node of what it has read so far, so the condition on what was
taken is about the whole operand. -/

/-- Whatever accesses stand behind the tokens, they are an operand with them: the invariant of the
loop. -/
def TakesAccesses (source : String) (done : List Token) : Prop :=
  ∀ more : Derivation source .accesses, ∃ d : Derivation source .unary,
    d.tokens = done ++ more.tokens

theorem takesAccesses_primary (d : Derivation p.source .primary) :
    TakesAccesses p.source d.tokens :=
  fun more => ⟨.accessed d more, rfl⟩

namespace TakesAccesses

variable {source : String} {done us : List Token}

theorem begins (h : TakesAccesses source done) (more : Derivation source .accesses)
    (hmore : us <+: more.tokens) : Symbol.unary.Begins source (done ++ us) := by
  obtain ⟨d, hd⟩ := h more
  refine ⟨d, ?_⟩
  rw [hd, List.prefix_append_right_inj]
  exact hmore

/-- One more access keeps the invariant `TakesAccesses`, if it can stand in front of any
accesses. -/
theorem snoc (h : TakesAccesses source done)
    (hmore : ∀ more : Derivation source .accesses, ∃ d : Derivation source .accesses,
      d.tokens = us ++ more.tokens) : TakesAccesses source (done ++ us) := by
  intro more
  obtain ⟨d, hd⟩ := hmore more
  obtain ⟨d', hd'⟩ := h d
  exact ⟨d', by rw [hd', hd, List.append_assoc]⟩

end TakesAccesses

/-- What `readAccess` has read in a round of the loop over the accesses is an access, so the next
round starts behind one more. -/
theorem TakesAccesses.round (hd : inner.Derives p n) {done taken behind : List Token}
    (hdone : TakesAccesses p.source done) {t : Token} {access : Access} {e e' : Expr}
    (ht : Access.ofToken? t.kind = some access)
    (hgives : (readAccess p inner e access).Gives (taken ++ behind) e' behind) :
    TakesAccesses p.source (done ++ t :: taken) := by
  have hkind := Access.eq_kind ht
  refine hdone.snoc fun more => ?_
  cases access with
  | property =>
    obtain ⟨name, us, hname, hpure⟩ := gives_bind.mp hgives
    obtain ⟨-, rfl⟩ := gives_pure.mp hpure
    obtain ⟨rfl, hident⟩ := taken_expect hname
    exact ⟨.property ⟨t, hkind⟩ ⟨name, hident⟩ more, rfl⟩
  | index =>
    obtain ⟨d, closing, rfl⟩ := taken_enclosed hd.expression hgives
    exact ⟨.index ⟨t, hkind⟩ d closing more, by simp [Derivation.tokens]⟩
  | call =>
    obtain ⟨d, closing, rfl⟩ := taken_enclosed hd.arguments hgives
    exact ⟨.call ⟨t, hkind⟩ d closing more, by simp [Derivation.tokens]⟩

theorem prompt_readAccess (h : inner.Prompt p inner') (hd : inner.Derives p n) {done : List Token}
    (hdone : TakesAccesses p.source done) {t : Token} {access : Access}
    (ht : Access.ofToken? t.kind = some access) (e : Expr) :
    Prompt p (fun ts => Symbol.unary.Begins p.source (done ++ t :: ts)) (readAccess p inner e access)
      (fun i => readAccess p (inner' i) e access) := by
  have hkind := Access.eq_kind ht
  -- each access has a derivation that the row read so far begins
  cases access with
  | property =>
    refine .bind (prompt_expect ?_) fun _ _ _ _ => .pure
    exact hdone.begins (.property ⟨t, hkind⟩ (Terminal.any .identifier) .noAccess)
      (List.cons_prefix_cons.mpr ⟨rfl, List.nil_prefix⟩)
  | index =>
    refine prompt_enclosed h.expression hd.expression ?_
    rintro ts ⟨d, hts⟩
    refine hdone.begins (.index ⟨t, hkind⟩ d (Terminal.any .rBracket) .noAccess) ?_
    exact List.cons_prefix_cons.mpr ⟨rfl, hts.trans (List.prefix_append _ _)⟩
  | call =>
    refine prompt_enclosed h.arguments hd.arguments ?_
    rintro ts ⟨d, hts⟩
    refine hdone.begins (.call ⟨t, hkind⟩ d (Terminal.any .rParen) .noAccess) ?_
    exact List.cons_prefix_cons.mpr ⟨rfl, hts.trans (List.prefix_append _ _)⟩

theorem prompt_readPostfix (h : inner.Prompt p inner') (hd : inner.Derives p n) :
    Prompt p (Symbol.unary.Begins p.source) (readPostfix p inner)
      (fun i => readPostfix p (inner' i)) := by
  refine .bind ((prompt_readPrimary h hd).mono ?_) ?_
  · rintro ts ⟨d, hts⟩
    exact ⟨.accessed d .noAccess, hts.trans (List.prefix_append _ _)⟩
  · intro e taken behind hgives
    obtain ⟨d, rfl⟩ := (derives_readPrimary hd).exists_tokens hgives
    exact .foldWhile _ (fun done t access e hdone ht => prompt_readAccess h hd hdone ht e)
      (fun done t access e e' taken behind hdone ht => hdone.round hd ht)
      (takesAccesses_primary d) e

theorem prompt_readUnary (h : inner.Prompt p inner') (hd : inner.Derives p n) :
    Prompt p (Symbol.unary.Begins p.source) (readUnary p inner)
      (fun i => readUnary p (inner' i)) := by
  refine .bind .nextIf fun x taken behind hgives => ?_
  rcases gives_nextIf.mp hgives with ⟨t, op, htaken, hop, rfl⟩ | ⟨-, rfl, hbehind⟩
  · rw [← List.singleton_append, List.append_left_inj] at htaken
    subst htaken
    refine .bind (h.unary.mono fun ts hts => ?_) fun _ _ _ _ => .pure
    exact hts.applied (mem_unaryOperators.mpr hop)
  · obtain rfl : taken = [] := by simpa using hbehind
    exact prompt_readPostfix h hd

/-! ### Operators -/

theorem prompt_readBinary {operand : Reader Expr} {operand' : ι → Reader Expr}
    (h : Prompt p (Symbol.unary.Begins p.source) operand operand')
    (hd : Symbol.unary.Derives p n operand) {lowest : Nat} (hlowest : lowest ≤ 7) :
    Prompt p ((Symbol.stratum lowest).Begins p.source) (readBinary operand lowest)
      (fun i => readBinary (operand' i) lowest) := by
  -- the operands on the right have fewer strata of operators
  induction hsize : 7 - lowest using Nat.strongRecOn generalizing lowest with
  | ind size ih =>
    simp only [readBinary_eq]
    refine .bind (h.mono fun ts hts => hts.stratum hlowest) fun e taken behind hgives => ?_
    obtain ⟨d, rfl⟩ := hd.exists_tokens hgives
    obtain ⟨first, hfirst, -⟩ := (Derivation.operand d).exists_loosened hlowest (Nat.le_refl 7)
    -- in the loop, operands of the stratum were taken
    refine .foldWhile (fun done => ∃ c : Derivation p.source (.stratum lowest), c.tokens = done)
      ?_ ?_ ⟨first, hfirst⟩ e
    · rintro done t ⟨op, hop⟩ left ⟨c, rfl⟩ ht
      have hmem := mem_operatorsAt.mpr ⟨of_operatorFrom? ht, rfl⟩
      have hlt : op.precedence < 7 := Nat.lt_succ_of_le op.precedence_le_tightest
      have hright := ih _ (by omega) (Nat.succ_le_of_lt hlt) rfl
      refine .bind (hright.mono ?_) fun _ _ _ _ => .pure
      rintro ts ⟨right, hts⟩
      obtain ⟨c', hc'⟩ := (Derivation.exists_attached hmem right c).1 lowest rfl hop
      refine ⟨c', ?_⟩
      rw [hc', List.prefix_append_right_inj, List.cons_prefix_cons]
      exact ⟨rfl, hts⟩
    · rintro done t ⟨op, hop⟩ left e' taken behind ⟨c, rfl⟩ ht hround
      have hmem := mem_operatorsAt.mpr ⟨of_operatorFrom? ht, rfl⟩
      have hlt : op.precedence < 7 := Nat.lt_succ_of_le op.precedence_le_tightest
      obtain ⟨r, us, hoperand, hpure⟩ := gives_bind.mp hround
      obtain ⟨-, rfl⟩ := gives_pure.mp hpure
      obtain ⟨⟨right, -, -, htokens⟩, -⟩ :=
        climbs_readBinary hd (Nat.succ_le_of_lt hlt) _ _ _ hoperand
      obtain rfl := List.append_cancel_right htokens
      exact (Derivation.exists_attached hmem right c).1 lowest rfl hop

theorem prompt_readExpression (h : inner.Prompt p inner') (hd : inner.Derives p n) :
    Prompt p (Symbol.expression.Begins p.source) (readExpression p inner)
      (fun i => readExpression p (inner' i)) := by
  have hunary := derives_readUnary hd
  refine .bind ((prompt_readBinary (prompt_readUnary h hd) hunary (by decide)).mono
    fun ts hts => hts.condition) fun e taken behind hgives => ?_
  obtain ⟨⟨condition, -, -, htokens⟩, -⟩ := climbs_readBinary hunary (by decide) _ _ _ hgives
  obtain rfl := List.append_cancel_right htokens
  refine .bind .eat fun x taken behind heat => ?_
  -- with a `?`, the row read so far begins a conditional at each of its three later points
  rcases gives_eat.mp heat with ⟨t, htaken, ht, rfl⟩ | ⟨-, rfl, -⟩
  · rw [← List.singleton_append, List.append_left_inj] at htaken
    subst htaken
    let mark : Terminal .question := ⟨t, ht⟩
    refine .bind (h.expression.mono fun ts hts => ?_) fun e' taken behind hconsequent => ?_
    · exact hts.consequent condition mark
    · obtain ⟨consequent, rfl⟩ := hd.expression.exists_tokens hconsequent
      refine .bind (prompt_expect ?_) fun u taken behind hcolon => ?_
      · rw [List.append_nil]
        exact (Symbol.Begins.of_tokens consequent).consequent condition mark
      · obtain ⟨rfl, hu⟩ := taken_expect hcolon
        refine .bind (h.expression.mono fun ts hts => ?_) fun _ _ _ _ => .pure
        exact hts.alternate condition mark consequent ⟨u, hu⟩
  · exact .pure

/-! ### Arguments -/

/-- Whatever arguments stand behind the tokens, they are arguments with them: the invariant of the
loop over commas. -/
def TakesArguments (source : String) (done : List Token) : Prop :=
  ∀ more : Derivation source .moreArguments, ∃ d : Derivation source .arguments,
    d.tokens = done ++ more.tokens

theorem kind_of_comma? {kind : TokenKind} {x : Unit} (h : comma? kind = some x) :
    kind = .comma := by
  unfold comma? at h
  split at h
  · assumption
  · cases h

theorem prompt_readArguments {expression : Reader Expr} {expression' : ι → Reader Expr}
    (h : Prompt p (Symbol.expression.Begins p.source) expression expression')
    (hd : Symbol.expression.Derives p n expression) :
    Prompt p (Symbol.arguments.Begins p.source) (readArguments expression)
      (fun i => readArguments (expression' i)) := by
  refine .bind .peek fun x taken behind hpeek => ?_
  obtain ⟨-, hbehind⟩ := gives_peek.mp hpeek
  obtain rfl : taken = [] := by simpa using hbehind
  split
  · exact .pure
  · refine .bind (h.mono ?_) fun e taken behind hgives => ?_
    · rintro ts ⟨first, hts⟩
      exact ⟨.firstArgument first .noMoreArgument, hts.trans (List.prefix_append _ _)⟩
    · obtain ⟨first, rfl⟩ := hd.exists_tokens hgives
      refine .bind ?_ fun _ _ _ _ => .pure
      -- the invariant of the loop: what was taken, continued by more arguments, is again a row of
      -- arguments
      refine .foldWhile (TakesArguments p.source) ?_ ?_
        (fun more => ⟨.firstArgument first more, rfl⟩) [e]
      · intro done t x es hdone hcomma
        refine .bind (h.mono ?_) fun _ _ _ _ => .pure
        rintro ts ⟨next, hts⟩
        let comma : Terminal .comma := ⟨t, kind_of_comma? hcomma⟩
        obtain ⟨d, hmore⟩ := hdone (.nextArgument comma next .noMoreArgument)
        refine ⟨d, ?_⟩
        rw [hmore, List.prefix_append_right_inj]
        exact List.cons_prefix_cons.mpr ⟨rfl, hts.trans (List.prefix_append _ _)⟩
      · intro done t x es es' taken behind hdone hcomma hround more
        obtain ⟨e, us, hargument, hpure⟩ := gives_bind.mp hround
        obtain ⟨-, rfl⟩ := gives_pure.mp hpure
        obtain ⟨next, rfl⟩ := hd.exists_tokens hargument
        let comma : Terminal .comma := ⟨t, kind_of_comma? hcomma⟩
        obtain ⟨d, hmore⟩ := hdone (.nextArgument comma next more)
        refine ⟨d, ?_⟩
        rw [hmore]
        simp [Derivation.tokens, comma]

/-! ### All levels -/

/-- With more levels (`nested`) than those that are left, what fails for another cause than the
depth fails as well. By induction on the levels that are left, with the readers above for each. -/
theorem prompt_nested {levels : ι → Nat} (hle : ∀ i, n ≤ levels i) :
    (nested p n).Prompt p (fun i => nested p (levels i)) := by
  induction n generalizing levels with
  | zero =>
    -- without a level left, the depth is the cause
    have hdeep : ∀ {α : Type} {C : List Token → Prop} {r' : ι → Reader α},
        Prompt p C p.failTooDeep r' := by
      intro α C r'
      constructor
      · intro input a rest hgives
        obtain ⟨x, behind, -, hfail⟩ := gives_bind.mp hgives
        exact (not_gives_fail hfail).elim
      · intro input d hfails hcause
        rcases fails_bind.mp hfails with hnever | ⟨x, behind, -, hfail⟩
        · cases hnever
        · exact absurd (fails_fail.mp hfail) (hcause _)
    exact ⟨hdeep, hdeep, hdeep⟩
  | succ n ih =>
    obtain ⟨levels, rfl⟩ : ∃ levels' : ι → Nat, levels = fun i => levels' i + 1 := by
      refine ⟨fun i => levels i - 1, funext fun i => ?_⟩
      have := hle i
      show levels i = levels i - 1 + 1
      omega
    have h := ih fun i => Nat.le_of_succ_le_succ (hle i)
    have hd := derives_nested p n
    exact ⟨prompt_readUnary h hd, prompt_readExpression h hd,
      prompt_readArguments (prompt_readExpression h hd) (derives_readExpression hd)⟩

/-! ### Refused tokens

What stands in front of the refused token is the beginning of an expression (`exists_refused`) or a
whole one (`exists_left`), and with the token no expression goes on. -/

variable {source : String} {tokens : List Token} {d : Diagnostic}

/-- An expression of the grammar, which `Accepts` takes with any nesting, is read if there are
enough levels. -/
theorem exists_levels (h : Accepts p.source tokens) (n : Nat) :
    ∃ i e, (nested p (n + i)).expression.Gives tokens e [] := by
  obtain ⟨d, rfl⟩ := h
  -- behind the last token nothing goes on
  have hend : Symbol.expression.Stops [] := ⟨nofun, nofun, nofun⟩
  have hreads : Symbol.expression.Reads p (n + d.nesting) d.tree (d.tokens ++ []) [] :=
    d.reads (Nat.le_add_left d.nesting n) hend
  rw [List.append_nil] at hreads
  exact ⟨d.nesting + 1, d.tree, hreads⟩

theorem prompt_read (p : Passage) :
    Prompt p (Symbol.expression.Begins p.source) (read p)
      (fun i => (nested p (maxNesting + 1 + i)).expression) :=
  (prompt_nested fun i => Nat.le_add_right (maxNesting + 1) i).expression

/-- Where the reader `Fails`, no expression goes on like the tokens: what it has taken is viable,
and with the next token it is not. -/
theorem exists_refused (h : (read p).Fails tokens d) (hcause : ∀ s, d ≠ Problem.tooDeep.on s) :
    ∃ taken ahead, tokens = taken ++ ahead ∧ Viable p.source taken ∧ p.Concerns d ahead ∧
      ∀ ahead', ahead'.head? = ahead.head? → ¬ Accepts p.source (taken ++ ahead') := by
  obtain ⟨taken, ahead, hsplit, hbegins, hconcerns, hsame⟩ :=
    (prompt_read p).fails tokens d h hcause
  refine ⟨taken, ahead, hsplit, hbegins.viable, hconcerns, fun ahead' hhead haccepts => ?_⟩
  obtain ⟨i, e, hgives⟩ := exists_levels haccepts (maxNesting + 1)
  obtain ⟨d', hfails⟩ := hsame i ahead' hhead
  exact hgives.not_fails hfails

/-- Where the reader leaves tokens, what it has read is an expression (`Accepts`), and no expression
goes on behind it with the next token. -/
theorem exists_left {e : Expr} {t : Token} {ts : List Token}
    (h : (read p).Gives tokens e (t :: ts)) :
    ∃ taken, tokens = taken ++ t :: ts ∧ Accepts p.source taken ∧
      ∀ more, ¬ Accepts p.source (taken ++ t :: more) := by
  obtain ⟨taken, rfl, hsame⟩ := (prompt_read p).gives tokens e (t :: ts) h
  obtain ⟨d, rfl⟩ := (derives_nested p (maxNesting + 1)).expression.exists_tokens h
  refine ⟨d.tokens, rfl, ⟨d, rfl⟩, fun more haccepts => ?_⟩
  obtain ⟨i, e', hgives⟩ := exists_levels haccepts (maxNesting + 1)
  obtain ⟨-, hrest⟩ := hgives.unique (hsame i (t :: more) rfl)
  cases hrest

theorem parse_eq_error (h : parse source tokens = .error d) :
    (read (Passage.of source tokens)).Fails tokens d ∨
      ∃ e t ts, (read (Passage.of source tokens)).Gives tokens e (t :: ts) ∧ d.span = t.span := by
  unfold parse at h
  dsimp only at h
  split at h
  · rename_i e t ts hresult hrest
    refine .inr ⟨e, t, ts, ⟨hresult, hrest⟩, ?_⟩
    rw [← Except.error.inj h]
    simp [Problem.on]
  · exact .inl h

/-- **Errors stand on the earliest token possible.** Where `Expr.parse` refuses tokens, and not because
of the depth (`Problem.tooDeep`), the diagnostic stands on the first token that cannot follow those in
front of it in any expression of the grammar (`Viable`); or behind the last token, if all tokens begin
an expression and are none (`Accepts`). The tokens can be any, since `Span.text` is total: a token
whose span does not fit the source is named in the message by the text that it gives. -/
theorem parse_refuses (h : parse source tokens = .error d)
    (hcause : ∀ s, d ≠ Problem.tooDeep.on s) :
    (∃ taken t behind, tokens = taken ++ t :: behind ∧ d.span = t.span ∧ Viable source taken ∧
        ¬ Viable source (taken ++ [t])) ∨
      d.span = Span.point ((tokens.getLast?.map (·.span.stop)).getD 0) ∧
        (∃ more, more ≠ [] ∧ Accepts source (tokens ++ more)) ∧ ¬ Accepts source tokens := by
  -- the reader failed, or it gave a tree and a token was left over; only a failure can be at the
  -- end of the input
  rcases parse_eq_error h with hfails | ⟨e, t, ts, hgives, hspan⟩
  · obtain ⟨taken, ahead, hsplit, hviable, hconcerns, hrefused⟩ := exists_refused hfails hcause
    cases ahead with
    | cons t behind =>
      refine .inl ⟨taken, t, behind, hsplit, hconcerns, hviable, ?_⟩
      rintro ⟨more, haccepts⟩
      rw [List.append_assoc] at haccepts
      exact hrefused ([t] ++ more) (by simp) haccepts
    | nil =>
      obtain rfl : tokens = taken := by simpa using hsplit
      have hnone : ¬ Accepts source tokens := by
        have hall := hrefused [] rfl
        rwa [List.append_nil] at hall
      obtain ⟨more, haccepts⟩ := hviable
      refine .inr ⟨hconcerns, ⟨more, ?_, haccepts⟩, hnone⟩
      rintro rfl
      rw [List.append_nil] at haccepts
      exact hnone haccepts
  · obtain ⟨taken, hsplit, haccepts, hrefused⟩ := exists_left hgives
    refine .inl ⟨taken, t, ts, hsplit, hspan, ⟨[], by rwa [List.append_nil]⟩, ?_⟩
    rintro ⟨more, haccepts⟩
    rw [List.append_assoc] at haccepts
    exact hrefused more haccepts

/-- A name begins an expression and a second one cannot follow it: it is the second that is refused. -/
theorem parse_refuses_adjacent :
    let source := "a b"
    let first : Token := ⟨.identifier, ⟨0, 1⟩⟩
    let second : Token := ⟨.identifier, ⟨2, 3⟩⟩
    parse source [first, second] =
        .error ((Problem.found .endOfExpression (second.text source)).on second.span) ∧
      Viable source [first] ∧ ¬ Viable source [first, second] := by
  intro source first second
  have hparse : parse source [first, second] =
      .error ((Problem.found .endOfExpression (second.text source)).on second.span) := by
    let name : Derivation source (.stratum 7) :=
      .operand (.accessed (.identifier ⟨first, rfl⟩) .noAccess)
    obtain ⟨d, htokens, -, hnesting⟩ := name.exists_loosened (show 1 ≤ 7 by decide) (by decide)
    have hsmall : (Derivation.plain d).nesting ≤ maxNesting :=
      Nat.le_trans (Nat.le_of_eq hnesting) (by decide)
    have hstops : Symbol.expression.Stops [second] :=
      ⟨.cons rfl _, .cons (by decide) _, by simp [second]⟩
    have hgives : (read (Passage.of source [first, second])).Gives
        ((Derivation.plain d).tokens ++ [second]) (Derivation.plain d).tree [second] :=
      @Derivation.reads (Passage.of source [first, second]) maxNesting [second] _ _ hsmall hstops
    have htokens' : (Derivation.plain d).tokens ++ [second] = [first, second] := by
      simp [Derivation.tokens, htokens, name]
    rw [htokens'] at hgives
    unfold parse
    simp only [hgives.1, hgives.2]
  refine ⟨hparse, ?_⟩
  rcases parse_refuses hparse (fun _ => Problem.found_ne_tooDeep) with
    ⟨taken, t, behind, hsplit, hspan, hviable, hnot⟩ | ⟨hspan, -⟩
  · -- the span of the diagnostic tells which of the two tokens is the one refused
    rcases taken with _ | ⟨u, _ | ⟨v, taken⟩⟩
    · obtain ⟨rfl, -⟩ := List.cons.inj hsplit
      exact absurd hspan (by decide)
    · obtain ⟨rfl, hbehind⟩ := List.cons.inj hsplit
      obtain ⟨rfl, -⟩ := List.cons.inj hbehind
      exact ⟨hviable, hnot⟩
    · simp at hsplit
  · exact absurd hspan (by decide)

end Expr

end RsxInspect
