import RsxInspect.Proofs.Expr.Moved

/-!
# What expressions are made of

Every token that the readers of the grammar take belongs into an expression, and none of them is the
word `as` (`TokenKind.isOperand`). There is one lemma `takes_…` for each reader, for the property
`TakesOperands` that readers in a row and repetitions keep.

So an expression in front of an `as` ends there, which is what loops rely on
(`Expr.parse_isOperand`); and there is no expression without a token (`parse_ne_nil`). At the other
end, a name or a literal alone is an expression (`parse_identifier`, `parse_string`).
-/

namespace RsxInspect

/-- The kinds that trees are read from: all kinds of expressions (`isExpression`) but the word
`as`. -/
def TokenKind.isOperand (k : TokenKind) : Bool := k.isExpression && k != .asWord

namespace Reader

/-- The tokens that a reader takes when it succeeds (`Gives`) are all of such kinds. -/
def TakesOperands (r : Reader α) : Prop :=
  ∀ input a rest, r.Gives input a rest →
    ∃ taken, input = taken ++ rest ∧ ∀ t ∈ taken, t.kind.isOperand = true

theorem takes_pure {a : α} : TakesOperands (pure a) := by
  intro input b rest hgives
  obtain ⟨rfl, rfl⟩ := gives_pure.mp hgives
  exact ⟨[], rfl, fun t ht => (nomatch ht)⟩

theorem takes_fail {d : Diagnostic} : TakesOperands (fail d : Reader α) :=
  fun _ _ _ hgives => (not_gives_fail hgives).elim

theorem takes_peek : TakesOperands peek := by
  intro input t rest hgives
  obtain ⟨rfl, rfl⟩ := gives_peek.mp hgives
  exact ⟨[], rfl, fun t ht => (nomatch ht)⟩

theorem takes_bind {r : Reader α} {k : α → Reader β} (hr : TakesOperands r)
    (hk : ∀ a, TakesOperands (k a)) : TakesOperands (r >>= k) := by
  intro input b rest hgives
  obtain ⟨a, behind, ha, hb⟩ := gives_bind.mp hgives
  obtain ⟨taken, rfl, htaken⟩ := hr input a behind ha
  obtain ⟨taken', rfl, htaken'⟩ := hk a behind b rest hb
  refine ⟨taken ++ taken', (List.append_assoc ..).symm, fun t ht => ?_⟩
  exact (List.mem_append.mp ht).elim (htaken t) (htaken' t)

theorem takes_nextIf {f : TokenKind → Option α}
    (hf : ∀ k, (f k).isSome = true → k.isOperand = true) : TakesOperands (nextIf f) := by
  intro input x rest hgives
  rcases gives_nextIf.mp hgives with ⟨t, a, rfl, ha, rfl⟩ | ⟨-, rfl, rfl⟩
  · refine ⟨[t], rfl, fun u hu => ?_⟩
    rw [List.mem_singleton.mp hu]
    exact hf _ (by rw [ha]; rfl)
  · exact ⟨[], rfl, fun t ht => (nomatch ht)⟩

theorem takes_eat {kind : TokenKind} (h : kind.isOperand = true) : TakesOperands (eat kind) := by
  refine takes_bind (takes_nextIf fun k hk => ?_) fun _ => takes_pure
  split at hk
  · rename_i heq
    rw [heq]
    exact h
  · cases hk

theorem takes_foldWhile {f : TokenKind → Option β} {body : α → β → Reader α} {a : α}
    (hf : ∀ k, (f k).isSome = true → k.isOperand = true)
    (hbody : ∀ a x, TakesOperands (body a x)) : TakesOperands (foldWhile f body a) := by
  intro input
  -- a round takes the token that starts it and what the body takes, and leaves a shorter input
  induction hn : input.length using Nat.strongRecOn generalizing input a with
  | ind n ih =>
    intro b rest hgives
    rcases gives_foldWhile.mp hgives with
      ⟨-, rfl, rfl⟩ | ⟨t, ts, x, c, behind, rfl, hx, hround, hmore⟩
    · exact ⟨[], rfl, fun t ht => (nomatch ht)⟩
    · have hlt : behind.length < n := by
        have := hround.suffix.length_le
        rw [← hn, List.length_cons]
        omega
      obtain ⟨taken, rfl, htaken⟩ := hbody a x ts c behind hround
      obtain ⟨taken', rfl, htaken'⟩ := ih _ hlt behind rfl b rest hmore
      refine ⟨t :: taken ++ taken', by simp, fun u hu => ?_⟩
      rcases List.mem_append.mp hu with hu' | hu'
      · rcases List.mem_cons.mp hu' with rfl | hu'
        · exact hf _ (by rw [hx]; rfl)
        · exact htaken u hu'
      · exact htaken' u hu'

end Reader

namespace Expr

open Reader

variable {p : Passage} {inner : Nested}

/-- Nested expressions are made of tokens of operands and operators (`TakesOperands`) as well. -/
structure Nested.TakesOperands (inner : Nested) : Prop where
  unary : Reader.TakesOperands inner.unary
  expression : Reader.TakesOperands inner.expression
  arguments : Reader.TakesOperands inner.arguments

theorem takes_expect {kind : TokenKind} {expected : Expectation} (h : kind.isOperand = true) :
    TakesOperands (p.expect kind expected) := by
  refine takes_bind (takes_eat h) fun x => ?_
  cases x with
  | some t => exact takes_pure
  | none =>
    refine takes_bind takes_peek fun y => ?_
    cases y <;> exact takes_fail

/-- The first token decides what `readPrimary` reads, so its kind is known where the rest
succeeds. -/
theorem takes_readPrimary (h : inner.TakesOperands) : TakesOperands (readPrimary p inner) := by
  intro input e rest hgives
  obtain ⟨x, behind, ⟨hvalue, hbehind⟩, hmore⟩ := gives_bind.mp hgives
  cases input with
  | nil =>
    cases hvalue
    exact (not_gives_fail hmore).elim
  | cons t ts =>
    cases hvalue
    cases hbehind
    -- every kind below is an operand's; only what is read behind the token differs
    have hcons : ∀ {k : Reader Expr}, t.kind.isOperand = true → TakesOperands k →
        k.Gives ts e rest →
        ∃ taken, t :: ts = taken ++ rest ∧ ∀ t ∈ taken, t.kind.isOperand = true := by
      intro k ht hk hgives
      obtain ⟨taken, rfl, htaken⟩ := hk ts e rest hgives
      refine ⟨t :: taken, rfl, fun u hu => ?_⟩
      rcases List.mem_cons.mp hu with rfl | hu'
      · exact ht
      · exact htaken u hu'
    obtain ⟨kind, span⟩ := t
    cases kind with
    | number =>
      refine hcons rfl ?_ hmore
      dsimp only
      split
      · exact takes_pure
      · exact takes_fail
    | string => exact hcons rfl takes_pure hmore
    | boolean => exact hcons rfl takes_pure hmore
    | identifier => exact hcons rfl takes_pure hmore
    | lParen =>
      refine hcons rfl ?_ hmore
      exact takes_bind h.expression fun _ => takes_bind (takes_expect rfl) fun _ => takes_pure
    | _ => exact (not_gives_fail hmore).elim

theorem takes_readAccess (h : inner.TakesOperands) (e : Expr) (access : Access) :
    TakesOperands (readAccess p inner e access) := by
  cases access with
  | property => exact takes_bind (takes_expect rfl) fun _ => takes_pure
  | index =>
    exact takes_bind h.expression fun _ => takes_bind (takes_expect rfl) fun _ => takes_pure
  | call =>
    exact takes_bind h.arguments fun _ => takes_bind (takes_expect rfl) fun _ => takes_pure

theorem takes_readPostfix (h : inner.TakesOperands) : TakesOperands (readPostfix p inner) := by
  refine takes_bind (takes_readPrimary h) fun _ => takes_foldWhile ?_ (takes_readAccess h)
  intro k
  cases k <;> decide

theorem takes_readUnary (h : inner.TakesOperands) : TakesOperands (readUnary p inner) := by
  refine takes_bind (takes_nextIf ?_) fun x => ?_
  · intro k
    cases k <;> decide
  · cases x with
    | none => exact takes_readPostfix h
    | some x => exact takes_bind h.unary fun _ => takes_pure

theorem isOperand_of_operatorFrom? {lowest : Nat} {k : TokenKind}
    (hk : (operatorFrom? lowest k).isSome = true) : k.isOperand = true := by
  have hop : (BinaryOp.ofToken? k).isSome = true := by
    rw [operatorFrom?] at hk
    exact Option.isSome_of_isSome_bind hk
  revert hop
  cases k <;> decide

theorem takes_readBinary {operand : Reader Expr} (h : TakesOperands operand) (lowest : Nat) :
    TakesOperands (readBinary operand lowest) := by
  induction hn : BinaryOp.tightest + 1 - lowest using Nat.strongRecOn generalizing lowest with
  | ind n ih =>
    rw [readBinary]
    refine takes_bind h fun _ => takes_foldWhile (fun k => isOperand_of_operatorFrom?) ?_
    intro left op
    have hlowest := op.2
    have htightest := op.1.precedence_le_tightest
    exact takes_bind (ih _ (by omega) (op.1.precedence + 1) rfl) fun _ => takes_pure

theorem takes_readExpression (h : inner.TakesOperands) :
    TakesOperands (readExpression p inner) := by
  refine takes_bind (takes_readBinary (takes_readUnary h) _) fun _ => ?_
  refine takes_bind (takes_eat rfl) fun x => ?_
  cases x with
  | none => exact takes_pure
  | some t =>
    refine takes_bind h.expression fun _ => takes_bind (takes_expect rfl) fun _ => ?_
    exact takes_bind h.expression fun _ => takes_pure

theorem takes_readArguments {expression : Reader Expr} (h : TakesOperands expression) :
    TakesOperands (readArguments expression) := by
  refine takes_bind takes_peek fun x => ?_
  split
  · exact takes_pure
  · refine takes_bind h fun _ => takes_bind (takes_foldWhile ?_ ?_) fun _ => takes_pure
    · intro k
      cases k <;> decide
    · exact fun _ _ => takes_bind h fun _ => takes_pure

theorem takes_nested (p : Passage) (n : Nat) : (nested p n).TakesOperands := by
  induction n with
  | zero =>
    have hfail : ∀ {α : Type}, TakesOperands (p.failTooDeep : Reader α) :=
      takes_bind takes_peek fun _ => takes_fail
    exact ⟨hfail, hfail, hfail⟩
  | succ n ih =>
    exact ⟨takes_readUnary ih, takes_readExpression ih,
      takes_readArguments (takes_readExpression ih)⟩

/-- **Tokens of expressions.** All tokens that make up an expression are `isOperand`: they belong
into one, and none of them is the word `as`. -/
theorem parse_isOperand {source : String} {tokens : List Token} {e : Expr}
    (h : parse source tokens = .ok e) : ∀ t ∈ tokens, t.kind.isOperand = true := by
  obtain ⟨taken, htokens, htaken⟩ :=
    (takes_nested (Passage.of source tokens) (maxNesting + 1)).expression tokens e []
      (parse_eq_ok_iff.mp h)
  rw [List.append_nil] at htokens
  rw [htokens]
  exact htaken

/-- No tokens are no expression, so `parse` refuses them. -/
theorem parse_ne_nil {source : String} {tokens : List Token} {e : Expr}
    (h : parse source tokens = .ok e) : tokens ≠ [] := by
  rintro rfl
  obtain ⟨_, _, hcondition, -⟩ := gives_bind.mp (parse_eq_ok_iff.mp h)
  rw [readBinary] at hcondition
  obtain ⟨_, _, ⟨hoperand, -⟩, -⟩ := gives_bind.mp hcondition
  -- the first operand finds no token
  cases hoperand

/-! ### Names -/

theorem gives_foldWhile_nil {f : TokenKind → Option β} {body : α → β → Reader α} {a : α} :
    (foldWhile f body a).Gives [] a [] := by
  unfold Gives
  rw [foldWhile]
  exact ⟨rfl, rfl⟩

/-- A token that stands for an operand by itself is an expression. -/
theorem parse_alone {s : String} {t : Token} {e : Expr} (hunary : UnaryOp.ofToken? t.kind = none)
    (hprimary : ∀ inner, (readPrimary (Passage.of s [t]) inner).Gives [t] e []) :
    parse s [t] = .ok e := by
  let p := Passage.of s [t]
  let inner := nested p maxNesting
  have hoperand : (readUnary p inner).Gives [t] e [] := by
    have hnone : (nextIf UnaryOp.ofToken?).Gives [t] none [t] := by
      refine gives_nextIf.mpr (.inr ⟨fun u hu => ?_, rfl, rfl⟩)
      cases hu
      exact hunary
    exact gives_bind.mpr ⟨none, [t], hnone,
      gives_bind.mpr ⟨e, [], hprimary inner, gives_foldWhile_nil⟩⟩
  have hbinary : (readBinary (readUnary p inner) BinaryOp.loosest).Gives [t] e [] := by
    rw [readBinary]
    exact gives_bind.mpr ⟨e, [], hoperand, gives_foldWhile_nil⟩
  have hread : (readExpression p inner).Gives [t] e [] := by
    refine gives_bind.mpr ⟨e, [], hbinary, ?_⟩
    exact gives_bind.mpr ⟨none, [], ⟨rfl, rfl⟩, gives_pure.mpr ⟨rfl, rfl⟩⟩
  exact parse_eq_ok_iff.mpr hread

/-- A name alone is an expression. -/
theorem parse_identifier {s : String} {t : Token} (ht : t.kind = .identifier) :
    parse s [t] = .ok (identifier (t.text s) t.span) := by
  apply parse_alone
  · simp [ht, UnaryOp.ofToken?]
  · intro inner
    apply gives_bind.mpr
    refine ⟨some t, [], ⟨rfl, rfl⟩, ?_⟩
    simp only [ht]
    exact gives_pure.mpr ⟨rfl, rfl⟩

/-- A literal alone is an expression: the text that it stands for. -/
theorem parse_string {s : String} {t : Token} (ht : t.kind = .string) :
    parse s [t]
      = .ok (string (String.ofList (Quoted.value (t.text s).toList)) t.span) := by
  apply parse_alone
  · simp [ht, UnaryOp.ofToken?]
  · intro inner
    apply gives_bind.mpr
    refine ⟨some t, [], ⟨rfl, rfl⟩, ?_⟩
    simp only [ht]
    exact gives_pure.mpr ⟨rfl, rfl⟩

end Expr

end RsxInspect
