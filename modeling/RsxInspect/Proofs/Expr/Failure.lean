import RsxInspect.Proofs.Diagnostic.Plain

/-!
# What a failed expression reports

An expression that cannot be read is reported as such: every reader of the grammar fails with a
plain diagnostic of its own (`Expr.parse_plain`). One lemma `failsPlain_…` for each reader says so,
and readers in a row and repetitions keep `FailsPlain`.
-/

namespace RsxInspect

namespace Reader

/-- Whatever the reader fails on, its diagnostic is `Plain`. -/
def FailsPlain (r : Reader α) : Prop := ∀ input d, (r input).result = .error d → d.Plain

theorem failsPlain_pure {a : α} : FailsPlain (pure a) := fun _ _ h => (nomatch h)

theorem failsPlain_fail {d : Diagnostic} (hd : d.Plain) : FailsPlain (fail d : Reader α) := by
  intro input e h
  cases h
  exact hd

theorem failsPlain_peek : FailsPlain peek := fun _ _ h => (nomatch h)

theorem failsPlain_next : FailsPlain next := by
  intro input d h
  cases input <;> cases h

theorem failsPlain_nextIf {f : TokenKind → Option α} : FailsPlain (nextIf f) := by
  intro input d h
  cases input with
  | nil => cases h
  | cons t ts =>
    rw [nextIf] at h
    split at h <;> cases h

theorem failsPlain_bind {r : Reader α} {k : α → Reader β} (hr : FailsPlain r)
    (hk : ∀ a, FailsPlain (k a)) : FailsPlain (r >>= k) := by
  intro input d h
  rw [bind_apply, Reader.bind] at h
  cases ha : (r input).result with
  | error e =>
    simp only [ha] at h
    cases h
    exact hr input d ha
  | ok a =>
    simp only [ha] at h
    exact hk a (r input).rest d h

theorem failsPlain_eat {kind : TokenKind} : FailsPlain (eat kind) :=
  failsPlain_bind failsPlain_nextIf fun _ => failsPlain_pure

theorem failsPlain_foldWhile {f : TokenKind → Option β} {body : α → β → Reader α} {a : α}
    (hbody : ∀ a x, FailsPlain (body a x)) : FailsPlain (foldWhile f body a) := by
  intro input
  induction hn : input.length using Nat.strongRecOn generalizing input a with
  | ind n ih =>
    intro d h
    cases input with
    | nil =>
      rw [foldWhile] at h
      cases h
    | cons t ts =>
      rw [foldWhile] at h
      split at h
      · cases h
      · rename_i x _
        split at h
        · -- the round itself fails
          rename_i e rest hsuffix hround
          cases h
          exact hbody a x ts d (by rw [hround])
        · rename_i c rest hsuffix hround
          have hlt : rest.length < n := by
            have := hsuffix.length_le
            rw [← hn, List.length_cons]
            omega
          exact ih _ hlt rest rfl d h

end Reader

namespace Expr

open Reader

variable {p : Passage} {inner : Nested}

theorem failsPlain_failOn {expected : Expectation} {t : Token} :
    FailsPlain (p.failOn expected t : Reader α) :=
  failsPlain_fail (Problem.plain rfl _)

theorem failsPlain_expect {kind : TokenKind} {expected : Expectation} :
    FailsPlain (p.expect kind expected) := by
  refine failsPlain_bind failsPlain_eat fun x => ?_
  cases x with
  | some t => exact failsPlain_pure
  | none =>
    refine failsPlain_bind failsPlain_peek fun y => ?_
    cases y with
    | some t => exact failsPlain_failOn
    | none => exact failsPlain_fail (Problem.plain rfl _)

/-- What can be nested in an expression fails with plain diagnostics, so do all levels
(`failsPlain_nested`). -/
structure Nested.FailsPlain (inner : Nested) : Prop where
  unary : Reader.FailsPlain inner.unary
  expression : Reader.FailsPlain inner.expression
  arguments : Reader.FailsPlain inner.arguments

theorem failsPlain_readPrimary (h : inner.FailsPlain) : FailsPlain (readPrimary p inner) := by
  refine failsPlain_bind failsPlain_next fun x => ?_
  cases x with
  | none => exact failsPlain_fail (Problem.plain rfl _)
  | some t =>
    dsimp only
    split
    · split
      · exact failsPlain_pure
      · exact failsPlain_failOn
    · exact failsPlain_pure
    · exact failsPlain_pure
    · exact failsPlain_pure
    · refine failsPlain_bind h.expression fun e => ?_
      exact failsPlain_bind failsPlain_expect fun _ => failsPlain_pure
    · exact failsPlain_failOn

theorem failsPlain_readAccess (h : inner.FailsPlain) (e : Expr) (access : Access) :
    FailsPlain (readAccess p inner e access) := by
  cases access with
  | property => exact failsPlain_bind failsPlain_expect fun _ => failsPlain_pure
  | index =>
    refine failsPlain_bind h.expression fun index => ?_
    exact failsPlain_bind failsPlain_expect fun _ => failsPlain_pure
  | call =>
    refine failsPlain_bind h.arguments fun arguments => ?_
    exact failsPlain_bind failsPlain_expect fun _ => failsPlain_pure

theorem failsPlain_readUnary (h : inner.FailsPlain) : FailsPlain (readUnary p inner) := by
  refine failsPlain_bind failsPlain_nextIf fun x => ?_
  cases x with
  | none =>
    refine failsPlain_bind (failsPlain_readPrimary h) fun e => ?_
    exact failsPlain_foldWhile (failsPlain_readAccess h)
  | some x => exact failsPlain_bind h.unary fun _ => failsPlain_pure

theorem failsPlain_readBinary {operand : Reader Expr} (h : FailsPlain operand) (lowest : Nat) :
    FailsPlain (readBinary operand lowest) := by
  induction hn : BinaryOp.tightest + 1 - lowest using Nat.strongRecOn generalizing lowest with
  | ind n ih =>
    rw [readBinary]
    refine failsPlain_bind h fun _ => failsPlain_foldWhile fun left op => ?_
    have hlowest := op.2
    have htightest := op.1.precedence_le_tightest
    have hoperand := ih _ (by omega) (op.1.precedence + 1) rfl
    exact failsPlain_bind hoperand fun _ => failsPlain_pure

theorem failsPlain_readExpression (h : inner.FailsPlain) :
    FailsPlain (readExpression p inner) := by
  refine failsPlain_bind (failsPlain_readBinary (failsPlain_readUnary h) _) fun condition => ?_
  refine failsPlain_bind failsPlain_eat fun x => ?_
  cases x with
  | none => exact failsPlain_pure
  | some t =>
    refine failsPlain_bind h.expression fun consequent => ?_
    refine failsPlain_bind failsPlain_expect fun _ => ?_
    exact failsPlain_bind h.expression fun _ => failsPlain_pure

theorem failsPlain_readArguments {expression : Reader Expr} (h : FailsPlain expression) :
    FailsPlain (readArguments expression) := by
  refine failsPlain_bind failsPlain_peek fun x => ?_
  split
  · exact failsPlain_pure
  · refine failsPlain_bind h fun first => ?_
    refine failsPlain_bind (failsPlain_foldWhile fun arguments _ => ?_) fun _ => failsPlain_pure
    exact failsPlain_bind h fun _ => failsPlain_pure

theorem failsPlain_nested (p : Passage) (n : Nat) : (nested p n).FailsPlain := by
  induction n with
  | zero =>
    have hfail : ∀ {α : Type}, FailsPlain (p.failTooDeep : Reader α) := by
      refine failsPlain_bind failsPlain_peek fun _ => ?_
      exact failsPlain_fail (Problem.plain rfl _)
    exact ⟨hfail, hfail, hfail⟩
  | succ n ih =>
    exact ⟨failsPlain_readUnary ih, failsPlain_readExpression ih,
      failsPlain_readArguments (failsPlain_readExpression ih)⟩

/-- **Failed expressions.** What is wrong with an expression is `Plain`: a problem of its own, and
never one of what is left open. -/
theorem parse_plain {source : String} {tokens : List Token} {d : Diagnostic}
    (h : parse source tokens = .error d) : d.Plain := by
  have hread := (failsPlain_nested (Passage.of source tokens) (maxNesting + 1)).expression tokens
  unfold parse at h
  dsimp only at h
  cases hresult : (read (Passage.of source tokens) tokens).result with
  | error e =>
    rw [hresult] at h
    cases h
    exact hread d hresult
  | ok e =>
    rw [hresult] at h
    -- tokens are left over, or there is no error
    split at h
    · cases h
      exact Problem.plain rfl _
    · cases h

end Expr

end RsxInspect
