import RsxInspect.Proofs.Expr.Acceptance

/-!
# Beginnings of expressions

Tokens that a grammar derives to some extent: they begin what a symbol derives if more tokens can
follow so that all of them are derived from it (`Symbol.Begins`). Every symbol derives something, so
a rule that is begun can be brought to its end, and what begins a part of a rule begins the whole of
it with the parts in front. There is one lemma for each place of a rule.

An operator can follow all operands whose own operators bind no tighter, or looser: it goes to the
last operand that leaves it the room (`Derivation.exists_attached`). `Viable` tokens are those that
begin an expression.
-/

namespace RsxInspect

namespace Expr

variable {source : String}

/-- The tokens are an expression of the grammar, however deep it is nested: `maxNesting` plays no
part here. -/
def Accepts (source : String) (tokens : List Token) : Prop :=
  ∃ d : Derivation source .expression, d.tokens = tokens

/-- Some tokens behind them make the tokens an expression of the grammar (`Accepts`). -/
def Viable (source : String) (tokens : List Token) : Prop :=
  ∃ more, Accepts source (tokens ++ more)

/-- The tokens begin what is derived from the symbol: some `Derivation` has them in front of its
tokens. -/
def Symbol.Begins (source : String) (s : Symbol) (tokens : List Token) : Prop :=
  ∃ d : Derivation source s, tokens <+: d.tokens

theorem Symbol.Begins.viable {tokens : List Token} (h : Symbol.expression.Begins source tokens) :
    Viable source tokens := by
  obtain ⟨d, more, hmore⟩ := h
  exact ⟨more, d, hmore.symm⟩

/-! ### Something is derived from every symbol

To go on from a token some expression has to be completed behind it, so of each symbol there has to
be a derivation with few levels of nesting. -/

/-- Some token of the kind. -/
def Terminal.any (kind : TokenKind) : Terminal kind := ⟨⟨kind, Span.point 0⟩, rfl⟩

/-- A name is an operand. -/
def Derivation.anyPrimary : Derivation source .primary := .identifier (Terminal.any .identifier)

def Derivation.anyUnary : Derivation source .unary := .accessed anyPrimary .noAccess

theorem Derivation.exists_stratum (source : String) {k : Nat} (hk : k ≤ 7) :
    Nonempty (Derivation source (.stratum k)) := by
  obtain ⟨d, -⟩ := (Derivation.operand anyUnary).exists_loosened hk (Nat.le_refl 7)
  exact ⟨d⟩

theorem Derivation.exists_expression (source : String) :
    Nonempty (Derivation source .expression) := by
  obtain ⟨d⟩ := Derivation.exists_stratum source (show 1 ≤ 7 by decide)
  exact ⟨.plain d⟩

namespace Symbol.Begins

variable {s : Symbol} {ts us : List Token} {k : Nat}

theorem nil (h : Nonempty (Derivation source s)) : s.Begins source [] := by
  obtain ⟨d⟩ := h
  exact ⟨d, List.nil_prefix⟩

theorem of_tokens (d : Derivation source s) : s.Begins source d.tokens :=
  ⟨d, List.prefix_refl _⟩

/-- What begins an operand (`Symbol.Begins`) begins operands with operators between them, of any
stratum. -/
theorem stratum (hk : k ≤ 7) (h : unary.Begins source ts) : (stratum k).Begins source ts := by
  obtain ⟨d, hd⟩ := h
  obtain ⟨d', htokens, -⟩ := (Derivation.operand d).exists_loosened hk (Nat.le_refl 7)
  exact ⟨d', by rwa [htokens]⟩

theorem condition (h : (Symbol.stratum 1).Begins source ts) : expression.Begins source ts := by
  obtain ⟨d, hd⟩ := h
  exact ⟨.plain d, hd⟩

/-! The alternatives of a condition. -/

theorem consequent (d : Derivation source (.stratum 1)) (mark : Terminal .question)
    (h : expression.Begins source us) :
    expression.Begins source (d.tokens ++ mark.1 :: us) := by
  obtain ⟨d', hd'⟩ := h
  obtain ⟨e⟩ := Derivation.exists_expression source
  refine ⟨.choice d mark d' (Terminal.any .colon) e, ?_⟩
  show _ <+: d.tokens ++ mark.1 :: (d'.tokens ++ _)
  rw [List.prefix_append_right_inj, List.cons_prefix_cons]
  exact ⟨rfl, hd'.trans (List.prefix_append _ _)⟩

theorem alternate (d : Derivation source (.stratum 1)) (mark : Terminal .question)
    (d' : Derivation source .expression) (colon : Terminal .colon)
    (h : expression.Begins source us) :
    expression.Begins source (d.tokens ++ mark.1 :: (d'.tokens ++ colon.1 :: us)) := by
  obtain ⟨e, he⟩ := h
  refine ⟨.choice d mark d' colon e, ?_⟩
  show _ <+: d.tokens ++ mark.1 :: (d'.tokens ++ colon.1 :: e.tokens)
  rw [List.prefix_append_right_inj, List.cons_prefix_cons, List.prefix_append_right_inj,
    List.cons_prefix_cons]
  exact ⟨rfl, rfl, he⟩

theorem applied {t : Token} {op : UnaryOp} (hop : (t.kind, op) ∈ unaryOperators)
    (h : unary.Begins source us) : unary.Begins source (t :: us) := by
  obtain ⟨d, hd⟩ := h
  exact ⟨.applied t op hop d, List.cons_prefix_cons.mpr ⟨rfl, hd⟩⟩

theorem group (opening : Terminal .lParen) (h : expression.Begins source us) :
    primary.Begins source (opening.1 :: us) := by
  obtain ⟨d, hd⟩ := h
  refine ⟨.group opening d (Terminal.any .rParen), List.cons_prefix_cons.mpr ⟨rfl, ?_⟩⟩
  exact hd.trans (List.prefix_append _ _)

end Symbol.Begins

/-! ### One more operation -/

namespace Derivation

variable {t : Token} {op : BinaryOp} {k : Nat}

/-- An operator that binds at least as tightly as the operators of a stratum can follow operands of
it: it attaches to the last operand that leaves it the room, by recursion over the derivation. -/
theorem exists_attached (hop : (t.kind, op) ∈ operatorsAt k)
    (right : Derivation source (.stratum (k + 1))) {s : Symbol} (d : Derivation source s) :
    (∀ j, s = .stratum j → j ≤ k →
      ∃ d' : Derivation source s, d'.tokens = d.tokens ++ t :: right.tokens) ∧
    ∀ j, s = .operations j → j < k → d.tokens = [] ∨
      ∃ d' : Derivation source s, d'.tokens = d.tokens ++ t :: right.tokens := by
  have hk : k < 7 := by
    have := (mem_operatorsAt.mp hop).2
    have := op.precedence_le_tightest
    simp only [BinaryOp.tightest] at this
    omega
  -- the operation goes down to the operand that ends the row, until the chain of its own stratum
  induction d with
  | operand d =>
    refine ⟨fun j hj hle => ?_, by simp⟩
    obtain rfl := Symbol.stratum.inj hj
    omega
  | @chain j hj first more ihfirst ihmore =>
    refine ⟨fun i hi hle => ?_, by simp⟩
    obtain rfl := Symbol.stratum.inj hi
    -- the chain of stratum `k` itself takes the operation at its end
    rcases Nat.eq_or_lt_of_le hle with rfl | hlt
    · obtain ⟨d', htokens, -⟩ := exists_snoc hop (chain hj first more) right
      exact ⟨d', htokens⟩
    -- a tighter operation goes into the last operand, which is `first` when no operation follows it
    · rcases ihmore.2 j rfl hlt with hnone | ⟨more', hmore⟩
      · obtain ⟨first', hfirst⟩ := ihfirst.1 (j + 1) rfl hlt
        refine ⟨chain hj first' more, ?_⟩
        show first'.tokens ++ more.tokens = (first.tokens ++ more.tokens) ++ _
        rw [hfirst, hnone, List.append_nil, List.append_nil]
      · refine ⟨chain hj first more', ?_⟩
        show first.tokens ++ more'.tokens = (first.tokens ++ more.tokens) ++ _
        rw [hmore, List.append_assoc]
  | noOperation => exact ⟨by simp, fun _ _ _ => .inl rfl⟩
  | @operation j u op' hop' last more ihlast ihmore =>
    refine ⟨by simp, fun i hi hlt => .inr ?_⟩
    obtain rfl := Symbol.operations.inj hi
    rcases ihmore.2 j rfl hlt with hnone | ⟨more', hmore⟩
    · obtain ⟨last', hlast⟩ := ihlast.1 (j + 1) rfl hlt
      refine ⟨operation u op' hop' last' more, ?_⟩
      show u :: (last'.tokens ++ more.tokens) = u :: (last.tokens ++ more.tokens) ++ _
      rw [hlast, hnone]
      simp
    · refine ⟨operation u op' hop' last more', ?_⟩
      show u :: (last.tokens ++ more'.tokens) = u :: (last.tokens ++ more.tokens) ++ _
      rw [hmore]
      simp
  | _ => exact ⟨by simp, by simp⟩

end Derivation

end Expr

end RsxInspect
