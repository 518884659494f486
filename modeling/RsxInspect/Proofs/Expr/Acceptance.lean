import RsxInspect.Proofs.Expr.Derivation
import RsxInspect.Proofs.Expr.Moved

/-!
# Expressions are read as the grammar derives them

The readers of expressions make of tokens what the grammar derives them as (`Derivation.reads`), and
they find a derivation wherever there is one (`derives_nested`). Together the reader accepts exactly
its grammar (`parse_iff_derivation`).

They climb through the operators instead of going down the strata: behind an operand the loop
`climb` takes every operator that binds tightly enough. The right operand of an operator leaves no
operator that binds tighter, so what the loop has read so far is always a use of the rule of the
last operator (`Climbs`). In the other direction, the loop goes on behind the operands of a stratum
with what stands there (`Symbol.Reads`), so the recursion over a derivation needs no more than the
operators that it meets.
-/

namespace RsxInspect

namespace Expr

open Reader

/-- The loop of `readBinary`, behind its first operand: as long as an operator comes that binds at
least as tightly as `lowest`, it takes that and its right operand. -/
def climb (operand : Reader Expr) (lowest : Nat) (left : Expr) : Reader Expr :=
  foldWhile (operatorFrom? lowest)
    (fun left op => readOperand (readBinary operand (op.1.precedence + 1)) left op.1) left

theorem readBinary_eq (operand : Reader Expr) (lowest : Nat) :
    readBinary operand lowest = operand >>= climb operand lowest := by
  rw [readBinary]
  rfl

variable {p : Passage} {n k : Nat} {input rest : List Token}

theorem gives_expect_of_terminal {kind : TokenKind} {expected : Expectation} (t : Terminal kind)
    (ts : List Token) : (p.expect kind expected).Gives (t.1 :: ts) t.1 ts := by
  refine gives_bind.mpr ⟨some t.1, ts, gives_eat.mpr (.inl ⟨t.1, rfl, t.2, rfl⟩), ?_⟩
  exact gives_pure.mpr ⟨rfl, rfl⟩

/-- Where nothing more is asked for (`Ends`), a repetition ends. -/
theorem gives_foldWhile_of_ends {f : TokenKind → Option β} {body : α → β → Reader α} {a : α}
    (h : Ends f rest) : (foldWhile f body a).Gives rest a rest :=
  gives_foldWhile.mpr (.inl ⟨h, rfl, rfl⟩)

/-- One round of a repetition (`foldWhile`), and the repetition from what it made. -/
theorem gives_foldWhile_of_round {f : TokenKind → Option β} {body : α → β → Reader α} {a b c : α}
    {t : Token} {ts behind : List Token} {x : β} (hx : f t.kind = some x)
    (hround : (body a x).Gives ts c behind) (hmore : (foldWhile f body c).Gives behind b rest) :
    (foldWhile f body a).Gives (t :: ts) b rest :=
  gives_foldWhile.mpr (.inr ⟨t, ts, x, c, behind, rfl, hx, hround, hmore⟩)

/-! ### What is derived is read

One lemma for each constructor of `Derivation`, then the recursion over it. -/

/-- The readers with `n` levels left make the value of the input and leave the rest. Behind the
operands of a stratum, and behind its operations, the loop `climb` goes on with what stands
there. -/
def Symbol.Reads (p : Passage) (n : Nat) :
    (s : Symbol) → s.Value → List Token → List Token → Prop
  | expression, e, input, rest => (readExpression p (nested p n)).Gives input e rest
  | stratum k, e, input, rest => ∀ lowest, lowest ≤ k → ∀ e' rest',
    (climb (readUnary p (nested p n)) lowest e).Gives rest e' rest' →
      (readBinary (readUnary p (nested p n)) lowest).Gives input e' rest'
  | operations k, f, input, rest => ∀ left lowest, lowest ≤ k → ∀ e' rest',
    (climb (readUnary p (nested p n)) lowest (f left)).Gives rest e' rest' →
      (climb (readUnary p (nested p n)) lowest left).Gives input e' rest'
  | unary, e, input, rest => (readUnary p (nested p n)).Gives input e rest
  | accesses, f, input, rest => ∀ left,
    (foldWhile Access.ofToken? (readAccess p (nested p n)) left).Gives input (f left) rest
  | arguments, es, input, rest =>
    (readArguments (readExpression p (nested p n))).Gives input es rest
  | moreArguments, es, input, rest => ∀ done,
    (foldWhile comma? (readArgument (readExpression p (nested p n))) done).Gives input
      (es.reverse ++ done) rest
  | primary, e, input, rest => (readPrimary p (nested p n)).Gives input e rest

namespace Symbol.Reads

variable {ts us : List Token} {inner : Nat}

/-- The operands of a stratum are what `readBinary` makes, if no operator of it stands behind. -/
theorem readBinary {e : Expr} (h : (stratum k).Reads p n e input rest)
    (hrest : (stratum k).Stops rest) :
    (Expr.readBinary (readUnary p (nested p n)) k).Gives input e rest :=
  h k (Nat.le_refl k) e rest (gives_foldWhile_of_ends hrest.2)

theorem plain {e : Expr} (h : (stratum 1).Reads p n e input rest)
    (hrest : expression.Stops rest) : expression.Reads p n e input rest := by
  refine gives_bind.mpr ⟨e, rest, h.readBinary ⟨hrest.1, hrest.2.1⟩, ?_⟩
  refine gives_bind.mpr ⟨none, rest, gives_eat.mpr (.inr ⟨hrest.2.2, rfl, rfl⟩), ?_⟩
  exact gives_pure.mpr ⟨rfl, rfl⟩

theorem choice {e e' e'' : Expr} {mark : Terminal .question} {colon : Terminal .colon}
    (hcondition : (stratum 1).Reads p (inner + 1) e input (mark.1 :: ts))
    (hconsequent : expression.Reads p inner e' ts (colon.1 :: us))
    (halternate : expression.Reads p inner e'' us rest) :
    expression.Reads p (inner + 1) (.ternary e e' e'' (e.span.cover e''.span)) input rest := by
  have hfirst := hcondition.readBinary (stops_of_question mark ts)
  refine gives_bind.mpr ⟨e, mark.1 :: ts, hfirst, ?_⟩
  refine gives_bind.mpr ⟨some mark.1, ts, gives_eat.mpr (.inl ⟨mark.1, rfl, mark.2, rfl⟩), ?_⟩
  refine gives_bind.mpr ⟨e', colon.1 :: us, hconsequent, ?_⟩
  refine gives_bind.mpr ⟨colon.1, us, gives_expect_of_terminal colon us, ?_⟩
  exact gives_bind.mpr ⟨e'', rest, halternate, gives_pure.mpr ⟨rfl, rfl⟩⟩

theorem operand {e : Expr} (h : unary.Reads p n e input rest) :
    (stratum 7).Reads p n e input rest := by
  intro lowest _ e' rest' hclimb
  rw [readBinary_eq]
  exact gives_bind.mpr ⟨e, rest, h, hclimb⟩

theorem chain {e : Expr} {f : Expr → Expr} (hfirst : (stratum (k + 1)).Reads p n e input ts)
    (hmore : (operations k).Reads p n f ts rest) : (stratum k).Reads p n (f e) input rest := by
  intro lowest hlowest e' rest' hclimb
  exact hfirst lowest (Nat.le_succ_of_le hlowest) e' rest'
    (hmore e lowest hlowest e' rest' hclimb)

theorem operation {t : Token} {op : BinaryOp} {e : Expr} {f : Expr → Expr}
    (hop : (t.kind, op) ∈ operatorsAt k) (hright : (stratum (k + 1)).Reads p n e ts us)
    (hstops : (stratum (k + 1)).Stops us) (hmore : (operations k).Reads p n f us rest) :
    (operations k).Reads p n (fun left => f (.binary op left e (left.span.cover e.span)))
      (t :: ts) rest := by
  intro left lowest hlowest e' rest' hclimb
  obtain ⟨htoken, rfl⟩ := mem_operatorsAt.mp hop
  refine gives_foldWhile_of_round (operatorFrom?_eq_some htoken hlowest) ?_
    (hmore _ lowest hlowest e' rest' hclimb)
  exact gives_bind.mpr ⟨e, us, hright.readBinary hstops, gives_pure.mpr ⟨rfl, rfl⟩⟩

theorem applied {t : Token} {op : UnaryOp} {e : Expr} (hop : (t.kind, op) ∈ unaryOperators)
    (h : unary.Reads p inner e ts rest) :
    unary.Reads p (inner + 1) (.unary op e (t.span.cover e.span)) (t :: ts) rest := by
  have hop := mem_unaryOperators.mp hop
  refine gives_bind.mpr ⟨some (op, t), ts, gives_nextIf.mpr (.inl ⟨t, op, rfl, hop, rfl⟩), ?_⟩
  exact gives_bind.mpr ⟨e, rest, h, gives_pure.mpr ⟨rfl, rfl⟩⟩

theorem accessed {e : Expr} {f : Expr → Expr} (hinput : Ends UnaryOp.ofToken? input)
    (hfirst : primary.Reads p n e input ts) (hmore : accesses.Reads p n f ts rest) :
    unary.Reads p n (f e) input rest := by
  refine gives_bind.mpr ⟨none, input, gives_nextIf.mpr (.inr ⟨hinput, rfl, rfl⟩), ?_⟩
  exact gives_bind.mpr ⟨e, ts, hfirst, hmore e⟩

theorem property {dot : Terminal .dot} {name : Terminal .identifier} {f : Expr → Expr}
    (h : accesses.Reads p n f ts rest) :
    accesses.Reads p n (fun left => f (.member left (ofIdentifier p name.1) false
      (left.span.cover name.1.span))) (dot.1 :: name.1 :: ts) rest := by
  intro left
  refine gives_foldWhile_of_round (by rw [dot.2]; rfl) ?_ (h _)
  exact gives_bind.mpr ⟨name.1, ts, gives_expect_of_terminal name ts, gives_pure.mpr ⟨rfl, rfl⟩⟩

theorem index {opening : Terminal .lBracket} {closing : Terminal .rBracket} {e : Expr}
    {f : Expr → Expr} (hinside : expression.Reads p inner e ts (closing.1 :: us))
    (hmore : accesses.Reads p (inner + 1) f us rest) :
    accesses.Reads p (inner + 1) (fun left => f (.member left e true
      (left.span.cover closing.1.span))) (opening.1 :: ts) rest := by
  intro left
  refine gives_foldWhile_of_round (by rw [opening.2]; rfl) ?_ (hmore _)
  refine gives_bind.mpr ⟨e, closing.1 :: us, hinside, ?_⟩
  exact gives_bind.mpr
    ⟨closing.1, us, gives_expect_of_terminal closing us, gives_pure.mpr ⟨rfl, rfl⟩⟩

theorem call {opening : Terminal .lParen} {closing : Terminal .rParen} {es : List Expr}
    {f : Expr → Expr} (hinside : arguments.Reads p inner es ts (closing.1 :: us))
    (hmore : accesses.Reads p (inner + 1) f us rest) :
    accesses.Reads p (inner + 1) (fun left => f (.call left es (left.span.cover closing.1.span)))
      (opening.1 :: ts) rest := by
  intro left
  refine gives_foldWhile_of_round (by rw [opening.2]; rfl) ?_ (hmore _)
  refine gives_bind.mpr ⟨es, closing.1 :: us, hinside, ?_⟩
  exact gives_bind.mpr
    ⟨closing.1, us, gives_expect_of_terminal closing us, gives_pure.mpr ⟨rfl, rfl⟩⟩

theorem noArgument (hrest : arguments.Stops rest) : arguments.Reads p n [] rest rest := by
  obtain ⟨t, ts, rfl, ht⟩ := hrest
  refine gives_bind.mpr ⟨some t, t :: ts, gives_peek.mpr ⟨rfl, rfl⟩, ?_⟩
  rw [if_pos (by rw [Option.any_some, ht]; rfl)]
  exact gives_pure.mpr ⟨rfl, rfl⟩

theorem firstArgument {t : Token} {e : Expr} {es : List Expr} (ht : t.kind ≠ .rParen)
    (hfirst : expression.Reads p n e (t :: ts) us) (hmore : moreArguments.Reads p n es us rest) :
    arguments.Reads p n (e :: es) (t :: ts) rest := by
  refine gives_bind.mpr ⟨some t, t :: ts, gives_peek.mpr ⟨rfl, rfl⟩, ?_⟩
  rw [if_neg (by rw [Option.any_some, beq_iff_eq]; exact ht)]
  refine gives_bind.mpr ⟨e, us, hfirst, ?_⟩
  -- the arguments are collected newest first
  refine gives_bind.mpr ⟨es.reverse ++ [e], rest, hmore [e], gives_pure.mpr ⟨?_, rfl⟩⟩
  simp

theorem noMoreArgument (hrest : moreArguments.Stops rest) :
    moreArguments.Reads p n [] rest rest := by
  obtain ⟨t, ts, rfl, ht⟩ := hrest
  intro done
  apply gives_foldWhile_of_ends
  exact .cons (by rw [ht]; rfl) ts

theorem nextArgument {comma : Terminal .comma} {e : Expr} {es : List Expr}
    (hnext : expression.Reads p n e ts us) (hmore : moreArguments.Reads p n es us rest) :
    moreArguments.Reads p n (e :: es) (comma.1 :: ts) rest := by
  intro done
  have hmore := hmore (e :: done)
  rw [← List.singleton_append, ← List.append_assoc, ← List.reverse_cons] at hmore
  refine gives_foldWhile_of_round (by rw [comma.2]; rfl) ?_ hmore
  exact gives_bind.mpr ⟨e, us, hnext, gives_pure.mpr ⟨rfl, rfl⟩⟩

theorem number {t : Terminal .number} {x : Binary64}
    (hx : NumberLiteral.value? (t.1.text p.source).toList = some x) :
    primary.Reads p n (.number x t.1.span) (t.1 :: rest) rest := by
  refine gives_bind.mpr ⟨some t.1, rest, ⟨rfl, rfl⟩, ?_⟩
  simp only [t.2, hx]
  exact gives_pure.mpr ⟨rfl, rfl⟩

theorem string {t : Terminal .string} :
    primary.Reads p n (.string (String.ofList (Quoted.value (t.1.text p.source).toList)) t.1.span)
      (t.1 :: rest) rest := by
  refine gives_bind.mpr ⟨some t.1, rest, ⟨rfl, rfl⟩, ?_⟩
  simp only [t.2]
  exact gives_pure.mpr ⟨rfl, rfl⟩

theorem boolean {t : Terminal .boolean} :
    primary.Reads p n (.boolean (t.1.text p.source == "true") t.1.span) (t.1 :: rest) rest := by
  refine gives_bind.mpr ⟨some t.1, rest, ⟨rfl, rfl⟩, ?_⟩
  simp only [t.2]
  exact gives_pure.mpr ⟨rfl, rfl⟩

theorem identifier {t : Terminal .identifier} :
    primary.Reads p n (.identifier (t.1.text p.source) t.1.span) (t.1 :: rest) rest := by
  refine gives_bind.mpr ⟨some t.1, rest, ⟨rfl, rfl⟩, ?_⟩
  simp only [t.2]
  exact gives_pure.mpr ⟨rfl, rfl⟩

theorem group {opening : Terminal .lParen} {closing : Terminal .rParen} {e : Expr}
    (h : expression.Reads p inner e ts (closing.1 :: rest)) :
    primary.Reads p (inner + 1) e (opening.1 :: ts) rest := by
  refine gives_bind.mpr ⟨some opening.1, ts, ⟨rfl, rfl⟩, ?_⟩
  simp only [opening.2]
  refine gives_bind.mpr ⟨e, closing.1 :: rest, h, ?_⟩
  exact gives_bind.mpr
    ⟨closing.1, rest, gives_expect_of_terminal closing rest, gives_pure.mpr ⟨rfl, rfl⟩⟩

end Symbol.Reads

/-- Where a derivation opens a level (`nesting`) there is one left, so the readers inside have one
less. -/
theorem exists_level {m : Nat} (h : m + 1 ≤ n) : ∃ inner, n = inner + 1 ∧ m ≤ inner :=
  ⟨n - 1, by omega, by omega⟩

/-- What is derived is read, if no more levels are needed than are left and what stands behind does
not go on with it (`Symbol.Stops`). The recursion is over the derivation. -/
theorem Derivation.reads {s : Symbol} (d : Derivation p.source s) (hn : d.nesting ≤ n)
    (hrest : s.Stops rest) : s.Reads p n d.tree (d.tokens ++ rest) rest := by
  induction d generalizing n rest with
  | plain d ih => exact .plain (ih hn ⟨hrest.1, hrest.2.1⟩) hrest
  | choice condition mark consequent colon alternate ihc iht ihe =>
    obtain ⟨hcondition, hbranches⟩ := Nat.max_le.mp hn
    obtain ⟨hconsequent, halternate⟩ := Nat.max_le.mp hbranches
    -- both alternatives open the same level
    obtain ⟨inner, rfl, hlevel⟩ := exists_level hconsequent
    rw [choice_append]
    exact .choice (ihc hcondition (Symbol.stops_of_question mark _))
      (iht hlevel (Symbol.stops_of_mark (by simp) colon _))
      (ihe (Nat.le_of_succ_le_succ halternate) hrest)
  | operand d ih => exact .operand (ih hn hrest.1)
  | chain hk first more ih ihm =>
    obtain ⟨hfirst, hmore⟩ := Nat.max_le.mp hn
    rw [chain_append]
    exact .chain (ih hfirst (more.stops_operations hrest)) (ihm hmore hrest)
  | noOperation => exact fun _ _ _ _ _ hclimb => hclimb
  | operation t op hop right more ih ihm =>
    obtain ⟨hright, hmore⟩ := Nat.max_le.mp hn
    have hstops := more.stops_operations hrest
    rw [operation_append]
    exact .operation hop (ih hright hstops) hstops (ihm hmore hrest)
  | applied t op hop inside ih =>
    obtain ⟨inner, rfl, hlevel⟩ := exists_level hn
    exact .applied hop (ih hlevel hrest)
  | accessed first more ih ihm =>
    obtain ⟨hfirst, hmore⟩ := Nat.max_le.mp hn
    rw [accessed_append]
    refine .accessed ?_ (ih hfirst trivial) (ihm hmore hrest)
    obtain ⟨t, ts, hhead, hnone⟩ := first.exists_head_primary
    rw [hhead]
    exact .cons hnone _
  | noAccess => exact fun _ => gives_foldWhile_of_ends hrest
  | property dot name more ih => exact .property (ih hn hrest)
  | index opening inside closing more ih ihm =>
    obtain ⟨hinside, hmore⟩ := Nat.max_le.mp hn
    obtain ⟨inner, rfl, hlevel⟩ := exists_level hinside
    rw [index_append]
    exact .index (ih hlevel (Symbol.stops_of_mark (by simp) closing _)) (ihm hmore hrest)
  | call opening inside closing more ih ihm =>
    obtain ⟨hinside, hmore⟩ := Nat.max_le.mp hn
    obtain ⟨inner, rfl, hlevel⟩ := exists_level hinside
    rw [call_append]
    exact .call (ih hlevel ⟨closing.1, _, rfl, closing.2⟩) (ihm hmore hrest)
  | noArgument => exact .noArgument hrest
  | firstArgument first more ih ihm =>
    obtain ⟨hfirst, hmore⟩ := Nat.max_le.mp hn
    -- the reader first looks whether the list is empty
    obtain ⟨t, ts, hhead, ht⟩ := first.exists_head (.inl rfl)
    have hreads := ih hfirst (more.stops_moreArguments hrest)
    rw [firstArgument_append]
    rw [hhead] at hreads ⊢
    exact .firstArgument ht hreads (ihm hmore hrest)
  | noMoreArgument => exact .noMoreArgument hrest
  | nextArgument comma next more ih ihm =>
    obtain ⟨hnext, hmore⟩ := Nat.max_le.mp hn
    rw [nextArgument_append]
    exact .nextArgument (ih hnext (more.stops_moreArguments hrest)) (ihm hmore hrest)
  | number t x hx => exact .number hx
  | string t => exact .string
  | boolean t => exact .boolean
  | identifier t => exact .identifier
  | group opening inside closing ih =>
    obtain ⟨inner, rfl, hlevel⟩ := exists_level hn
    rw [group_append]
    exact .group (ih hlevel (Symbol.stops_of_mark (by simp) closing _))

/-! ### What is read is derived

One lemma for each reader, each from those that it is put together from. -/

/-- The value is that of a derivation from the symbol of the tokens up to the rest, nested to fewer
than `n` levels. -/
def Symbol.Derived (p : Passage) (n : Nat) (s : Symbol) (v : s.Value) (input rest : List Token) :
    Prop :=
  ∃ d : Derivation p.source s, d.nesting < n ∧ d.tree = v ∧ input = d.tokens ++ rest

/-- All that the reader makes of tokens is `Derived` from the symbol. -/
def Symbol.Derives (p : Passage) (n : Nat) (s : Symbol) (r : Reader s.Value) : Prop :=
  ∀ input v rest, r.Gives input v rest → s.Derived p n v input rest

structure Nested.Derives (p : Passage) (n : Nat) (inner : Nested) : Prop where
  unary : Symbol.unary.Derives p n inner.unary
  expression : Symbol.expression.Derives p n inner.expression
  arguments : Symbol.arguments.Derives p n inner.arguments

section

variable {inner : Nested}

theorem derives_readPrimary (h : inner.Derives p n) :
    Symbol.primary.Derives p (n + 1) (readPrimary p inner) := by
  intro input e rest hgives
  obtain ⟨x, behind, ⟨hvalue, hbehind⟩, hmore⟩ := gives_bind.mp hgives
  cases input with
  | nil =>
    cases hvalue
    exact (not_gives_fail hmore).elim
  | cons t ts =>
    cases hvalue
    cases hbehind
    obtain ⟨kind, span⟩ := t
    -- the first token decides which rule it is
    cases kind with
    | number =>
      dsimp only at hmore
      split at hmore
      · rename_i x hx
        obtain ⟨rfl, rfl⟩ := gives_pure.mp hmore
        exact ⟨.number ⟨⟨.number, span⟩, rfl⟩ x hx, Nat.succ_pos n, rfl, rfl⟩
      · exact (not_gives_fail hmore).elim
    | string =>
      obtain ⟨rfl, rfl⟩ := gives_pure.mp hmore
      exact ⟨.string ⟨⟨.string, span⟩, rfl⟩, Nat.succ_pos n, rfl, rfl⟩
    | boolean =>
      obtain ⟨rfl, rfl⟩ := gives_pure.mp hmore
      exact ⟨.boolean ⟨⟨.boolean, span⟩, rfl⟩, Nat.succ_pos n, rfl, rfl⟩
    | identifier =>
      obtain ⟨rfl, rfl⟩ := gives_pure.mp hmore
      exact ⟨.identifier ⟨⟨.identifier, span⟩, rfl⟩, Nat.succ_pos n, rfl, rfl⟩
    | lParen =>
      obtain ⟨e', behind, hinside, hmore⟩ := gives_bind.mp hmore
      obtain ⟨t, us, hclose, hpure⟩ := gives_bind.mp hmore
      obtain ⟨rfl, ht⟩ := gives_expect hclose
      obtain ⟨rfl, rfl⟩ := gives_pure.mp hpure
      obtain ⟨d, hd, rfl, rfl⟩ := h.expression _ _ _ hinside
      refine ⟨.group ⟨⟨.lParen, span⟩, rfl⟩ d ⟨t, ht⟩, Nat.succ_lt_succ hd, rfl, ?_⟩
      exact Eq.symm Derivation.group_append
    | _ => exact (not_gives_fail hmore).elim

/-- The kind of the mark of an access. -/
def Access.kind : Access → TokenKind
  | property => .dot
  | index => .lBracket
  | call => .lParen

theorem Access.eq_kind {kind : TokenKind} {access : Access}
    (h : Access.ofToken? kind = some access) : kind = access.kind := by
  cases kind <;> cases h <;> rfl

/-- Each round of the loop over the marks is a rule of `accesses`, by induction on the
repetition. -/
theorem derives_accesses (h : inner.Derives p n) {left e : Expr}
    (hgives : (foldWhile Access.ofToken? (readAccess p inner) left).Gives input e rest) :
    ∃ d : Derivation p.source .accesses,
      d.nesting < n + 1 ∧ d.tree left = e ∧ input = d.tokens ++ rest := by
  induction hlength : input.length using Nat.strongRecOn generalizing input left with
  | ind size ih =>
    rcases gives_foldWhile.mp hgives with
      ⟨-, rfl, rfl⟩ | ⟨t, ts, access, left', behind, rfl, haccess, hround, hmore⟩
    · exact ⟨.noAccess, Nat.succ_pos n, rfl, rfl⟩
    · -- a round leaves fewer tokens
      have hlt : behind.length < size := by
        have := hround.suffix.length_le
        rw [← hlength, List.length_cons]
        omega
      obtain ⟨more, hnesting, rfl, rfl⟩ := ih _ hlt hmore rfl
      have ht := Access.eq_kind haccess
      cases access with
      | property =>
        obtain ⟨name, us, hname, hpure⟩ := gives_bind.mp hround
        obtain ⟨rfl, hkind⟩ := gives_expect hname
        obtain ⟨rfl, rfl⟩ := gives_pure.mp hpure
        exact ⟨.property ⟨t, ht⟩ ⟨name, hkind⟩ more, hnesting, rfl, rfl⟩
      | index =>
        obtain ⟨e', us, hinside, hclosing⟩ := gives_bind.mp hround
        obtain ⟨d, hd, rfl, rfl⟩ := h.expression _ _ _ hinside
        obtain ⟨closing, vs, hclosing, hpure⟩ := gives_bind.mp hclosing
        obtain ⟨rfl, hkind⟩ := gives_expect hclosing
        obtain ⟨rfl, rfl⟩ := gives_pure.mp hpure
        refine ⟨.index ⟨t, ht⟩ d ⟨closing, hkind⟩ more, ?_, rfl, ?_⟩
        · exact Nat.max_lt.mpr ⟨Nat.succ_lt_succ hd, hnesting⟩
        · exact Eq.symm Derivation.index_append
      | call =>
        obtain ⟨es, us, hinside, hclosing⟩ := gives_bind.mp hround
        obtain ⟨d, hd, rfl, rfl⟩ := h.arguments _ _ _ hinside
        obtain ⟨closing, vs, hclosing, hpure⟩ := gives_bind.mp hclosing
        obtain ⟨rfl, hkind⟩ := gives_expect hclosing
        obtain ⟨rfl, rfl⟩ := gives_pure.mp hpure
        refine ⟨.call ⟨t, ht⟩ d ⟨closing, hkind⟩ more, ?_, rfl, ?_⟩
        · exact Nat.max_lt.mpr ⟨Nat.succ_lt_succ hd, hnesting⟩
        · exact Eq.symm Derivation.call_append

theorem derives_readUnary (h : inner.Derives p n) :
    Symbol.unary.Derives p (n + 1) (readUnary p inner) := by
  intro input e rest hgives
  obtain ⟨x, behind, hnext, hmore⟩ := gives_bind.mp hgives
  rcases gives_nextIf.mp hnext with ⟨t, op, rfl, hop, rfl⟩ | ⟨-, rfl, rfl⟩
  · obtain ⟨e', us, hinside, hpure⟩ := gives_bind.mp hmore
    obtain ⟨d, hd, rfl, rfl⟩ := h.unary _ _ _ hinside
    obtain ⟨rfl, rfl⟩ := gives_pure.mp hpure
    exact ⟨.applied t op (mem_unaryOperators.mpr hop) d, Nat.succ_lt_succ hd, rfl, rfl⟩
  · obtain ⟨e', us, hprimary, haccesses⟩ := gives_bind.mp hmore
    obtain ⟨first, hfirst, rfl, rfl⟩ := derives_readPrimary h _ _ _ hprimary
    obtain ⟨more, hnesting, rfl, rfl⟩ := derives_accesses h haccesses
    refine ⟨.accessed first more, Nat.max_lt.mpr ⟨hfirst, hnesting⟩, rfl, ?_⟩
    exact Eq.symm Derivation.accessed_append

end

/-! #### Climbing

The loop reads operators of all strata, and the rules have one stratum each. -/

namespace Derivation

variable {source : String}

/-- Operands of a `.stratum` are also those of a looser one, with no operation of it. -/
theorem exists_loosened {j : Nat} (d : Derivation source (.stratum j)) (hk : k ≤ j) (hj : j ≤ 7) :
    ∃ d' : Derivation source (.stratum k),
      d'.tokens = d.tokens ∧ d'.tree = d.tree ∧ d'.nesting = d.nesting := by
  obtain ⟨i, rfl⟩ := Nat.exists_eq_add_of_le hk
  induction i with
  | zero => exact ⟨d, rfl, rfl, rfl⟩
  | succ i ih =>
    obtain ⟨d', htokens, htree, hnesting⟩ :=
      ih (chain (by omega) d noOperation) (Nat.le_add_right k i) (by omega)
    exact ⟨d', htokens.trans (List.append_nil _), htree, hnesting.trans (Nat.max_zero _)⟩

variable {t : Token} {op : BinaryOp}

/-- One more operation behind others of the same stratum (`.operations`), by recursion over
these. -/
theorem exists_more (hop : (t.kind, op) ∈ operatorsAt k)
    (right : Derivation source (.stratum (k + 1))) : (d : Derivation source (.operations k)) →
    ∃ d' : Derivation source (.operations k),
      d'.tokens = d.tokens ++ t :: right.tokens ∧
      (∀ left, d'.tree left = .binary op (d.tree left) right.tree
        ((d.tree left).span.cover right.tree.span)) ∧
      d'.nesting = max d.nesting right.nesting
  | noOperation =>
    ⟨operation t op hop right noOperation, congrArg (t :: ·) (List.append_nil _), fun _ => rfl,
      Nat.max_comm _ _⟩
  | operation u op' hop' first more => by
    obtain ⟨more', htokens, htree, hnesting⟩ := exists_more hop right more
    refine ⟨operation u op' hop' first more', ?_, fun left => htree _, ?_⟩
    · rw [operation_append, ← htokens]
      rfl
    · show max first.nesting more'.nesting = max (max first.nesting more.nesting) right.nesting
      rw [hnesting, Nat.max_assoc]

/-- One more operation behind the operands of its stratum, which end with operations. -/
theorem exists_snoc (hop : (t.kind, op) ∈ operatorsAt k)
    (d : Derivation source (.stratum k)) (right : Derivation source (.stratum (k + 1))) :
    ∃ d' : Derivation source (.stratum k),
      d'.tokens = d.tokens ++ t :: right.tokens ∧
      d'.tree = .binary op d.tree right.tree (d.tree.span.cover right.tree.span) ∧
      d'.nesting = max d.nesting right.nesting := by
  cases d with
  | operand d =>
    have := (mem_operatorsAt.mp hop).2
    have := op.precedence_le_tightest
    exact absurd this (by rw [‹op.precedence = 7›]; decide)
  | chain hk first more =>
    obtain ⟨more', htokens, htree, hnesting⟩ := exists_more hop right more
    refine ⟨chain hk first more', ?_, htree _, ?_⟩
    · rw [chain_append, ← htokens]
      rfl
    · show max first.nesting more'.nesting = max (max first.nesting more.nesting) right.nesting
      rw [hnesting, Nat.max_assoc]

end Derivation

theorem of_operatorFrom? {lowest : Nat} {kind : TokenKind}
    {op : {op : BinaryOp // lowest ≤ op.precedence}} (h : operatorFrom? lowest kind = some op) :
    BinaryOp.ofToken? kind = some op.1 := by
  unfold operatorFrom? at h
  obtain ⟨op', hop', hfound⟩ := Option.bind_eq_some_iff.mp h
  split at hfound
  · cases hfound
    exact hop'
  · cases hfound

/-- What the climb makes of operands: it takes all operators that bind tightly enough, so what it
leaves stops the stratum `lowest`. -/
def Climbs (p : Passage) (n lowest : Nat) (r : Reader Expr) : Prop :=
  ∀ input e rest, r.Gives input e rest →
    (Symbol.stratum lowest).Derived p n e input rest ∧ Ends (operatorFrom? lowest) rest

variable {operand : Reader Expr} {lowest : Nat}

/-- The loop starts behind operands of a stratum `j`, with no operator ahead that binds tighter. So
the next operator is of that stratum or a looser one, of which these are operands too. -/
theorem derives_climb
    (hright : ∀ k, lowest ≤ k → k < 7 → Climbs p n (k + 1) (readBinary operand (k + 1))) {j : Nat}
    (hj : j ≤ 7) (hle : lowest ≤ j) (c : Derivation p.source (.stratum j)) (hc : c.nesting < n)
    (hends : Ends (operatorFrom? (j + 1)) input) {e : Expr}
    (hgives : (climb operand lowest c.tree).Gives input e rest) :
    (Symbol.stratum lowest).Derived p n e (c.tokens ++ input) rest ∧
      Ends (operatorFrom? lowest) rest := by
  induction hlength : input.length using Nat.strongRecOn generalizing input j with
  | ind size ih =>
    rcases gives_foldWhile.mp hgives with
      ⟨hnone, rfl, rfl⟩ | ⟨t, ts, ⟨op, hop⟩, e', behind, rfl, hfound, hround, hmore⟩
    · obtain ⟨d, htokens, htree, hnesting⟩ := c.exists_loosened hle hj
      exact ⟨⟨d, hnesting ▸ hc, htree, by rw [htokens]⟩, hnone⟩
    · have htoken := of_operatorFrom? hfound
      have hlt : op.precedence < 7 := Nat.lt_succ_of_le op.precedence_le_tightest
      -- an operator that binds tighter would have been taken before
      have hloose : op.precedence ≤ j := by
        apply Nat.le_of_not_lt
        intro htight
        have hnone := hends t rfl
        rw [operatorFrom?_eq_some htoken htight] at hnone
        cases hnone
      obtain ⟨r, us, hoperand, hpure⟩ := gives_bind.mp hround
      obtain ⟨rfl, rfl⟩ := gives_pure.mp hpure
      obtain ⟨⟨right, hright, rfl, rfl⟩, hbehind⟩ := hright op.precedence hop hlt _ _ _ hoperand
      -- the loop goes on behind operands of the stratum of the operator
      obtain ⟨left, hltokens, hltree, hlnesting⟩ := c.exists_loosened hloose hj
      obtain ⟨d, htokens, htree, hnesting⟩ :=
        Derivation.exists_snoc (mem_operatorsAt.mpr ⟨htoken, rfl⟩) left right
      rw [← hltree, ← htree] at hmore
      have hshort : behind.length < size := by
        rw [← hlength, List.length_cons, List.length_append]
        omega
      have hd : d.nesting < n := by
        rw [hnesting, hlnesting]
        exact Nat.max_lt.mpr ⟨hc, hright⟩
      have hall := ih _ hshort (Nat.le_of_lt hlt) hop d hd hbehind hmore rfl
      rw [htokens, hltokens] at hall
      simpa using hall

theorem climbs_readBinary (hoperand : Symbol.unary.Derives p n operand) (hlowest : lowest ≤ 7) :
    Climbs p n lowest (readBinary operand lowest) := by
  -- the operands on the right have fewer strata of operators
  induction hsize : 7 - lowest using Nat.strongRecOn generalizing lowest with
  | ind size ih =>
    intro input e rest hgives
    rw [readBinary_eq] at hgives
    obtain ⟨e', behind, hfirst, hclimb⟩ := gives_bind.mp hgives
    obtain ⟨d, hd, rfl, rfl⟩ := hoperand _ _ _ hfirst
    refine derives_climb ?_ (Nat.le_refl 7) hlowest (.operand d) hd ?_ hclimb
    · intro k hk hlt
      exact ih _ (by omega) (Nat.succ_le_of_lt hlt) rfl
    · -- no operator binds more tightly than those of the last stratum
      intro t _
      apply operatorFrom?_eq_none
      intro op _
      exact Nat.lt_succ_of_le (Nat.le_succ_of_le op.precedence_le_tightest)

/-! #### Expressions

What is nested is read one level deeper, by the readers of the level (`Nested`). So each reader is
followed with the readers inside as an assumption, and `derives_nested` is the induction on the
levels. -/

variable {inner : Nested}

theorem derives_readExpression (h : inner.Derives p n) :
    Symbol.expression.Derives p (n + 1) (readExpression p inner) := by
  intro input e rest hgives
  obtain ⟨e', behind, hcondition, hmore⟩ := gives_bind.mp hgives
  have hclimbs : Climbs p (n + 1) 1 (readBinary (readUnary p inner) BinaryOp.loosest) :=
    climbs_readBinary (derives_readUnary h) (by decide)
  obtain ⟨⟨condition, hc, rfl, rfl⟩, -⟩ := hclimbs _ _ _ hcondition
  obtain ⟨x, us, heat, hbehind⟩ := gives_bind.mp hmore
  -- either a `?` follows and both branches are read, or the condition was the whole expression
  rcases gives_eat.mp heat with ⟨t, rfl, ht, rfl⟩ | ⟨-, rfl, rfl⟩
  · obtain ⟨e', vs, hconsequent, hcolon⟩ := gives_bind.mp hbehind
    obtain ⟨consequent, hd, rfl, rfl⟩ := h.expression _ _ _ hconsequent
    obtain ⟨u, ws, hmark, hlast⟩ := gives_bind.mp hcolon
    obtain ⟨rfl, hu⟩ := gives_expect hmark
    obtain ⟨e', xs, halternate, hpure⟩ := gives_bind.mp hlast
    obtain ⟨alternate, hd', rfl, rfl⟩ := h.expression _ _ _ halternate
    obtain ⟨rfl, rfl⟩ := gives_pure.mp hpure
    refine ⟨.choice condition ⟨t, ht⟩ consequent ⟨u, hu⟩ alternate, ?_, rfl, ?_⟩
    · exact Nat.max_lt.mpr ⟨hc, Nat.max_lt.mpr ⟨Nat.succ_lt_succ hd, Nat.succ_lt_succ hd'⟩⟩
    · exact Eq.symm Derivation.choice_append
  · obtain ⟨rfl, rfl⟩ := gives_pure.mp hbehind
    exact ⟨.plain condition, hc, rfl, rfl⟩

/-- The arguments behind the first one (`.moreArguments`), which are collected newest first, by
induction on the repetition. -/
theorem derives_moreArguments {expression : Reader Expr}
    (h : Symbol.expression.Derives p n expression) (hn : 0 < n) {done es : List Expr}
    (hgives : (foldWhile comma? (readArgument expression) done).Gives input es rest) :
    ∃ d : Derivation p.source .moreArguments,
      d.nesting < n ∧ es = d.tree.reverse ++ done ∧ input = d.tokens ++ rest := by
  induction hlength : input.length using Nat.strongRecOn generalizing input done with
  | ind size ih =>
    rcases gives_foldWhile.mp hgives with
      ⟨-, rfl, rfl⟩ | ⟨t, ts, _, done', behind, rfl, hcomma, hround, hmore⟩
    · exact ⟨.noMoreArgument, hn, rfl, rfl⟩
    · obtain ⟨e, us, hargument, hpure⟩ := gives_bind.mp hround
      obtain ⟨rfl, rfl⟩ := gives_pure.mp hpure
      obtain ⟨next, hnext, rfl, rfl⟩ := h _ _ _ hargument
      -- an argument and its comma leave fewer tokens
      have hlt : behind.length < size := by
        rw [← hlength, List.length_cons, List.length_append]
        omega
      obtain ⟨more, hnesting, rfl, rfl⟩ := ih _ hlt hmore rfl
      have ht : t.kind = .comma := by
        unfold comma? at hcomma
        split at hcomma
        · assumption
        · cases hcomma
      refine ⟨.nextArgument ⟨t, ht⟩ next more, Nat.max_lt.mpr ⟨hnext, hnesting⟩, ?_, ?_⟩
      · show more.tree.reverse ++ next.tree :: done = (next.tree :: more.tree).reverse ++ done
        simp
      · exact Eq.symm Derivation.nextArgument_append

theorem derives_readArguments {expression : Reader Expr}
    (h : Symbol.expression.Derives p n expression) (hn : 0 < n) :
    Symbol.arguments.Derives p n (readArguments expression) := by
  intro input es rest hgives
  obtain ⟨x, behind, hpeek, hmore⟩ := gives_bind.mp hgives
  obtain ⟨rfl, rfl⟩ := gives_peek.mp hpeek
  split at hmore
  · obtain ⟨rfl, rfl⟩ := gives_pure.mp hmore
    exact ⟨.noArgument, hn, rfl, rfl⟩
  · obtain ⟨e, us, hfirst, hbehind⟩ := gives_bind.mp hmore
    obtain ⟨first, hd, rfl, rfl⟩ := h _ _ _ hfirst
    obtain ⟨done, vs, hloop, hpure⟩ := gives_bind.mp hbehind
    obtain ⟨more, hd', rfl, rfl⟩ := derives_moreArguments h hn hloop
    obtain ⟨rfl, rfl⟩ := gives_pure.mp hpure
    refine ⟨.firstArgument first more, Nat.max_lt.mpr ⟨hd, hd'⟩, ?_, ?_⟩
    · show first.tree :: more.tree = (more.tree.reverse ++ [first.tree]).reverse
      simp
    · exact Eq.symm Derivation.firstArgument_append

/-- With `n` levels left, derivations are nested to fewer than `n`, by induction on `n`: each level
is made of the readers above with those of the level before. -/
theorem derives_nested (p : Passage) (n : Nat) : (nested p n).Derives p n := by
  induction n with
  | zero =>
    -- without a level left every reader fails
    have hfail : ∀ {α : Type} {input rest : List Token} {a : α},
        ¬ (p.failTooDeep : Reader α).Gives input a rest := by
      intro α input rest a hgives
      obtain ⟨x, behind, -, hfail⟩ := gives_bind.mp hgives
      exact not_gives_fail hfail
    exact ⟨fun _ _ _ h => (hfail h).elim, fun _ _ _ h => (hfail h).elim,
      fun _ _ _ h => (hfail h).elim⟩
  | succ n ih =>
    exact ⟨derives_readUnary ih, derives_readExpression ih,
      derives_readArguments (derives_readExpression ih) (Nat.succ_pos n)⟩

/-- **The reader accepts exactly its grammar.** Tokens are read as an expression (`Expr.parse`) if and
only if that is the tree of a `Derivation` of all of them with a `nesting` of at most 256, and there is
no more than one derivation. The tokens can be any; where their spans do not fit the source, names and
literals have the texts that `Span.text` gives, which is total. -/
theorem parse_iff_derivation (source : String) (tokens : List Token) :
    (∀ e, parse source tokens = .ok e ↔ ∃ d : Derivation source .expression,
      d.tokens = tokens ∧ d.nesting ≤ 256 ∧ d.tree = e) ∧
    ∀ d d' : Derivation source .expression, d.tokens = tokens → d'.tokens = tokens → d = d' := by
  -- behind the last token nothing goes on
  have hend : Symbol.expression.Stops [] := ⟨nofun, nofun, nofun⟩
  constructor
  · intro e
    rw [parse_eq_ok_iff]
    constructor
    · intro hread
      obtain ⟨d, hnesting, htree, htokens⟩ :=
        (derives_nested (Passage.of source tokens) (maxNesting + 1)).expression _ _ _ hread
      rw [List.append_nil] at htokens
      exact ⟨d, htokens.symm, Nat.le_of_lt_succ hnesting, htree⟩
    · rintro ⟨d, htokens, hnesting, rfl⟩
      subst htokens
      have hreads := @Derivation.reads (Passage.of source d.tokens) 256 [] _ d hnesting hend
      rw [List.append_nil] at hreads
      exact hreads
  · rintro d d' rfl htokens
    exact (d.determined d' [] [] hend hend (by rw [htokens])).1

/-- In `a + b * c` the product is the right operand of the sum, and cannot be read otherwise. -/
theorem parse_iff_derivation_product :
    let source := "a+b*c"
    let name := fun n : Nat => Expr.identifier ((Span.mk n (n + 1)).text source) ⟨n, n + 1⟩
    let tokens : List Token := [⟨.identifier, ⟨0, 1⟩⟩, ⟨.plus, ⟨1, 2⟩⟩, ⟨.identifier, ⟨2, 3⟩⟩,
      ⟨.star, ⟨3, 4⟩⟩, ⟨.identifier, ⟨4, 5⟩⟩]
    parse source tokens = .ok (.binary .add (name 0) (.binary .mul (name 2) (name 4) ⟨2, 5⟩) ⟨0, 5⟩) ∧
      ∃ d : Derivation source .expression, d.tokens = tokens ∧
        ∀ d' : Derivation source .expression, d'.tokens = tokens → d' = d := by
  -- the derivation of `a+b*c` at its own stratum, loosened to an expression at the end
  intro source name tokens
  let operand (n : Nat) : Derivation source (.stratum 7) :=
    .operand (.accessed (.identifier ⟨⟨.identifier, ⟨n, n + 1⟩⟩, rfl⟩) .noAccess)
  let product : Derivation source (.stratum 6) := .chain (by decide) (operand 2)
    (.operation ⟨.star, ⟨3, 4⟩⟩ .mul (by decide) (operand 4) .noOperation)
  let sum : Derivation source (.stratum 5) :=
    .chain (by decide) (.chain (by decide) (operand 0) .noOperation)
      (.operation ⟨.plus, ⟨1, 2⟩⟩ .add (by decide) product .noOperation)
  obtain ⟨d, htokens, htree, hnesting⟩ := sum.exists_loosened (show 1 ≤ 5 by decide) (by decide)
  obtain ⟨hiff, hunique⟩ := parse_iff_derivation source tokens
  have hsmall : (Derivation.plain d).nesting ≤ 256 := by
    show d.nesting ≤ 256
    rw [hnesting]
    decide
  exact ⟨(hiff _).mpr ⟨.plain d, htokens, hsmall, htree⟩, .plain d, htokens,
    fun d' htokens' => hunique d' (.plain d) htokens' htokens⟩

end Expr

end RsxInspect
