import RsxInspect.Expr.Grammar

/-!
# Spans of expressions

All spans of a tree come from its tokens: a leaf stands where its token stands, and what is put
together covers its parts. So whatever holds of the spans of some tokens and of every span that
covers two such spans (`Passage.Closed`) holds of all spans of the tree that the tokens make up, and
of the span that is reported if they make up none (`Expr.spans_of_parse`).

The readers of the grammar keep it one by one (`Reader.Keeps`), and a reader that is put together
from such readers does so too.
-/

namespace RsxInspect

/-! ### Spans in a tree -/

namespace Expr

mutual

/-- The spans of an expression and of all that is in it. It recurs with `spansAll` over
arguments. -/
def spans : Expr → List Span
  | number _ s | string _ s | boolean _ s | identifier _ s => [s]
  | binary _ left right s => s :: (spans left ++ spans right)
  | unary _ operand s => s :: spans operand
  | member object property _ s => s :: (spans object ++ spans property)
  | call callee arguments s => s :: (spans callee ++ spansAll arguments)
  | ternary condition consequent alternate s =>
    s :: (spans condition ++ spans consequent ++ spans alternate)

def spansAll : List Expr → List Span
  | [] => []
  | e :: es => spans e ++ spansAll es

end

theorem span_mem_spans (e : Expr) : e.span ∈ e.spans := by
  cases e <;> exact List.mem_cons_self ..

theorem spansAll_eq_flatMap (es : List Expr) : spansAll es = es.flatMap spans := by
  induction es with
  | nil => rfl
  | cons e es ih =>
    show spans e ++ spansAll es = _
    rw [ih, List.flatMap_cons]

end Expr

/-! ### Readers

A reader that `Keeps` a property gives it to whatever it returns. The property speaks of the tokens
in front of the rest, so steps in a row put their ranges together. -/

namespace Reader

/-- From tokens whose spans are all of the sort `S`, the reader makes a value with the property `A`,
or it reports that something is not expected (`unexpectedToken`), on a span of this sort. -/
def Keeps (S : Span → Prop) (A : α → Prop) (r : Reader α) : Prop :=
  ∀ input, (∀ t ∈ input, S t.span) →
    match (r input).result with
    | .ok a => A a
    | .error d => S d.span ∧ d.kind = .unexpectedToken

variable {S : Span → Prop}

theorem keeps_pure {A : α → Prop} {a : α} (ha : A a) : Keeps S A (pure a) := fun _ _ => ha

theorem keeps_fail {A : α → Prop} {d : Diagnostic} (hspan : S d.span)
    (hkind : d.kind = .unexpectedToken) : Keeps S A (fail d : Reader α) := fun _ _ => ⟨hspan, hkind⟩

theorem keeps_peek : Keeps S (fun x => ∀ t ∈ x, S t.span) peek := by
  intro input hinput t ht
  exact hinput t (List.mem_of_mem_head? ht)

theorem keeps_next : Keeps S (fun x => ∀ t ∈ x, S t.span) next := by
  intro input hinput
  cases input with
  | nil => exact fun t ht => (nomatch ht)
  | cons u us =>
    intro t ht
    cases ht
    exact hinput u (List.mem_cons_self ..)

theorem keeps_nextIf {f : TokenKind → Option α} :
    Keeps S (fun x => ∀ y ∈ x, S y.2.span) (nextIf f) := by
  intro input hinput
  cases input with
  | nil => exact fun y hy => (nomatch hy)
  | cons u us =>
    rw [nextIf]
    cases f u.kind with
    | none => exact fun y hy => (nomatch hy)
    | some a =>
      intro y hy
      cases hy
      exact hinput u (List.mem_cons_self ..)

theorem keeps_bind {A : α → Prop} {B : β → Prop} {r : Reader α} {k : α → Reader β}
    (hr : Keeps S A r) (hk : ∀ a, A a → Keeps S B (k a)) : Keeps S B (r >>= k) := by
  intro input hinput
  have hfirst := hr input hinput
  rw [bind_apply, Reader.bind]
  cases hresult : (r input).result with
  | error d =>
    rw [hresult] at hfirst
    simp only
    exact hfirst
  | ok a =>
    rw [hresult] at hfirst
    simp only
    exact hk a hfirst (r input).rest fun t ht => hinput t ((r input).suffix.subset ht)

theorem keeps_eat {kind : TokenKind} : Keeps S (fun x => ∀ t ∈ x, S t.span) (eat kind) := by
  refine keeps_bind keeps_nextIf fun x hx => keeps_pure fun t ht => ?_
  obtain ⟨y, hy, rfl⟩ := Option.map_eq_some_iff.mp ht
  exact hx y hy

theorem keeps_foldWhile {A : α → Prop} {f : TokenKind → Option β} {body : α → β → Reader α} {a : α}
    (ha : A a) (hbody : ∀ a x, A a → Keeps S A (body a x)) : Keeps S A (foldWhile f body a) := by
  intro input
  -- each round leaves a shorter input, so the induction is on its length
  induction hn : input.length using Nat.strongRecOn generalizing input a with
  | ind n ih =>
    intro hinput
    cases input with
    | nil =>
      rw [foldWhile]
      exact ha
    | cons t ts =>
      have hmore : ∀ u ∈ ts, S u.span := fun u hu => hinput u (List.mem_cons_of_mem _ hu)
      rw [foldWhile]
      cases f t.kind with
      | none => exact ha
      | some x =>
        have hround := hbody a x ha ts hmore
        rcases ho : body a x ts with ⟨result, rest, hsuffix⟩
        rw [ho] at hround
        cases result with
        | error d =>
          simp only [ho]
          exact hround
        | ok b =>
          have hlt : rest.length < n := by
            have := hsuffix.length_le
            rw [← hn, List.length_cons]
            omega
          simp only [ho]
          exact ih _ hlt hround rest rfl fun u hu => hmore u (hsuffix.subset hu)

end Reader

/-! ### The grammar

The span of a node is the cover of the spans of its parts, or goes from its first to its last token.
So all spans in it are `Within` the tokens that were read. -/

namespace Expr

open Reader

/-- The expression has spans of the sort `S` only, in all of its parts. -/
def Within (S : Span → Prop) (e : Expr) : Prop := ∀ s ∈ e.spans, S s

variable {S : Span → Prop} {p : Passage} {inner : Nested}

theorem Within.span {e : Expr} (h : e.Within S) : S e.span := h _ e.span_mem_spans

/-- An expression is `Within` the sort if its parts are: its own span and those of its operands. -/
theorem Within.cons {e : Expr} {s : Span} {parts : List Span} (heq : e.spans = s :: parts) (hs : S s)
    (h : ∀ s ∈ parts, S s) : e.Within S := by
  intro x hx
  rw [heq] at hx
  rcases List.mem_cons.mp hx with rfl | hx
  · exact hs
  · exact h x hx

/-- The end of the passage is of the sort `S`, and so is what covers (`Span.cover`) two spans that
are. -/
structure Passage.Closed (S : Span → Prop) (p : Passage) : Prop where
  stop : S p.endSpan
  cover : ∀ s t, S s → S t → S (s.cover t)

/-- What can be nested in an expression keeps the sort of its spans (`Reader.Keeps`). -/
structure Nested.Keeps (S : Span → Prop) (inner : Nested) : Prop where
  unary : Reader.Keeps S (Within S) inner.unary
  expression : Reader.Keeps S (Within S) inner.expression
  arguments : Reader.Keeps S (fun es => ∀ e ∈ es, e.Within S) inner.arguments

theorem keeps_failOn {A : α → Prop} {expected : Expectation} {t : Token} (ht : S t.span) :
    Keeps S A (p.failOn expected t : Reader α) := keeps_fail ht rfl

theorem keeps_expect (hp : p.Closed S) {kind : TokenKind} {expected : Expectation} :
    Keeps S (fun t => S t.span) (p.expect kind expected) := by
  refine keeps_bind keeps_eat fun x hx => ?_
  cases x with
  | some t => exact keeps_pure (hx t rfl)
  | none =>
    refine keeps_bind keeps_peek fun y hy => ?_
    cases y with
    | some t => exact keeps_failOn (hy t rfl)
    | none => exact keeps_fail hp.stop rfl

theorem keeps_failTooDeep {A : α → Prop} (hp : p.Closed S) :
    Keeps S A (p.failTooDeep : Reader α) := by
  refine keeps_bind keeps_peek fun x hx => keeps_fail ?_ rfl
  cases x with
  | none => exact hp.stop
  | some t => exact hx t rfl

theorem keeps_readPrimary (hp : p.Closed S) (h : inner.Keeps S) :
    Keeps S (Within S) (readPrimary p inner) := by
  refine keeps_bind keeps_next fun x hx => ?_
  cases x with
  | none => exact keeps_fail hp.stop rfl
  | some t =>
    have ht : S t.span := hx t rfl
    -- a leaf stands where its token stands
    have hleaf : ∀ {e : Expr}, e.spans = [t.span] → e.Within S :=
      fun heq => .cons heq ht fun s hs => (nomatch hs)
    dsimp only
    split
    · split
      · exact keeps_pure (hleaf rfl)
      · exact keeps_failOn ht
    · exact keeps_pure (hleaf rfl)
    · exact keeps_pure (hleaf rfl)
    · exact keeps_pure (hleaf rfl)
    · refine keeps_bind h.expression fun e he => ?_
      exact keeps_bind (keeps_expect hp) fun _ _ => keeps_pure he
    · exact keeps_failOn ht

theorem keeps_readAccess (hp : p.Closed S) (h : inner.Keeps S) {e : Expr} (he : e.Within S)
    (access : Access) : Keeps S (Within S) (readAccess p inner e access) := by
  -- what is put together covers the expression and the last token
  have hcover : ∀ {t : Token}, S t.span → S (e.span.cover t.span) := hp.cover _ _ he.span
  cases access with
  | property =>
    refine keeps_bind (keeps_expect hp) fun name hname => keeps_pure ?_
    refine .cons rfl (hcover hname) fun s hs => ?_
    rcases List.mem_append.mp hs with hs | hs
    · exact he s hs
    · rw [List.mem_singleton.mp hs]
      exact hname
  | index =>
    refine keeps_bind h.expression fun index hindex => ?_
    refine keeps_bind (keeps_expect hp) fun close hclose => keeps_pure ?_
    exact .cons rfl (hcover hclose) fun s hs => (List.mem_append.mp hs).elim (he s) (hindex s)
  | call =>
    refine keeps_bind h.arguments fun arguments harguments => ?_
    refine keeps_bind (keeps_expect hp) fun close hclose => keeps_pure ?_
    refine .cons rfl (hcover hclose) fun s hs => ?_
    rcases List.mem_append.mp hs with hs | hs
    · exact he s hs
    · rw [spansAll_eq_flatMap] at hs
      obtain ⟨argument, hargument, hs⟩ := List.mem_flatMap.mp hs
      exact harguments argument hargument s hs

theorem keeps_readUnary (hp : p.Closed S) (h : inner.Keeps S) :
    Keeps S (Within S) (readUnary p inner) := by
  refine keeps_bind keeps_nextIf fun x hx => ?_
  cases x with
  | none =>
    refine keeps_bind (keeps_readPrimary hp h) fun e he => ?_
    exact keeps_foldWhile he fun e access he => keeps_readAccess hp h he access
  | some x =>
    refine keeps_bind h.unary fun operand hoperand => keeps_pure ?_
    exact .cons rfl (hp.cover _ _ (hx x rfl) hoperand.span) hoperand

theorem keeps_readBinary (hp : p.Closed S) {operand : Reader Expr}
    (h : Keeps S (Within S) operand) (lowest : Nat) :
    Keeps S (Within S) (readBinary operand lowest) := by
  -- the operands on the right have fewer strata of operators
  induction hn : BinaryOp.tightest + 1 - lowest using Nat.strongRecOn generalizing lowest with
  | ind n ih =>
    rw [readBinary]
    refine keeps_bind h fun e he => keeps_foldWhile he fun left op hleft => ?_
    have hlowest := op.2
    have htightest := op.1.precedence_le_tightest
    refine keeps_bind (ih _ (by omega) (op.1.precedence + 1) rfl) fun right hright => keeps_pure ?_
    exact .cons rfl (hp.cover _ _ hleft.span hright.span) fun s hs =>
      (List.mem_append.mp hs).elim (hleft s) (hright s)

theorem keeps_readExpression (hp : p.Closed S) (h : inner.Keeps S) :
    Keeps S (Within S) (readExpression p inner) := by
  refine keeps_bind (keeps_readBinary hp (keeps_readUnary hp h) _) fun condition hcondition => ?_
  refine keeps_bind keeps_eat fun x _ => ?_
  cases x with
  | none => exact keeps_pure hcondition
  | some t =>
    refine keeps_bind h.expression fun consequent hconsequent => ?_
    refine keeps_bind (keeps_expect hp) fun _ _ => ?_
    refine keeps_bind h.expression fun alternate halternate => keeps_pure ?_
    refine .cons rfl (hp.cover _ _ hcondition.span halternate.span) fun s hs => ?_
    rcases List.mem_append.mp hs with hs | hs
    · exact (List.mem_append.mp hs).elim (hcondition s) (hconsequent s)
    · exact halternate s hs

theorem keeps_readArguments {expression : Reader Expr} (h : Keeps S (Within S) expression) :
    Keeps S (fun es => ∀ e ∈ es, e.Within S) (readArguments expression) := by
  refine keeps_bind keeps_peek fun x _ => ?_
  split
  · exact keeps_pure fun e he => (nomatch he)
  · refine keeps_bind h fun first hfirst => ?_
    have hall : ∀ e ∈ [first], e.Within S := by
      intro e he
      rw [List.mem_singleton.mp he]
      exact hfirst
    -- the arguments are collected newest first
    have hmore : Keeps S (fun es => ∀ e ∈ es, e.Within S)
        (foldWhile comma? (readArgument expression) [first]) := by
      refine keeps_foldWhile hall fun arguments _ harguments => ?_
      refine keeps_bind h fun argument hargument => keeps_pure fun e he => ?_
      rcases List.mem_cons.mp he with rfl | he
      · exact hargument
      · exact harguments e he
    exact keeps_bind hmore fun arguments harguments =>
      keeps_pure fun e he => harguments e (List.mem_reverse.mp he)

theorem keeps_nested (hp : p.Closed S) (n : Nat) : (nested p n).Keeps S := by
  induction n with
  | zero => exact ⟨keeps_failTooDeep hp, keeps_failTooDeep hp, keeps_failTooDeep hp⟩
  | succ n ih =>
    exact ⟨keeps_readUnary hp ih, keeps_readExpression hp ih,
      keeps_readArguments (keeps_readExpression hp ih)⟩

/-- **Spans of expressions.** If the tokens and the place behind the last of them are of some sort
that covering keeps (`Passage.Closed`), then the tree is made of spans of this sort, and so is the
span of the report if there is no tree. -/
theorem spans_of_parse {source : String} {tokens : List Token}
    (hp : (Passage.of source tokens).Closed S) (htokens : ∀ t ∈ tokens, S t.span) :
    match parse source tokens with
    | .ok e => ∀ s ∈ e.spans, S s
    | .error d => S d.span ∧ d.kind = .unexpectedToken := by
  have hread := (keeps_nested hp (maxNesting + 1)).expression tokens htokens
  unfold parse
  dsimp only
  cases hresult : (read (Passage.of source tokens) tokens).result with
  | error d =>
    rw [read] at hresult
    rw [hresult] at hread
    exact hread
  | ok e =>
    cases hrest : (read (Passage.of source tokens) tokens).rest with
    | nil =>
      rw [read] at hresult
      rw [hresult] at hread
      exact hread
    | cons t ts =>
      -- tokens are left over
      have hsuffix := (read (Passage.of source tokens) tokens).suffix
      rw [hrest] at hsuffix
      exact ⟨htokens t (hsuffix.subset (List.mem_cons_self ..)), rfl⟩

end Expr

end RsxInspect
