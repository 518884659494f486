import RsxInspect.Proofs.Expr.Acceptance
import RsxInspect.Proofs.Template.Ordered

/-!
# How expressions lie in their tokens

Parentheses leave no node, so the spans of a tree do not tile the tokens that it was read from. They are
in order all the same: the operands of a node follow each other inside of it, and its leaves stand on
tokens from left to right (`Expr.laid_of_parse`).

Expressions that follow each other are `Laid` in their tokens, between two offsets. What is laid in
tokens in a row can be put together (`Laid.append`), more tokens on both sides change nothing
(`Laid.widen`), and a node can be put over its operands (`Laid.node`). Each rule of the grammar is made
of these. Operations and accesses take what stands on their left into a node, so for them the left side
is any expression that is laid already (`Symbol.LaidOut`).
-/

namespace RsxInspect

namespace Expr

/-! ### Nodes

The operands of a node are the nodes right below it, and the leaves those without any. -/

/-- What an expression is put together from, from left to right. -/
def operands : Expr → List Expr
  | number _ _ | string _ _ | boolean _ _ | identifier _ _ => []
  | binary _ left right _ => [left, right]
  | unary _ operand _ => [operand]
  | member object property _ _ => [object, property]
  | call callee arguments _ => callee :: arguments
  | ternary condition consequent alternate _ => [condition, consequent, alternate]

mutual

/-- The expression and all that are in it, each in front of its `operands`. -/
def nodes : Expr → List Expr
  | number x s => [number x s]
  | string x s => [string x s]
  | boolean x s => [boolean x s]
  | identifier x s => [identifier x s]
  | binary op left right s => binary op left right s :: (nodes left ++ nodes right)
  | unary op operand s => unary op operand s :: nodes operand
  | member object property computed s =>
    member object property computed s :: (nodes object ++ nodes property)
  | call callee arguments s => call callee arguments s :: (nodes callee ++ nodesAll arguments)
  | ternary condition consequent alternate s =>
    ternary condition consequent alternate s ::
      (nodes condition ++ (nodes consequent ++ nodes alternate))

def nodesAll : List Expr → List Expr
  | [] => []
  | e :: es => nodes e ++ nodesAll es

end

theorem nodes_eq (e : Expr) : e.nodes = e :: nodesAll e.operands := by
  cases e with
  | unary | binary | member | ternary => simp only [nodes, nodesAll, operands, List.append_nil]
  | _ => rfl

theorem nodesAll_append (es es' : List Expr) : nodesAll (es ++ es') = nodesAll es ++ nodesAll es' := by
  induction es with
  | nil => rfl
  | cons e es ih =>
    show nodes e ++ nodesAll (es ++ es') = nodes e ++ nodesAll es ++ nodesAll es'
    rw [ih, List.append_assoc]

theorem nodesAll_singleton (e : Expr) : nodesAll [e] = e.nodes := List.append_nil _

/-- Those of the expressions that have no `operands`. -/
def leavesOf (es : List Expr) : List Expr := es.filter (·.operands.isEmpty)

/-- The literals and names of an expression, from left to right. -/
def leaves (e : Expr) : List Expr := leavesOf e.nodes

/-! ### Where nodes stand

Most nodes go from the start of their first operand to the end of the last one. A call and an index
end with a closing bracket instead (`ClosedBy`), and a negation starts with its operator
(`OpenedBy`). -/

/-- The expression is not empty, and its `operands` follow each other in it. -/
def Encloses (x : Expr) : Prop :=
  x.span.start < x.span.stop ∧ Span.Ordered x.span.start (x.operands.map Expr.span) x.span.stop

/-- Among the tokens there are in a row those that are read as `first`, an opening bracket, and what
goes up to its closing bracket. All of them are read as `x`, which stands from `first` to the
closing bracket. -/
def ClosedBy (source : String) (tokens : List Token) (first : Expr) (opening closing : TokenKind)
    (x : Expr) : Prop :=
  ∃ front t inside u, front ++ t :: (inside ++ [u]) <:+: tokens ∧ t.kind = opening ∧ u.kind = closing ∧
    parse source front = .ok first ∧ parse source (front ++ t :: (inside ++ [u])) = .ok x ∧
    x.span = ⟨first.span.start, u.span.stop⟩

/-- Among the tokens there are in a row the operator and those that are read as its operand, and `x`
stands from the one to the other. -/
def OpenedBy (source : String) (tokens : List Token) (op : UnaryOp) (operand x : Expr) : Prop :=
  ∃ t ts, t :: ts <:+: tokens ∧ UnaryOp.ofToken? t.kind = some op ∧ parse source ts = .ok operand ∧
    x.span = ⟨t.span.start, operand.span.stop⟩

/-- Where an expression starts and stops: with its operands or with the marks around them, as its
rule has it. -/
def Anchored (source : String) (tokens : List Token) : Expr → Prop
  | number _ _ | string _ _ | boolean _ _ | identifier _ _ => True
  | binary _ left right s => s = ⟨left.span.start, right.span.stop⟩
  | unary op operand s => OpenedBy source tokens op operand (unary op operand s)
  | member object property false s => s = ⟨object.span.start, property.span.stop⟩
  | member object property true s =>
    ClosedBy source tokens object .lBracket .rBracket (member object property true s)
  | call callee arguments s =>
    ClosedBy source tokens callee .lParen .rParen (call callee arguments s)
  | ternary condition _ alternate s => s = ⟨condition.span.start, alternate.span.stop⟩

/-- More tokens on both sides change nothing of where an expression is `Anchored`. -/
theorem Anchored.widen {source : String} {ts us : List Token} {x : Expr} (h : x.Anchored source ts)
    (hts : ts <:+: us) : x.Anchored source us := by
  have hclosed : ∀ {first x : Expr} {opening closing : TokenKind},
      ClosedBy source ts first opening closing x → ClosedBy source us first opening closing x := by
    rintro first x opening closing ⟨front, t, inside, u, hrow, hclosed⟩
    exact ⟨front, t, inside, u, hrow.trans hts, hclosed⟩
  cases x with
  | number | string | boolean | identifier => trivial
  | binary | ternary => exact h
  | unary op operand s =>
    obtain ⟨t, ts', hrow, hopened⟩ := h
    exact ⟨t, ts', hrow.trans hts, hopened⟩
  | member object property computed s =>
    cases computed with
    | false => exact h
    | true => exact hclosed h
  | call => exact hclosed h

/-! ### Laying expressions

`Laid` is about a row of expressions: the operands of a node are laid in a row before the node is
put over them. -/

/-- The expressions follow each other in the tokens, between two offsets. Of all that is in them,
the leaves stand on tokens from left to right, and each one `Encloses` its operands and is
`Anchored`. -/
structure Laid (source : String) (a : Nat) (ts : List Token) (b : Nat) (es : List Expr) : Prop where
  spans : Span.Ordered a (es.map Expr.span) b
  leaves : ((leavesOf (nodesAll es)).map Expr.span).Sublist (ts.map Token.span)
  nodes : ∀ x ∈ nodesAll es, x.Encloses ∧ x.Anchored source ts

namespace Laid

variable {source : String} {a b c d : Nat} {ts us : List Token} {es es' : List Expr} {e : Expr}

theorem nil (h : a ≤ b) : Laid source a ts b [] := ⟨h, List.nil_sublist _, nofun⟩

theorem widen (h : Laid source b ts c es) (ha : a ≤ b) (hts : ts <:+: us) (hd : c ≤ d) :
    Laid source a us d es :=
  ⟨(h.spans.mono hd).mono_left ha, h.leaves.trans (hts.sublist.map _), fun x hx =>
    ⟨(h.nodes x hx).1, (h.nodes x hx).2.widen hts⟩⟩

theorem append (h : Laid source a ts b es) (h' : Laid source b us c es') :
    Laid source a (ts ++ us) c (es ++ es') := by
  refine ⟨?_, ?_, fun x hx => ?_⟩
  · rw [List.map_append]
    exact Span.Ordered.append_iff.mpr ⟨b, h.spans, h'.spans⟩
  · rw [nodesAll_append, leavesOf, List.filter_append, List.map_append, List.map_append]
    exact h.leaves.append h'.leaves
  · rw [nodesAll_append] at hx
    rcases List.mem_append.mp hx with hx | hx
    · exact ⟨(h.nodes x hx).1, (h.nodes x hx).2.widen (List.prefix_append ts us).isInfix⟩
    · exact ⟨(h'.nodes x hx).1, (h'.nodes x hx).2.widen (List.suffix_append ts us).isInfix⟩

/-- A mark in front of what is `Laid` out that is no leaf takes a token and leaves no expression. -/
theorem cons {t : Token} (hspan : t.span.start < t.span.stop) (ha : a ≤ t.span.start)
    (h : Laid source t.span.stop ts b es) : Laid source a (t :: ts) b es :=
  h.widen (Nat.le_trans ha (Nat.le_of_lt hspan)) (List.suffix_cons t ts).isInfix (Nat.le_refl b)

/-- A leaf stands where its token stands, and is `Laid` in that token alone. -/
theorem leaf {t : Token} (ht : Span.Ordered a [t.span] b) (hleaf : e.operands = [])
    (hspan : e.span = t.span) : Laid source a [t] b [e] := by
  -- a leaf is its own list of nodes, so all three parts speak about `e` alone
  have hnodes : nodesAll [e] = [e] := by
    rw [nodesAll_singleton, nodes_eq, hleaf]
    rfl
  refine ⟨?_, ?_, fun x hx => ?_⟩
  · rw [List.map_singleton, hspan]
    exact ht
  · rw [hnodes, leavesOf, List.filter_cons_of_pos (by rw [hleaf]; rfl), List.filter_nil,
      List.map_singleton, hspan]
    exact List.Sublist.refl _
  · rw [hnodes, List.mem_singleton] at hx
    subst hx
    refine ⟨⟨?_, ?_⟩, ?_⟩
    · rw [hspan]
      exact ht.2.1
    · rw [hleaf, hspan]
      exact Nat.le_of_lt ht.2.1
    · cases x with
      | number | string | boolean | identifier => trivial
      | _ => cases hleaf

/-- A node is put over its operands, if it starts and stops with them or further out and is
`Anchored`. -/
theorem node (h : Laid source a ts b e.operands) (hne : e.operands ≠ [])
    (hspan : Span.Ordered e.span.start (e.operands.map Expr.span) e.span.stop)
    (ha : a ≤ e.span.start) (hb : e.span.stop ≤ b) (hanchored : e.Anchored source ts) :
    Laid source a ts b [e] := by
  have hnonempty : e.span.start < e.span.stop := by
    obtain ⟨first, more, hoperands⟩ := List.exists_cons_of_ne_nil hne
    rw [hoperands] at hspan
    obtain ⟨hstart, hfirst, hmore⟩ := hspan
    have := hmore.le
    omega
  have hnodes : nodesAll [e] = e :: nodesAll e.operands := by
    rw [nodesAll_singleton, nodes_eq]
  refine ⟨⟨ha, hnonempty, hb⟩, ?_, fun x hx => ?_⟩
  · rw [hnodes, leavesOf, List.filter_cons_of_neg (by simpa using hne)]
    exact h.leaves
  · rw [hnodes] at hx
    rcases List.mem_cons.mp hx with rfl | hx
    · exact ⟨⟨hnonempty, hspan⟩, hanchored⟩
    · exact h.nodes x hx

/-- A node that covers its `operands`, and what is behind them, from the first one on, as operations
and accesses do. -/
theorem node_from {first : Expr} {more : List Expr} {m : Nat} (h : Laid source a ts m (first :: more))
    (hoperands : e.operands = first :: more) (hstart : e.span.start = first.span.start)
    (hstop : Span.Ordered first.span.stop (more.map Expr.span) e.span.stop) (hm : m ≤ b)
    (hb : e.span.stop ≤ b) (hanchored : e.Anchored source ts) : Laid source a ts b [e] := by
  obtain ⟨ha, hfirst, -⟩ := h.spans
  refine node (hoperands ▸ h.widen (Nat.le_refl a) List.infix_rfl hm) ?_ ?_ (hstart ▸ ha) hb hanchored
  · rw [hoperands]
    exact List.cons_ne_nil _ _
  · rw [hoperands, hstart]
    exact ⟨Nat.le_refl _, hfirst, hstop⟩

end Laid

/-! ### What is read in a row

An access stands behind what it applies to, and both are read as one expression (`Accessible`),
behind which a further access can stand. -/

namespace Derivation

variable {source : String}

/-- What is derived of all tokens is what they are read as, by `Derivation.reads` with nothing
behind. -/
theorem parse_tokens (d : Derivation source .expression) (hn : d.nesting ≤ maxNesting) :
    parse source d.tokens = .ok d.tree := by
  have hreads := @reads (Passage.of source d.tokens) maxNesting [] _ d hn ⟨nofun, nofun, nofun⟩
  rw [List.append_nil] at hreads
  exact parse_eq_ok_iff.mpr hreads

theorem parse_tokens_of_unary (d : Derivation source .unary) (hn : d.nesting ≤ maxNesting) :
    parse source d.tokens = .ok d.tree := by
  obtain ⟨d', htokens, htree, hnesting⟩ :=
    (operand d).exists_loosened (show 1 ≤ 7 by decide) (Nat.le_refl 7)
  have hparse := (plain d').parse_tokens (hnesting.trans_le hn)
  change parse source d'.tokens = .ok d'.tree at hparse
  rw [htokens, htree] at hparse
  exact hparse

/-- Accesses behind accesses: one derivation of `.accesses` for both, whose tree takes the operand
through the first ones and then through the others. -/
theorem exists_accesses_append (more : Derivation source .accesses) :
    (d : Derivation source .accesses) → ∃ d' : Derivation source .accesses,
      d'.tokens = d.tokens ++ more.tokens ∧ (∀ left, d'.tree left = more.tree (d.tree left)) ∧
      d'.nesting = max d.nesting more.nesting
  | noAccess => ⟨more, rfl, fun _ => rfl, (Nat.zero_max _).symm⟩
  | property dot name rest => by
    obtain ⟨d', htokens, htree, hnesting⟩ := exists_accesses_append more rest
    exact ⟨property dot name d', congrArg (dot.1 :: name.1 :: ·) htokens, fun _ => htree _, hnesting⟩
  | index opening inside closing rest => by
    obtain ⟨d', htokens, htree, hnesting⟩ := exists_accesses_append more rest
    refine ⟨index opening inside closing d', ?_, fun _ => htree _, ?_⟩
    · rw [index_append, ← htokens]
      rfl
    · show max (inside.nesting + 1) d'.nesting = max (max (inside.nesting + 1) rest.nesting) _
      rw [hnesting, Nat.max_assoc]
  | call opening inside closing rest => by
    obtain ⟨d', htokens, htree, hnesting⟩ := exists_accesses_append more rest
    refine ⟨call opening inside closing d', ?_, fun _ => htree _, ?_⟩
    · rw [call_append, ← htokens]
      rfl
    · show max (inside.nesting + 1) d'.nesting = max (max (inside.nesting + 1) rest.nesting) _
      rw [hnesting, Nat.max_assoc]

end Derivation

/-- The tokens are read as an operand with its accesses, behind which more accesses may stand. -/
def Accessible (source : String) (ts : List Token) (e : Expr) : Prop :=
  ∃ (first : Derivation source .primary) (more : Derivation source .accesses),
    first.tokens ++ more.tokens = ts ∧ more.tree first.tree = e ∧
    max first.nesting more.nesting ≤ maxNesting

namespace Accessible

variable {source : String} {ts : List Token} {e : Expr}

theorem parse (h : Accessible source ts e) : Expr.parse source ts = .ok e := by
  obtain ⟨first, more, rfl, rfl, hnesting⟩ := h
  exact (Derivation.accessed first more).parse_tokens_of_unary hnesting

theorem append (h : Accessible source ts e) (more : Derivation source .accesses)
    (hn : more.nesting ≤ maxNesting) : Accessible source (ts ++ more.tokens) (more.tree e) := by
  obtain ⟨first, done, rfl, rfl, hnesting⟩ := h
  obtain ⟨done', htokens, htree, hnesting'⟩ := more.exists_accesses_append done
  refine ⟨first, done', ?_, htree _, ?_⟩
  · rw [htokens, List.append_assoc]
  · rw [hnesting', ← Nat.max_assoc]
    exact Nat.max_le.mpr ⟨hnesting, hn⟩

end Accessible

/-! ### The rules

One lemma for each rule of the grammar, then `Derivation.laidOut` is the recursion over the
derivation. The tokens that a rule has of its own, such as parentheses, only widen the range. -/

/-- What is derived is laid in its tokens. Operations and accesses are so behind every expression
that is laid in the tokens in front of them. -/
def Symbol.LaidOut (source : String) : (s : Symbol) → s.Value → List Token → Prop
  | expression, e, ts | stratum _, e, ts | unary, e, ts | primary, e, ts =>
    ∀ a b, Span.Ordered a (ts.map Token.span) b → Laid source a ts b [e]
  | operations _, f, ts => ∀ a front m left, Laid source a front m [left] →
    ∀ b, Span.Ordered m (ts.map Token.span) b → Laid source a (front ++ ts) b [f left]
  | accesses, f, ts => ∀ a front m left, Accessible source front left → Laid source a front m [left] →
    ∀ b, Span.Ordered m (ts.map Token.span) b → Laid source a (front ++ ts) b [f left]
  | arguments, es, ts | moreArguments, es, ts =>
    ∀ a b, Span.Ordered a (ts.map Token.span) b → Laid source a ts b es

namespace Symbol.LaidOut

variable {source : String} {k : Nat} {ts us vs : List Token} {e e' e'' : Expr} {es : List Expr}
  {f : Expr → Expr} {t u : Token}

theorem choice (hcondition : (stratum 1).LaidOut source e ts)
    (hconsequent : expression.LaidOut source e' us) (halternate : expression.LaidOut source e'' vs) :
    expression.LaidOut source (.ternary e e' e'' (e.span.cover e''.span))
      (ts ++ t :: (us ++ u :: vs)) := by
  intro a b hspans
  obtain ⟨m, hts, ht, ht', hspans⟩ := Span.Ordered.tokens_append_iff.mp hspans
  obtain ⟨m', hus, hu, hu', hvs⟩ := Span.Ordered.tokens_append_iff.mp hspans
  have hall : Laid source a (ts ++ t :: (us ++ u :: vs)) b [e, e', e''] :=
    (hcondition a m hts).append
      (((hconsequent _ m' hus).append ((halternate _ b hvs).cons hu' hu)).cons ht' ht)
  obtain ⟨-, he, hstart', he', hstart'', he'', hstop⟩ := hall.spans
  have hcover : e.span.cover e''.span = ⟨e.span.start, e''.span.stop⟩ :=
    Span.cover_eq (by omega) (by omega)
  rw [hcover]
  exact hall.node_from rfl rfl ⟨hstart', he', hstart'', he'', Nat.le_refl _⟩ (Nat.le_refl b) hstop rfl

theorem chain (hfirst : (stratum (k + 1)).LaidOut source e ts)
    (hmore : (operations k).LaidOut source f us) :
    (stratum k).LaidOut source (f e) (ts ++ us) := by
  intro a b hspans
  obtain ⟨m, hts, hus⟩ := Span.Ordered.tokens_append_iff.mp hspans
  exact hmore a ts m e (hfirst a m hts) b hus

theorem noOperation : (operations k).LaidOut source (fun left => left) [] := by
  intro a front m left hleft b hm
  rw [List.append_nil]
  exact hleft.widen (Nat.le_refl a) List.infix_rfl hm

theorem operation {op : BinaryOp} (hright : (stratum (k + 1)).LaidOut source e ts)
    (hmore : (operations k).LaidOut source f us) :
    (operations k).LaidOut source (fun left => f (.binary op left e (left.span.cover e.span)))
      (t :: (ts ++ us)) := by
  intro a front m left hleft b hspans
  obtain ⟨ht, ht', hspans⟩ := hspans
  obtain ⟨m', hts, hus⟩ := Span.Ordered.tokens_append_iff.mp hspans
  have hboth : Laid source a (front ++ t :: ts) m' [left, e] :=
    hleft.append ((hright _ m' hts).cons ht' ht)
  obtain ⟨-, hleft', hstart, he, hstop⟩ := hboth.spans
  have hcover : left.span.cover e.span = ⟨left.span.start, e.span.stop⟩ :=
    Span.cover_eq (by omega) (by omega)
  have hnode : Laid source a (front ++ t :: ts) m'
      [.binary op left e (left.span.cover e.span)] := by
    rw [hcover]
    exact hboth.node_from rfl rfl ⟨hstart, he, Nat.le_refl _⟩ (Nat.le_refl m') hstop rfl
  -- the next operation has this one on its left
  have hall := hmore a _ m' _ hnode b hus
  rwa [List.append_assoc] at hall

theorem applied {op : UnaryOp} (hop : UnaryOp.ofToken? t.kind = some op)
    (hparse : parse source ts = .ok e) (hinside : unary.LaidOut source e ts) :
    unary.LaidOut source (.unary op e (t.span.cover e.span)) (t :: ts) := by
  rintro a b ⟨ht, ht', hts⟩
  have hoperand := hinside _ b hts
  obtain ⟨hstart, he, hstop⟩ := hoperand.spans
  have hcover : t.span.cover e.span = ⟨t.span.start, e.span.stop⟩ :=
    Span.cover_eq (by omega) (by omega)
  rw [hcover]
  refine Laid.node (hoperand.cons ht' ht) (List.cons_ne_nil _ _) ?_ ht hstop ?_
  · exact ⟨show t.span.start ≤ e.span.start by omega, he, Nat.le_refl _⟩
  · exact ⟨t, ts, List.infix_rfl, hop, hparse, rfl⟩

theorem accessed (hfirst : primary.LaidOut source e ts) (haccessible : Accessible source ts e)
    (hmore : accesses.LaidOut source f us) : unary.LaidOut source (f e) (ts ++ us) := by
  intro a b hspans
  obtain ⟨m, hts, hus⟩ := Span.Ordered.tokens_append_iff.mp hspans
  exact hmore a ts m e haccessible (hfirst a m hts) b hus

theorem noAccess : accesses.LaidOut source (fun left => left) [] :=
  fun a front m left _ hleft b hm => noOperation (k := 1) a front m left hleft b hm

/-- An access and what stands behind it: the access makes a node of what is in front, and the others
go on with that. -/
theorem access {d : Derivation source .accesses} (hn : d.nesting ≤ maxNesting)
    (hd : accesses.LaidOut source d.tree d.tokens) (hmore : accesses.LaidOut source f us) :
    accesses.LaidOut source (fun left => f (d.tree left)) (d.tokens ++ us) := by
  intro a front m left haccessible hleft b hspans
  obtain ⟨m', hts, hus⟩ := Span.Ordered.tokens_append_iff.mp hspans
  have hnode := hd a front m left haccessible hleft m' hts
  have hall := hmore a _ m' _ (haccessible.append d hn) hnode b hus
  rwa [List.append_assoc] at hall

/-- A name behind a dot. -/
theorem property (dot : Terminal .dot) (name : Terminal .identifier) :
    accesses.LaidOut source (Derivation.property dot name .noAccess : Derivation source _).tree
      [dot.1, name.1] := by
  rintro a front m left - hleft b ⟨hdot, hdot', hname, hname', hb⟩
  have hleaf : Laid source dot.1.span.stop [name.1] b
      [.identifier (name.1.text source) name.1.span] := .leaf ⟨hname, hname', hb⟩ rfl rfl
  have hboth := hleft.append (hleaf.cons hdot' hdot)
  obtain ⟨-, hleft', hstart, -⟩ := hboth.spans
  have hcover : left.span.cover name.1.span = ⟨left.span.start, name.1.span.stop⟩ :=
    Span.cover_eq (show left.span.start ≤ name.1.span.start from
      Nat.le_trans (Nat.le_of_lt hleft') hstart)
      (Nat.le_trans hstart (Nat.le_of_lt hname'))
  show Laid source a (front ++ [dot.1, name.1]) b
    [.member left (.identifier (name.1.text source) name.1.span) false
      (left.span.cover name.1.span)]
  rw [hcover]
  exact hboth.node_from rfl rfl ⟨hstart, hname', Nat.le_refl _⟩ (Nat.le_refl b) hb rfl

/-- Brackets behind an expression, around what the access takes as its other operands: an index, or
the arguments of a call. -/
theorem bracketed {opening closing : TokenKind} {d : Derivation source .accesses}
    (hn : d.nesting ≤ maxNesting) (t : Terminal opening) (u : Terminal closing)
    (htokens : d.tokens = t.1 :: (ts ++ [u.1]))
    (hinside : ∀ a b, Span.Ordered a (ts.map Token.span) b → Laid source a ts b es)
    (hnode : ∀ left, (d.tree left).operands = left :: es ∧
      (d.tree left).span = left.span.cover u.1.span)
    (hanchored : ∀ left tokens, ClosedBy source tokens left opening closing (d.tree left) →
      (d.tree left).Anchored source tokens) :
    accesses.LaidOut source d.tree (t.1 :: (ts ++ [u.1])) := by
  rintro a front m left haccessible hleft b ⟨ht, ht', hspans⟩
  obtain ⟨m', hts, hu, hu', hb⟩ := Span.Ordered.tokens_append_iff.mp hspans
  have hall := hleft.append ((hinside _ m' hts).cons ht' ht)
  obtain ⟨-, hleft', hes⟩ := hall.spans
  have hstop : m' ≤ u.1.span.stop := Nat.le_trans hu (Nat.le_of_lt hu')
  have hspan : (d.tree left).span = ⟨left.span.start, u.1.span.stop⟩ := by
    rw [(hnode left).2]
    have := hes.le
    exact Span.cover_eq (by omega) (by omega)
  -- up to the closing bracket the row is an operand again
  have hparse := (haccessible.append d hn).parse
  rw [htokens] at hparse
  have hrow : front ++ t.1 :: ts <:+: front ++ t.1 :: (ts ++ [u.1]) := ⟨[], [u.1], by simp⟩
  refine (hall.widen (Nat.le_refl a) hrow (Nat.le_refl m')).node_from (hnode left).1 (by rw [hspan]) ?_
    (Nat.le_trans hstop hb) ?_ ?_
  · rw [hspan]
    exact hes.mono hstop
  · rw [hspan]
    exact hb
  · exact hanchored left _ ⟨front, t.1, ts, u.1, List.infix_rfl, t.2, u.2, haccessible.parse, hparse,
      hspan⟩

theorem noArgument : arguments.LaidOut source [] [] := fun _ _ hspans => .nil hspans

theorem firstArgument (hfirst : expression.LaidOut source e ts)
    (hmore : moreArguments.LaidOut source es us) :
    arguments.LaidOut source (e :: es) (ts ++ us) := by
  intro a b hspans
  obtain ⟨m, hts, hus⟩ := Span.Ordered.tokens_append_iff.mp hspans
  exact (hfirst a m hts).append (hmore m b hus)

theorem nextArgument (hnext : expression.LaidOut source e ts)
    (hmore : moreArguments.LaidOut source es us) :
    moreArguments.LaidOut source (e :: es) (t :: (ts ++ us)) := by
  rintro a b ⟨ht, ht', hspans⟩
  exact (firstArgument hnext hmore _ b hspans).cons ht' ht

/-- A leaf. -/
theorem leaf (hleaf : e.operands = []) (hspan : e.span = t.span) : primary.LaidOut source e [t] :=
  fun _ _ hspans => .leaf hspans hleaf hspan

theorem group (hinside : expression.LaidOut source e ts) :
    primary.LaidOut source e (t :: (ts ++ [u])) := by
  rintro a b ⟨ht, ht', hspans⟩
  obtain ⟨m, hts, hu, hu', hb⟩ := Span.Ordered.tokens_append_iff.mp hspans
  have hm : m ≤ b := Nat.le_trans hu (Nat.le_trans (Nat.le_of_lt hu') hb)
  have hwhole := (hinside _ m hts).widen (Nat.le_refl _) (List.prefix_append ts [u]).isInfix hm
  exact hwhole.cons ht' ht

end Symbol.LaidOut

/-- What is derived is laid in its tokens, by recursion over the derivation. -/
theorem Derivation.laidOut {source : String} {s : Symbol} (d : Derivation source s)
    (hn : d.nesting ≤ maxNesting) : s.LaidOut source d.tree d.tokens := by
  -- the bound on the nesting is split along with the tree; `applied` needs it for the read-back of
  -- its operand
  induction d with
  | plain d ih => exact ih hn
  | choice condition mark consequent colon alternate ihc iht ihe =>
    obtain ⟨hcondition, hbranches⟩ := Nat.max_le.mp hn
    obtain ⟨hconsequent, halternate⟩ := Nat.max_le.mp hbranches
    exact .choice (ihc hcondition) (iht (Nat.le_of_succ_le hconsequent))
      (ihe (Nat.le_of_succ_le halternate))
  | operand d ih => exact ih hn
  | chain hk first more ih ihm =>
    obtain ⟨hfirst, hmore⟩ := Nat.max_le.mp hn
    exact .chain (ih hfirst) (ihm hmore)
  | noOperation => exact .noOperation
  | operation t op hop right more ih ihm =>
    obtain ⟨hright, hmore⟩ := Nat.max_le.mp hn
    exact .operation (ih hright) (ihm hmore)
  | applied t op hop inside ih =>
    have hinside := Nat.le_of_succ_le hn
    exact .applied (mem_unaryOperators.mp hop) (inside.parse_tokens_of_unary hinside) (ih hinside)
  | accessed first more ih ihm =>
    obtain ⟨hfirst, hmore⟩ := Nat.max_le.mp hn
    have haccessible : Accessible source first.tokens first.tree :=
      ⟨first, .noAccess, List.append_nil _, rfl, Nat.max_le.mpr ⟨hfirst, Nat.zero_le _⟩⟩
    exact .accessed (ih hfirst) haccessible (ihm hmore)
  | noAccess => exact .noAccess
  | property dot name more ih =>
    exact .access (d := .property dot name .noAccess) (Nat.zero_le _) (.property dot name) (ih hn)
  | index opening inside closing more ih ihm =>
    obtain ⟨hinside, hmore⟩ := Nat.max_le.mp hn
    -- the access by itself is laid out first; `LaidOut.access` then joins it with those behind it
    let d : Derivation source .accesses := .index opening inside closing .noAccess
    have hd : d.nesting ≤ maxNesting := Nat.max_le.mpr ⟨hinside, Nat.zero_le _⟩
    have hone : Symbol.accesses.LaidOut source d.tree d.tokens :=
      .bracketed hd opening closing rfl (ih (Nat.le_of_succ_le hinside)) (fun _ => ⟨rfl, rfl⟩)
        fun _ _ hclosed => hclosed
    have hall := hone.access hd (ihm hmore)
    rwa [index_append] at hall
  | call opening inside closing more ih ihm =>
    obtain ⟨hinside, hmore⟩ := Nat.max_le.mp hn
    let d : Derivation source .accesses := .call opening inside closing .noAccess
    have hd : d.nesting ≤ maxNesting := Nat.max_le.mpr ⟨hinside, Nat.zero_le _⟩
    have hone : Symbol.accesses.LaidOut source d.tree d.tokens :=
      .bracketed hd opening closing rfl (ih (Nat.le_of_succ_le hinside)) (fun _ => ⟨rfl, rfl⟩)
        fun _ _ hclosed => hclosed
    have hall := hone.access hd (ihm hmore)
    rwa [call_append] at hall
  | noArgument => exact .noArgument
  | firstArgument first more ih ihm =>
    obtain ⟨hfirst, hmore⟩ := Nat.max_le.mp hn
    exact .firstArgument (ih hfirst) (ihm hmore)
  | noMoreArgument => exact fun _ _ hspans => .nil hspans
  | nextArgument comma next more ih ihm =>
    obtain ⟨hnext, hmore⟩ := Nat.max_le.mp hn
    exact .nextArgument (ih hnext) (ihm hmore)
  | number | string | boolean | identifier => exact .leaf rfl rfl
  | group opening inside closing ih => exact .group (ih (Nat.le_of_succ_le hn))

/-- **Trees lie in order.** If the tokens follow each other, and none of them is empty, then the leaves
of the tree that is read from them stand on tokens of their own from left to right. Every node encloses
its operands, one behind the other, and starts and stops with the first and the last of them, or with
its operator and its closing bracket (`Encloses`, `Anchored`). Nothing is asked of the source: what the
tree looks like depends on the texts of names and literals, which `Span.text` gives for any span, but
where its nodes stand does not. -/
theorem laid_of_parse {source : String} {tokens : List Token} {a b : Nat} {e : Expr}
    (htokens : Span.Ordered a (tokens.map Token.span) b) (h : parse source tokens = .ok e) :
    (e.leaves.map Expr.span).Sublist (tokens.map Token.span) ∧
      ∀ x ∈ e.nodes, x.Encloses ∧ x.Anchored source tokens := by
  obtain ⟨d, hnesting, rfl, hsplit⟩ :=
    (derives_nested (Passage.of source tokens) (maxNesting + 1)).expression _ _ _
      (parse_eq_ok_iff.mp h)
  rw [List.append_nil] at hsplit
  have hlaid := d.laidOut (Nat.le_of_lt_succ hnesting) a b (hsplit ▸ htokens)
  rw [← hsplit] at hlaid
  have hnodes := hlaid.nodes
  have hleaves := hlaid.leaves
  rw [nodesAll_singleton] at hnodes hleaves
  exact ⟨hleaves, hnodes⟩

/-- In `!f((a))` the negation starts with its mark and stops with the bracket that closes the call. -/
theorem laid_of_parse_negated_call :
    let source := "!f((a))"
    let tokens : List Token := [⟨.bang, ⟨0, 1⟩⟩, ⟨.identifier, ⟨1, 2⟩⟩, ⟨.lParen, ⟨2, 3⟩⟩,
      ⟨.lParen, ⟨3, 4⟩⟩, ⟨.identifier, ⟨4, 5⟩⟩, ⟨.rParen, ⟨5, 6⟩⟩, ⟨.rParen, ⟨6, 7⟩⟩]
    ∃ e, parse source tokens = .ok e ∧
      e.nodes.map Expr.span = [⟨0, 7⟩, ⟨1, 7⟩, ⟨1, 2⟩, ⟨4, 5⟩] ∧
      (e.leaves.map Expr.span).Sublist (tokens.map Token.span) ∧
      ∀ x ∈ e.nodes, x.Encloses ∧ x.Anchored source tokens := by
  intro source tokens
  -- every operand sits below seven strata with no operation, which is what `alone` spells out
  let name (n : Nat) : Derivation source .primary := .identifier ⟨⟨.identifier, ⟨n, n + 1⟩⟩, rfl⟩
  let alone (d : Derivation source .unary) : Derivation source .expression :=
    .plain (.chain (by decide) (.chain (by decide) (.chain (by decide) (.chain (by decide)
      (.chain (by decide) (.chain (by decide) (.operand d) .noOperation) .noOperation) .noOperation)
      .noOperation) .noOperation) .noOperation)
  let group : Derivation source .primary :=
    .group ⟨⟨.lParen, ⟨3, 4⟩⟩, rfl⟩ (alone (.accessed (name 4) .noAccess)) ⟨⟨.rParen, ⟨5, 6⟩⟩, rfl⟩
  let call : Derivation source .accesses :=
    .call ⟨⟨.lParen, ⟨2, 3⟩⟩, rfl⟩ (.firstArgument (alone (.accessed group .noAccess)) .noMoreArgument)
      ⟨⟨.rParen, ⟨6, 7⟩⟩, rfl⟩ .noAccess
  let d : Derivation source .unary :=
    .applied ⟨.bang, ⟨0, 1⟩⟩ .not (by decide) (.accessed (name 1) call)
  have hrow : d.tokens = tokens := by decide +kernel
  have hnesting : d.nesting ≤ maxNesting := by decide +kernel
  have hparse := d.parse_tokens_of_unary hnesting
  rw [hrow] at hparse
  have htokens : Span.Ordered 0 (tokens.map Token.span) 7 := by
    simp [tokens, Span.Ordered]
  exact ⟨d.tree, hparse, by decide +kernel, laid_of_parse htokens hparse⟩

end Expr

end RsxInspect
