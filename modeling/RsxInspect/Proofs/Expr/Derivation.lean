import RsxInspect.Expr.Grammar

/-!
# Derivations of expressions

The grammar of expressions, rule by rule:

    expression = or | or "?" expression ":" expression
    or = and { "||" and }
    and = equality { "&&" equality }
    equality = relational { ( "==" | "!=" | "===" | "!==" ) relational }
    relational = additive { ( "<" | ">" | "<=" | ">=" ) additive }
    additive = multiplicative { ( "+" | "-" ) multiplicative }
    multiplicative = unary { ( "*" | "/" | "%" ) unary }
    unary = ( "!" | "-" ) unary | primary { access }
    access = "." identifier | "[" expression "]" | "(" arguments ")"
    arguments = [ expression { "," expression } ]
    primary = number | string | boolean | identifier | "(" expression ")"

A `Derivation` is a use of these rules. It has the tokens that it derives (`Derivation.tokens`), the
tree that it stands for (`Derivation.tree`) and the depth to which it is nested
(`Derivation.nesting`).

No tokens have two derivations (`Derivation.determined`). The statement is about what may stand
behind the tokens as well (`Symbol.Stops`), since a derivation of a part of the tokens has to end
where the other one ends; there is one lemma for each rule, and the theorem is the recursion over
the derivation.
-/

namespace RsxInspect

namespace Expr

/-! ### The rules

One inductive family over `Symbol` holds all strata, so a statement about derivations is one
recursion with a case for each rule, and the rules of the six strata of operators are one
constructor. -/

/-- A token of the given kind, as the rules name it. -/
def Terminal (kind : TokenKind) : Type := {t : Token // t.kind = kind}

namespace Terminal

variable {kind kind' : TokenKind} {ts ts' : List Token}

theorem kind_eq {t : Terminal kind} {t' : Terminal kind'} (h : t.1 :: ts = t'.1 :: ts') :
    kind = kind' := by
  rw [← t.2, ← t'.2, (List.cons.inj h).1]

theorem eq_of_cons {t t' : Terminal kind} (h : t.1 :: ts = t'.1 :: ts') : t = t' ∧ ts = ts' :=
  ⟨Subtype.ext (List.cons.inj h).1, (List.cons.inj h).2⟩

end Terminal

/-- The operators of each stratum, from 1 for the loosest to 6, and what they stand for. -/
def operatorsAt : Nat → List (TokenKind × BinaryOp)
  | 1 => [(.orOr, .or)]
  | 2 => [(.andAnd, .and)]
  | 3 => [(.eqEq, .eq), (.notEq, .neq), (.strictEq, .strictEq), (.strictNotEq, .strictNeq)]
  | 4 => [(.lt, .lt), (.gt, .gt), (.ltEq, .lte), (.gtEq, .gte)]
  | 5 => [(.plus, .add), (.minus, .sub)]
  | 6 => [(.star, .mul), (.slash, .div), (.percent, .mod)]
  | _ => []

/-- The operators in front of an operand. -/
def unaryOperators : List (TokenKind × UnaryOp) := [(.bang, .not), (.minus, .neg)]

/-- The symbols of the grammar. The strata are counted from 1, that of `or`, to 7, that of the
operands; `operations`, `accesses` and `moreArguments` stand for what is in curly braces. -/
inductive Symbol where
  | expression
  | stratum (k : Nat)
  | operations (k : Nat)
  | unary
  | accesses
  | arguments
  | moreArguments
  | primary

/-- A derivation from a symbol, with one constructor for each alternative of a rule. The number of a
token is read off the source. -/
inductive Derivation (source : String) : Symbol → Type where
  | plain (d : Derivation source (.stratum 1)) : Derivation source .expression
  | choice (condition : Derivation source (.stratum 1)) (mark : Terminal .question)
      (consequent : Derivation source .expression) (colon : Terminal .colon)
      (alternate : Derivation source .expression) : Derivation source .expression
  | operand (d : Derivation source .unary) : Derivation source (.stratum 7)
  | chain {k : Nat} (hk : k < 7) (first : Derivation source (.stratum (k + 1)))
      (more : Derivation source (.operations k)) : Derivation source (.stratum k)
  | noOperation {k : Nat} : Derivation source (.operations k)
  | operation {k : Nat} (t : Token) (op : BinaryOp) (hop : (t.kind, op) ∈ operatorsAt k)
      (right : Derivation source (.stratum (k + 1))) (more : Derivation source (.operations k)) :
      Derivation source (.operations k)
  | applied (t : Token) (op : UnaryOp) (hop : (t.kind, op) ∈ unaryOperators)
      (inside : Derivation source .unary) : Derivation source .unary
  | accessed (first : Derivation source .primary) (more : Derivation source .accesses) :
      Derivation source .unary
  | noAccess : Derivation source .accesses
  | property (dot : Terminal .dot) (name : Terminal .identifier)
      (more : Derivation source .accesses) : Derivation source .accesses
  | index (opening : Terminal .lBracket) (inside : Derivation source .expression)
      (closing : Terminal .rBracket) (more : Derivation source .accesses) :
      Derivation source .accesses
  | call (opening : Terminal .lParen) (inside : Derivation source .arguments)
      (closing : Terminal .rParen) (more : Derivation source .accesses) :
      Derivation source .accesses
  | noArgument : Derivation source .arguments
  | firstArgument (first : Derivation source .expression)
      (more : Derivation source .moreArguments) : Derivation source .arguments
  | noMoreArgument : Derivation source .moreArguments
  | nextArgument (comma : Terminal .comma) (next : Derivation source .expression)
      (more : Derivation source .moreArguments) : Derivation source .moreArguments
  | number (t : Terminal .number) (x : Binary64)
      (hx : NumberLiteral.value? (t.1.text source).toList = some x) : Derivation source .primary
  | string (t : Terminal .string) : Derivation source .primary
  | boolean (t : Terminal .boolean) : Derivation source .primary
  | identifier (t : Terminal .identifier) : Derivation source .primary
  | group (opening : Terminal .lParen) (inside : Derivation source .expression)
      (closing : Terminal .rParen) : Derivation source .primary

/-- What a symbol stands for: a tree, the trees of arguments, or what becomes of the tree of what
stands in front. -/
abbrev Symbol.Value : Symbol → Type
  | operations _ | accesses => Expr → Expr
  | arguments | moreArguments => List Expr
  | _ => Expr

namespace Derivation

variable {source : String} {s : Symbol}

/-- The tokens that are derived. -/
def tokens {s : Symbol} : Derivation source s → List Token
  | plain d => d.tokens
  | choice condition mark consequent colon alternate =>
    condition.tokens ++ mark.1 :: (consequent.tokens ++ colon.1 :: alternate.tokens)
  | operand d => d.tokens
  | chain _ first more => first.tokens ++ more.tokens
  | operation t _ _ right more => t :: (right.tokens ++ more.tokens)
  | applied t _ _ inside => t :: inside.tokens
  | accessed first more => first.tokens ++ more.tokens
  | property dot name more => dot.1 :: name.1 :: more.tokens
  | index opening inside closing more =>
    opening.1 :: (inside.tokens ++ closing.1 :: more.tokens)
  | call opening inside closing more =>
    opening.1 :: (inside.tokens ++ closing.1 :: more.tokens)
  | firstArgument first more => first.tokens ++ more.tokens
  | nextArgument comma next more => comma.1 :: (next.tokens ++ more.tokens)
  | number t _ _ => [t.1]
  | string t => [t.1]
  | boolean t => [t.1]
  | identifier t => [t.1]
  | group opening inside closing => opening.1 :: (inside.tokens ++ [closing.1])
  | noOperation | noAccess | noArgument | noMoreArgument => []

/-- The most levels on one path, as `maxNesting` limits them: unary operators, groups, indices, the
arguments of calls and the alternatives of conditions open one each. -/
def nesting {s : Symbol} : Derivation source s → Nat
  | plain d => d.nesting
  | choice condition _ consequent _ alternate =>
    max condition.nesting (max (consequent.nesting + 1) (alternate.nesting + 1))
  | operand d => d.nesting
  | chain _ first more => max first.nesting more.nesting
  | operation _ _ _ right more => max right.nesting more.nesting
  | applied _ _ _ inside => inside.nesting + 1
  | accessed first more => max first.nesting more.nesting
  | property _ _ more => more.nesting
  | index _ inside _ more => max (inside.nesting + 1) more.nesting
  | call _ inside _ more => max (inside.nesting + 1) more.nesting
  | firstArgument first more => max first.nesting more.nesting
  | nextArgument _ next more => max next.nesting more.nesting
  | group _ inside _ => inside.nesting + 1
  | number .. | string _ | boolean _ | identifier _ => 0
  | noOperation | noAccess | noArgument | noMoreArgument => 0

/-- The tree. Operations and accesses take what stands on their left into a tree, one after the
other, so they group to the left; a group leaves no node. The `Value` of a symbol for what stands
behind an operand is a function of that operand. -/
def tree {s : Symbol} : Derivation source s → s.Value
  | plain d => d.tree
  | choice condition _ consequent _ alternate =>
    .ternary condition.tree consequent.tree alternate.tree
      (condition.tree.span.cover alternate.tree.span)
  | operand d => d.tree
  | chain _ first more => more.tree first.tree
  | noOperation => fun left => left
  | operation _ op _ right more => fun left =>
    more.tree (.binary op left right.tree (left.span.cover right.tree.span))
  | applied t op _ inside => .unary op inside.tree (t.span.cover inside.tree.span)
  | accessed first more => more.tree first.tree
  | noAccess => fun left => left
  | property _ name more => fun left =>
    more.tree (.member left (.identifier (name.1.text source) name.1.span) false
      (left.span.cover name.1.span))
  | index _ inside closing more => fun left =>
    more.tree (.member left inside.tree true (left.span.cover closing.1.span))
  | call _ inside closing more => fun left =>
    more.tree (.call left inside.tree (left.span.cover closing.1.span))
  | noArgument => []
  | firstArgument first more => first.tree :: more.tree
  | noMoreArgument => []
  | nextArgument _ next more => next.tree :: more.tree
  | number t x _ => .number x t.1.span
  | string t => .string (String.ofList (Quoted.value (t.1.text source).toList)) t.1.span
  | boolean t => .boolean (t.1.text source == "true") t.1.span
  | identifier t => .identifier (t.1.text source) t.1.span
  | group _ inside _ => inside.tree

/-! In front of a rest, the parts of a rule stand one behind the other. -/

section

variable {k : Nat} {rest : List Token}

theorem choice_append {condition : Derivation source (.stratum 1)} {mark : Terminal .question}
    {consequent alternate : Derivation source .expression} {colon : Terminal .colon} :
    (choice condition mark consequent colon alternate).tokens ++ rest
      = condition.tokens ++ mark.1 :: (consequent.tokens ++ colon.1 :: (alternate.tokens ++ rest)) := by
  show condition.tokens ++ mark.1 :: (consequent.tokens ++ colon.1 :: alternate.tokens) ++ rest = _
  simp only [List.append_assoc, List.cons_append]

theorem chain_append {hk : k < 7} {first : Derivation source (.stratum (k + 1))}
    {more : Derivation source (.operations k)} :
    (chain hk first more).tokens ++ rest = first.tokens ++ (more.tokens ++ rest) :=
  List.append_assoc ..

theorem operation_append {t : Token} {op : BinaryOp} {hop : (t.kind, op) ∈ operatorsAt k}
    {right : Derivation source (.stratum (k + 1))} {more : Derivation source (.operations k)} :
    (operation t op hop right more).tokens ++ rest = t :: (right.tokens ++ (more.tokens ++ rest)) :=
  congrArg (t :: ·) (List.append_assoc ..)

theorem accessed_append {first : Derivation source .primary} {more : Derivation source .accesses} :
    (accessed first more).tokens ++ rest = first.tokens ++ (more.tokens ++ rest) :=
  List.append_assoc ..

theorem index_append {opening : Terminal .lBracket} {inside : Derivation source .expression}
    {closing : Terminal .rBracket} {more : Derivation source .accesses} :
    (index opening inside closing more).tokens ++ rest
      = opening.1 :: (inside.tokens ++ closing.1 :: (more.tokens ++ rest)) :=
  congrArg (opening.1 :: ·) (List.append_assoc ..)

theorem call_append {opening : Terminal .lParen} {inside : Derivation source .arguments}
    {closing : Terminal .rParen} {more : Derivation source .accesses} :
    (call opening inside closing more).tokens ++ rest
      = opening.1 :: (inside.tokens ++ closing.1 :: (more.tokens ++ rest)) :=
  congrArg (opening.1 :: ·) (List.append_assoc ..)

theorem firstArgument_append {first : Derivation source .expression}
    {more : Derivation source .moreArguments} :
    (firstArgument first more).tokens ++ rest = first.tokens ++ (more.tokens ++ rest) :=
  List.append_assoc ..

theorem nextArgument_append {comma : Terminal .comma} {next : Derivation source .expression}
    {more : Derivation source .moreArguments} :
    (nextArgument comma next more).tokens ++ rest
      = comma.1 :: (next.tokens ++ (more.tokens ++ rest)) :=
  congrArg (comma.1 :: ·) (List.append_assoc ..)

theorem group_append {opening : Terminal .lParen} {inside : Derivation source .expression}
    {closing : Terminal .rParen} :
    (group opening inside closing).tokens ++ rest
      = opening.1 :: (inside.tokens ++ closing.1 :: rest) :=
  congrArg (opening.1 :: ·) (List.append_assoc ..)

end

end Derivation

/-! ### What may stand behind

A derivation of a part of the tokens ends where the rule says, so what may follow has to be known:
`Symbol.Stops` says that the next token does not go on with the symbol. `Stops.of_le` hands this
down the strata. -/

/-- The strata list each operator once, by how tightly it binds (`BinaryOp.precedence`). -/
theorem mem_operatorsAt {k : Nat} {kind : TokenKind} {op : BinaryOp} :
    (kind, op) ∈ operatorsAt k ↔ BinaryOp.ofToken? kind = some op ∧ op.precedence = k := by
  have hall : ∀ k, ∀ p ∈ operatorsAt k, BinaryOp.ofToken? p.1 = some p.2 ∧ p.2.precedence = k := by
    intro k
    match k with
    | 1 | 2 | 3 | 4 | 5 | 6 => decide
    | 0 | _ + 7 => exact fun p hp => by cases hp
  constructor
  · exact hall k (kind, op)
  · rintro ⟨hop, rfl⟩
    cases kind <;> cases hop <;> decide

theorem mem_unaryOperators {kind : TokenKind} {op : UnaryOp} :
    (kind, op) ∈ unaryOperators ↔ UnaryOp.ofToken? kind = some op := by
  cases kind <;> cases op <;> decide

/-- The next token, if there is one, stands for nothing, so what `f` looks for ends here. -/
def Ends (f : TokenKind → Option α) (rest : List Token) : Prop :=
  ∀ t, rest.head? = some t → f t.kind = none

theorem Ends.cons {f : TokenKind → Option α} {t : Token} (h : f t.kind = none) (ts : List Token) :
    Ends f (t :: ts) := by
  intro u hu
  cases hu
  exact h

theorem Ends.eq_none {f : TokenKind → Option α} {kind : TokenKind} {ts : List Token}
    (t : Terminal kind) (h : Ends f (t.1 :: ts)) : f kind = none := by
  rw [← t.2]
  exact h t.1 rfl

/-- Tokens that do not go on with what is derived from the symbol. Behind arguments stands their
closing parenthesis, since an empty list has to be told from one that is still to come. -/
def Symbol.Stops : Symbol → List Token → Prop
  | expression, rest =>
    Ends Access.ofToken? rest ∧ Ends (operatorFrom? 1) rest ∧
      ∀ t, rest.head? = some t → t.kind ≠ .question
  | stratum k, rest | operations k, rest =>
    Ends Access.ofToken? rest ∧ Ends (operatorFrom? k) rest
  | unary, rest | accesses, rest => Ends Access.ofToken? rest
  | arguments, rest | moreArguments, rest => ∃ t ts, rest = t :: ts ∧ t.kind = .rParen
  | primary, _ => True

theorem operatorFrom?_eq_none {k : Nat} {kind : TokenKind}
    (h : ∀ op, BinaryOp.ofToken? kind = some op → op.precedence < k) :
    operatorFrom? k kind = none := by
  unfold operatorFrom?
  cases hop : BinaryOp.ofToken? kind with
  | none => rfl
  | some op => exact dif_neg (Nat.not_le_of_lt (h op hop))

theorem operatorFrom?_eq_some {k : Nat} {kind : TokenKind} {op : BinaryOp}
    (h : BinaryOp.ofToken? kind = some op) (hk : k ≤ op.precedence) :
    operatorFrom? k kind = some ⟨op, hk⟩ := by
  unfold operatorFrom?
  rw [h]
  exact dif_pos hk

namespace Derivation

variable {source : String} {s : Symbol}

/-- A closing parenthesis (`.rParen`) does not start an operand, so what is derived from these
symbols starts with something else. -/
theorem exists_head {s : Symbol} (d : Derivation source s)
    (hs : s = .expression ∨ (∃ k, s = .stratum k) ∨ s = .unary ∨ s = .primary) :
    ∃ t ts, d.tokens = t :: ts ∧ t.kind ≠ .rParen := by
  have happend : ∀ ts us : List Token, (∃ t vs, ts = t :: vs ∧ t.kind ≠ .rParen) →
      ∃ t vs, ts ++ us = t :: vs ∧ t.kind ≠ .rParen := by
    rintro _ us ⟨t, vs, rfl, ht⟩
    exact ⟨t, vs ++ us, rfl, ht⟩
  induction d with
  | plain d ih => exact ih (by simp)
  -- what comes first in a rule is an operand again
  | choice condition mark consequent colon alternate ih => exact happend _ _ (ih (by simp))
  | operand d ih => exact ih (by simp)
  | chain _ first more ih => exact happend _ _ (ih (by simp))
  | applied t op hop inside =>
    refine ⟨t, _, rfl, ?_⟩
    intro hkind
    rw [hkind] at hop
    exact absurd hop (by cases op <;> decide)
  | accessed first more ih => exact happend _ _ (ih (by simp))
  | number t | string t | boolean t | identifier t | group t =>
    exact ⟨t.1, _, rfl, by rw [t.2]; decide⟩
  -- the other symbols may derive no token at all
  | _ => simp at hs

theorem tokens_ne_of_rParen (d : Derivation source .expression) {rest us : List Token}
    (h : Symbol.arguments.Stops rest) : d.tokens ++ us ≠ rest := by
  obtain ⟨t, ts, rfl, ht⟩ := h
  obtain ⟨u, vs, hhead, hu⟩ := d.exists_head (.inl rfl)
  rw [hhead]
  intro heq
  obtain ⟨rfl, -⟩ := List.cons.inj heq
  exact hu ht

/-- A `.primary` expression does not start with a unary operator. -/
theorem exists_head_primary (d : Derivation source .primary) :
    ∃ t ts, d.tokens = t :: ts ∧ UnaryOp.ofToken? t.kind = none := by
  cases d with
  | number t | string t | boolean t | identifier t | group t =>
    exact ⟨t.1, _, rfl, by rw [t.2]; rfl⟩

theorem tokens_ne_of_unaryOperator (d : Derivation source .primary) {t : Token} {op : UnaryOp}
    {ts us : List Token} (h : (t.kind, op) ∈ unaryOperators) : d.tokens ++ us ≠ t :: ts := by
  obtain ⟨u, vs, hhead, hnone⟩ := d.exists_head_primary
  rw [hhead]
  intro heq
  obtain ⟨rfl, -⟩ := List.cons.inj heq
  rw [mem_unaryOperators.mp h] at hnone
  cases hnone

end Derivation

namespace Symbol

variable {rest : List Token} {k : Nat}

/-- An expression ends in front of such a mark, which goes on with no stratum. -/
theorem stops_of_mark {kind : TokenKind}
    (h : kind = .rParen ∨ kind = .rBracket ∨ kind = .colon ∨ kind = .comma) (t : Terminal kind)
    (ts : List Token) : expression.Stops (t.1 :: ts) := by
  have hkind : Access.ofToken? kind = none ∧ operatorFrom? 1 kind = none ∧ kind ≠ .question := by
    rcases h with rfl | rfl | rfl | rfl
    all_goals exact ⟨rfl, rfl, nofun⟩
  rw [← t.2] at hkind
  refine ⟨.cons hkind.1 ts, .cons hkind.2.1 ts, fun u hu => ?_⟩
  cases hu
  exact hkind.2.2

/-- The condition ends in front of its mark. -/
theorem stops_of_question (t : Terminal .question) (ts : List Token) :
    (stratum 1).Stops (t.1 :: ts) :=
  ⟨.cons (by rw [t.2]; rfl) ts, .cons (by rw [t.2]; rfl) ts⟩

theorem Stops.of_le {j : Nat} (h : (stratum k).Stops rest) (hle : k ≤ j) :
    (stratum j).Stops rest := by
  refine ⟨h.1, fun t ht => operatorFrom?_eq_none fun op hop => ?_⟩
  apply Nat.lt_of_not_le
  intro hge
  have hnone := h.2 t ht
  rw [operatorFrom?_eq_some hop (Nat.le_trans hle hge)] at hnone
  cases hnone

/-- An operator ends what binds tighter: `operatorsAt` lists it at one stratum only. -/
theorem stops_of_operator {t : Token} {op : BinaryOp} (ts : List Token)
    (h : (t.kind, op) ∈ operatorsAt k) : (stratum (k + 1)).Stops (t :: ts) := by
  obtain ⟨hop, hk⟩ := mem_operatorsAt.mp h
  refine ⟨.cons ?_ ts, .cons (operatorFrom?_eq_none fun op' hop' => ?_) ts⟩
  · revert hop
    cases t.kind <;> first | exact fun _ => rfl | exact nofun
  · rw [hop] at hop'
    cases hop'
    omega

/-- An operator of `operatorsAt` goes on with the operations of its own stratum. -/
theorem not_stops_of_operator {t : Token} {op : BinaryOp} {ts : List Token}
    (h : (t.kind, op) ∈ operatorsAt k) : ¬ (operations k).Stops (t :: ts) := by
  obtain ⟨hop, hk⟩ := mem_operatorsAt.mp h
  intro hstops
  have hnone := hstops.2 t rfl
  rw [operatorFrom?_eq_some hop (Nat.le_of_eq hk.symm)] at hnone
  cases hnone

end Symbol

namespace Derivation

variable {source : String} {s : Symbol} {rest : List Token} {k : Nat}

/-- The first of some operands ends (`Symbol.Stops`) in front of the operations behind it. -/
theorem stops_operations (d : Derivation source (.operations k)) (h : (Symbol.stratum k).Stops rest) :
    (Symbol.stratum (k + 1)).Stops (d.tokens ++ rest) := by
  cases d with
  | noOperation => exact h.of_le (Nat.le_succ k)
  | operation t op hop right more => exact Symbol.stops_of_operator _ hop

/-- An argument ends in front of the others. -/
theorem stops_moreArguments (d : Derivation source .moreArguments)
    (h : Symbol.moreArguments.Stops rest) : Symbol.expression.Stops (d.tokens ++ rest) := by
  cases d with
  | noMoreArgument =>
    obtain ⟨t, ts, rfl, ht⟩ := h
    exact Symbol.stops_of_mark (.inl rfl) ⟨t, ht⟩ ts
  | nextArgument comma next more => exact Symbol.stops_of_mark (by simp) comma _

/-! ### One derivation only

Two derivations of the same tokens start alike, and `Stops` says that their parts end alike. So each
rule determines its parts one after the other, from left to right. -/

/-- From left to right the tokens of the derivation can be derived in no other way from its symbol,
up to where what follows `Stops`. -/
def Determined {s : Symbol} (d : Derivation source s) : Prop :=
  ∀ (d' : Derivation source s) (rest rest' : List Token), s.Stops rest → s.Stops rest' →
    d.tokens ++ rest = d'.tokens ++ rest' → d = d' ∧ rest = rest'

namespace Determined

variable {kind : TokenKind} {ts ts' : List Token}

/-- What stands in front of a mark, and the mark: two derivations of it with their marks are the
same, if the inner one is `Determined` and stops there. -/
theorem enclosed {d d' : Derivation source s} {t t' : Terminal kind} (hd : d.Determined)
    (hstops : ∀ (t : Terminal kind) (ts : List Token), s.Stops (t.1 :: ts))
    (h : d.tokens ++ t.1 :: ts = d'.tokens ++ t'.1 :: ts') : d = d' ∧ t = t' ∧ ts = ts' := by
  obtain ⟨rfl, hmore⟩ := hd d' _ _ (hstops t ts) (hstops t' ts') h
  exact ⟨rfl, Terminal.eq_of_cons hmore⟩

theorem plain {d : Derivation source (.stratum 1)} (hd : d.Determined) :
    (Derivation.plain d).Determined := by
  intro d' rest rest' hrest hrest' h
  cases d' with
  | plain d' =>
    obtain ⟨rfl, rfl⟩ := hd d' _ _ ⟨hrest.1, hrest.2.1⟩ ⟨hrest'.1, hrest'.2.1⟩ h
    exact ⟨rfl, rfl⟩
  | choice condition mark =>
    -- the mark of a condition would go on with what is derived
    rw [choice_append] at h
    obtain ⟨-, rfl⟩ := hd condition _ _ ⟨hrest.1, hrest.2.1⟩ (Symbol.stops_of_question mark _) h
    exact absurd mark.2 (hrest.2.2 _ rfl)

theorem choice {condition : Derivation source (.stratum 1)} {mark : Terminal .question}
    {consequent alternate : Derivation source .expression} {colon : Terminal .colon}
    (hcondition : condition.Determined) (hconsequent : consequent.Determined)
    (halternate : alternate.Determined) :
    (Derivation.choice condition mark consequent colon alternate).Determined := by
  intro d' rest rest' hrest hrest' h
  rw [choice_append] at h
  cases d' with
  | plain d' =>
    obtain ⟨-, rfl⟩ :=
      hcondition d' _ _ (Symbol.stops_of_question mark _) ⟨hrest'.1, hrest'.2.1⟩ h
    exact absurd mark.2 (hrest'.2.2 _ rfl)
  | choice condition' mark' consequent' colon' alternate' =>
    rw [choice_append] at h
    obtain ⟨rfl, rfl, h1⟩ := hcondition.enclosed Symbol.stops_of_question h
    obtain ⟨rfl, rfl, h2⟩ := hconsequent.enclosed (Symbol.stops_of_mark (by simp)) h1
    obtain ⟨rfl, rfl⟩ := halternate alternate' _ _ hrest hrest' h2
    exact ⟨rfl, rfl⟩

theorem operand {d : Derivation source .unary} (hd : d.Determined) :
    (Derivation.operand d).Determined := by
  intro d' rest rest' hrest hrest' h
  cases d' with
  | operand d' =>
    obtain ⟨rfl, rfl⟩ := hd d' _ _ hrest.1 hrest'.1 h
    exact ⟨rfl, rfl⟩
  | chain hk => exact absurd hk (Nat.lt_irrefl 7)

theorem chain {hk : k < 7} {first : Derivation source (.stratum (k + 1))}
    {more : Derivation source (.operations k)} (hfirst : first.Determined)
    (hmore : more.Determined) : (Derivation.chain hk first more).Determined := by
  intro d' rest rest' hrest hrest' h
  cases d' with
  | operand => exact absurd hk (Nat.lt_irrefl 7)
  | chain hk' first' more' =>
    rw [chain_append, chain_append] at h
    obtain ⟨rfl, h1⟩ :=
      hfirst first' _ _ (more.stops_operations hrest) (more'.stops_operations hrest') h
    obtain ⟨rfl, rfl⟩ := hmore more' _ _ hrest hrest' h1
    exact ⟨rfl, rfl⟩

theorem noOperation : (Derivation.noOperation : Derivation source (.operations k)).Determined := by
  intro d' rest rest' hrest hrest' h
  cases d' with
  | noOperation => exact ⟨rfl, h⟩
  | operation t op hop =>
    obtain rfl : rest = _ := h
    exact (Symbol.not_stops_of_operator hop hrest).elim

theorem operation {t : Token} {op : BinaryOp} {hop : (t.kind, op) ∈ operatorsAt k}
    {right : Derivation source (.stratum (k + 1))} {more : Derivation source (.operations k)}
    (hright : right.Determined) (hmore : more.Determined) :
    (Derivation.operation t op hop right more).Determined := by
  intro d' rest rest' hrest hrest' h
  cases d' with
  | noOperation =>
    obtain rfl : _ = rest' := h
    exact (Symbol.not_stops_of_operator hop hrest').elim
  | operation t' op' hop' right' more' =>
    rw [operation_append, operation_append] at h
    obtain ⟨rfl, h1⟩ := List.cons.inj h
    -- a token stands for one operator only
    obtain rfl : op = op' := by
      have hsome := (mem_operatorsAt.mp hop).1
      rw [(mem_operatorsAt.mp hop').1] at hsome
      exact (Option.some.inj hsome).symm
    obtain ⟨rfl, h2⟩ :=
      hright right' _ _ (more.stops_operations hrest) (more'.stops_operations hrest') h1
    obtain ⟨rfl, rfl⟩ := hmore more' _ _ hrest hrest' h2
    exact ⟨rfl, rfl⟩

theorem applied {t : Token} {op : UnaryOp} {hop : (t.kind, op) ∈ unaryOperators}
    {inside : Derivation source .unary} (hinside : inside.Determined) :
    (Derivation.applied t op hop inside).Determined := by
  intro d' rest rest' hrest hrest' h
  cases d' with
  | applied t' op' hop' inside' =>
    obtain ⟨rfl, h1⟩ := List.cons.inj h
    obtain rfl : op = op' := by
      have hsome := mem_unaryOperators.mp hop
      rw [mem_unaryOperators.mp hop'] at hsome
      exact (Option.some.inj hsome).symm
    obtain ⟨rfl, rfl⟩ := hinside inside' _ _ hrest hrest' h1
    exact ⟨rfl, rfl⟩
  | accessed first more =>
    rw [accessed_append] at h
    exact (first.tokens_ne_of_unaryOperator hop h.symm).elim

theorem accessed {first : Derivation source .primary} {more : Derivation source .accesses}
    (hfirst : first.Determined) (hmore : more.Determined) :
    (Derivation.accessed first more).Determined := by
  intro d' rest rest' hrest hrest' h
  rw [accessed_append] at h
  cases d' with
  | applied t op hop inside =>
    exact (first.tokens_ne_of_unaryOperator hop h).elim
  | accessed first' more' =>
    rw [accessed_append] at h
    obtain ⟨rfl, h1⟩ := hfirst first' _ _ trivial trivial h
    obtain ⟨rfl, rfl⟩ := hmore more' _ _ hrest hrest' h1
    exact ⟨rfl, rfl⟩

theorem noAccess : (Derivation.noAccess : Derivation source .accesses).Determined := by
  intro d' rest rest' hrest hrest' h
  cases d' with
  | noAccess => exact ⟨rfl, h⟩
  | property t | index t | call t =>
    obtain rfl : rest = _ := h
    cases Ends.eq_none t (show Ends Access.ofToken? _ from hrest)

theorem property {dot : Terminal .dot} {name : Terminal .identifier}
    {more : Derivation source .accesses} (hmore : more.Determined) :
    (Derivation.property dot name more).Determined := by
  intro d' rest rest' hrest hrest' h
  cases d' with
  | noAccess =>
    obtain rfl : _ = rest' := h
    cases Ends.eq_none dot (show Ends Access.ofToken? _ from hrest')
  | property dot' name' more' =>
    obtain ⟨rfl, h1⟩ := @Terminal.eq_of_cons _ _ _ dot dot' h
    obtain ⟨rfl, h2⟩ := @Terminal.eq_of_cons _ _ _ name name' h1
    obtain ⟨rfl, rfl⟩ := hmore more' _ _ hrest hrest' h2
    exact ⟨rfl, rfl⟩
  | index t | call t => cases Terminal.kind_eq h

theorem index {opening : Terminal .lBracket} {inside : Derivation source .expression}
    {closing : Terminal .rBracket} {more : Derivation source .accesses}
    (hinside : inside.Determined) (hmore : more.Determined) :
    (Derivation.index opening inside closing more).Determined := by
  intro d' rest rest' hrest hrest' h
  cases d' with
  | noAccess =>
    obtain rfl : _ = rest' := h
    cases Ends.eq_none opening (show Ends Access.ofToken? _ from hrest')
  | index opening' inside' closing' more' =>
    rw [index_append, index_append] at h
    obtain ⟨rfl, h1⟩ := Terminal.eq_of_cons h
    obtain ⟨rfl, rfl, h2⟩ := hinside.enclosed (Symbol.stops_of_mark (by simp)) h1
    obtain ⟨rfl, rfl⟩ := hmore more' _ _ hrest hrest' h2
    exact ⟨rfl, rfl⟩
  | property t | call t => cases Terminal.kind_eq h

theorem call {opening : Terminal .lParen} {inside : Derivation source .arguments}
    {closing : Terminal .rParen} {more : Derivation source .accesses}
    (hinside : inside.Determined) (hmore : more.Determined) :
    (Derivation.call opening inside closing more).Determined := by
  intro d' rest rest' hrest hrest' h
  cases d' with
  | noAccess =>
    obtain rfl : _ = rest' := h
    cases Ends.eq_none opening (show Ends Access.ofToken? _ from hrest')
  | call opening' inside' closing' more' =>
    rw [call_append, call_append] at h
    obtain ⟨rfl, h1⟩ := Terminal.eq_of_cons h
    obtain ⟨rfl, rfl, h2⟩ := hinside.enclosed (fun t ts => ⟨t.1, ts, rfl, t.2⟩) h1
    obtain ⟨rfl, rfl⟩ := hmore more' _ _ hrest hrest' h2
    exact ⟨rfl, rfl⟩
  | property t | index t => cases Terminal.kind_eq h

theorem noArgument : (Derivation.noArgument : Derivation source .arguments).Determined := by
  intro d' rest rest' hrest hrest' h
  cases d' with
  | noArgument => exact ⟨rfl, h⟩
  | firstArgument first more =>
    rw [firstArgument_append] at h
    exact (first.tokens_ne_of_rParen hrest h.symm).elim

theorem firstArgument {first : Derivation source .expression}
    {more : Derivation source .moreArguments} (hfirst : first.Determined)
    (hmore : more.Determined) : (Derivation.firstArgument first more).Determined := by
  intro d' rest rest' hrest hrest' h
  rw [firstArgument_append] at h
  cases d' with
  | noArgument => exact (first.tokens_ne_of_rParen hrest' h).elim
  | firstArgument first' more' =>
    rw [firstArgument_append] at h
    obtain ⟨rfl, h1⟩ :=
      hfirst first' _ _ (more.stops_moreArguments hrest) (more'.stops_moreArguments hrest') h
    obtain ⟨rfl, rfl⟩ := hmore more' _ _ hrest hrest' h1
    exact ⟨rfl, rfl⟩

theorem noMoreArgument :
    (Derivation.noMoreArgument : Derivation source .moreArguments).Determined := by
  intro d' rest rest' hrest hrest' h
  cases d' with
  | noMoreArgument => exact ⟨rfl, h⟩
  | nextArgument comma =>
    obtain ⟨t, ts, rfl, ht⟩ := hrest
    cases @Terminal.kind_eq .rParen .comma _ _ ⟨t, ht⟩ comma h

theorem nextArgument {comma : Terminal .comma} {next : Derivation source .expression}
    {more : Derivation source .moreArguments} (hnext : next.Determined) (hmore : more.Determined) :
    (Derivation.nextArgument comma next more).Determined := by
  intro d' rest rest' hrest hrest' h
  cases d' with
  | noMoreArgument =>
    obtain ⟨t, ts, rfl, ht⟩ := hrest'
    cases @Terminal.kind_eq .comma .rParen _ _ comma ⟨t, ht⟩ h
  | nextArgument comma' next' more' =>
    rw [nextArgument_append, nextArgument_append] at h
    obtain ⟨rfl, h1⟩ := Terminal.eq_of_cons h
    obtain ⟨rfl, h2⟩ :=
      hnext next' _ _ (more.stops_moreArguments hrest) (more'.stops_moreArguments hrest') h1
    obtain ⟨rfl, rfl⟩ := hmore more' _ _ hrest hrest' h2
    exact ⟨rfl, rfl⟩

/-- The first token tells which rule a primary expression uses. -/
theorem number {t : Terminal .number} {x : Binary64}
    {hx : NumberLiteral.value? (t.1.text source).toList = some x} :
    (Derivation.number t x hx).Determined := by
  intro d' rest rest' _ _ h
  cases d' with
  | number t' x' hx' =>
    obtain ⟨rfl, h1⟩ := Terminal.eq_of_cons h
    obtain rfl : x = x' := Option.some.inj (hx.symm.trans hx')
    exact ⟨rfl, h1⟩
  | string t' | boolean t' | identifier t' | group t' => cases Terminal.kind_eq h

theorem string {t : Terminal .string} : (Derivation.string t : Derivation source _).Determined := by
  intro d' rest rest' _ _ h
  cases d' with
  | string t' =>
    obtain ⟨rfl, h1⟩ := Terminal.eq_of_cons h
    exact ⟨rfl, h1⟩
  | number t' | boolean t' | identifier t' | group t' => cases Terminal.kind_eq h

theorem boolean {t : Terminal .boolean} :
    (Derivation.boolean t : Derivation source _).Determined := by
  intro d' rest rest' _ _ h
  cases d' with
  | boolean t' =>
    obtain ⟨rfl, h1⟩ := Terminal.eq_of_cons h
    exact ⟨rfl, h1⟩
  | number t' | string t' | identifier t' | group t' => cases Terminal.kind_eq h

theorem identifier {t : Terminal .identifier} :
    (Derivation.identifier t : Derivation source _).Determined := by
  intro d' rest rest' _ _ h
  cases d' with
  | identifier t' =>
    obtain ⟨rfl, h1⟩ := Terminal.eq_of_cons h
    exact ⟨rfl, h1⟩
  | number t' | string t' | boolean t' | group t' => cases Terminal.kind_eq h

theorem group {opening : Terminal .lParen} {inside : Derivation source .expression}
    {closing : Terminal .rParen} (hinside : inside.Determined) :
    (Derivation.group opening inside closing).Determined := by
  intro d' rest rest' _ _ h
  cases d' with
  | group opening' inside' closing' =>
    rw [group_append, group_append] at h
    obtain ⟨rfl, h1⟩ := Terminal.eq_of_cons h
    obtain ⟨rfl, rfl, h2⟩ := hinside.enclosed (Symbol.stops_of_mark (by simp)) h1
    exact ⟨rfl, h2⟩
  | number t' | string t' | boolean t' | identifier t' => cases Terminal.kind_eq h

end Determined

/-- **The grammar is unambiguous** (`Determined`). The recursion is over the derivation, with the
lemma of its rule in each case. -/
theorem determined {s : Symbol} (d : Derivation source s) : d.Determined := by
  induction d with
  | plain _ hd => exact .plain hd
  | choice _ _ _ _ _ hcondition hconsequent halternate =>
    exact .choice hcondition hconsequent halternate
  | operand _ hd => exact .operand hd
  | chain _ _ _ hfirst hmore => exact .chain hfirst hmore
  | noOperation => exact .noOperation
  | operation _ _ _ _ _ hright hmore => exact .operation hright hmore
  | applied _ _ _ _ hinside => exact .applied hinside
  | accessed _ _ hfirst hmore => exact .accessed hfirst hmore
  | noAccess => exact .noAccess
  | property _ _ _ hmore => exact .property hmore
  | index _ _ _ _ hinside hmore => exact .index hinside hmore
  | call _ _ _ _ hinside hmore => exact .call hinside hmore
  | noArgument => exact .noArgument
  | firstArgument _ _ hfirst hmore => exact .firstArgument hfirst hmore
  | noMoreArgument => exact .noMoreArgument
  | nextArgument _ _ _ hnext hmore => exact .nextArgument hnext hmore
  | number => exact .number
  | string => exact .string
  | boolean => exact .boolean
  | identifier => exact .identifier
  | group _ _ _ hinside => exact .group hinside

end Derivation

end Expr

end RsxInspect
