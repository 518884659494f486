import RsxInspect.Expr.Grammar

/-!
# Expressions in another place

Reading an expression looks at the kinds and the texts of its tokens, and carries their spans along.
So tokens that stand further to the right, in a source that has the same texts there, are read as
the same expression with all spans moved (`Expr.parse_moved`).

What a reader makes of tokens is `Reader.Gives`, with one lemma for each way in which readers are
put together. The readers of the grammar follow each other from one source to another
(`Reader.Follows`) one by one, and a reader that is put together from such readers does so too
(`follows_bind`, `follows_foldWhile`); `follows_nested` is the induction on the levels.
-/

namespace RsxInspect

/-! ### Moving spans -/

def Span.moved (d : Nat) (s : Span) : Span := ⟨s.start + d, s.stop + d⟩

def Token.moved (d : Nat) (t : Token) : Token := ⟨t.kind, t.span.moved d⟩

theorem Token.moved_zero : Token.moved 0 = id := rfl

theorem Span.cover_moved (d : Nat) (s t : Span) :
    (s.cover t).moved d = (s.moved d).cover (t.moved d) := by
  simp only [Span.moved, Span.cover, Span.mk.injEq]
  omega

namespace Expr

mutual

/-- The tree with all spans moved `d` bytes to the right. -/
def moved (d : Nat) : Expr → Expr
  | number x s => number x (s.moved d)
  | string x s => string x (s.moved d)
  | boolean x s => boolean x (s.moved d)
  | identifier x s => identifier x (s.moved d)
  | binary op left right s => binary op (moved d left) (moved d right) (s.moved d)
  | unary op operand s => unary op (moved d operand) (s.moved d)
  | member object property computed s =>
    member (moved d object) (moved d property) computed (s.moved d)
  | call callee arguments s => call (moved d callee) (movedAll d arguments) (s.moved d)
  | ternary condition consequent alternate s =>
    ternary (moved d condition) (moved d consequent) (moved d alternate) (s.moved d)

def movedAll (d : Nat) : List Expr → List Expr
  | [] => []
  | e :: es => moved d e :: movedAll d es

end

theorem movedAll_eq_map (d : Nat) (es : List Expr) : movedAll d es = es.map (moved d) := by
  induction es with
  | nil => rfl
  | cons e es ih =>
    show moved d e :: movedAll d es = _
    rw [ih]
    rfl

theorem span_moved (d : Nat) (e : Expr) : (e.moved d).span = e.span.moved d := by
  cases e <;> rfl

end Expr

/-! ### Readers that succeed

What a reader gives is said as a relation, `Gives`, so that a reader that succeeds can be taken
apart into the steps that succeeded, one lemma for each way of putting readers together. -/

namespace Reader

/-- The reader makes the value of the input and leaves the rest, a suffix of the input. -/
def Gives (r : Reader α) (input : List Token) (a : α) (rest : List Token) : Prop :=
  (r input).result = .ok a ∧ (r input).rest = rest

variable {r : Reader α} {input rest : List Token}

theorem Gives.suffix {a : α} (h : r.Gives input a rest) : rest <:+ input := by
  rw [← h.2]
  exact (r input).suffix

theorem gives_pure {a b : α} : (pure a : Reader α).Gives input b rest ↔ b = a ∧ rest = input := by
  constructor
  · rintro ⟨hvalue, hrest⟩
    exact ⟨(Except.ok.inj hvalue).symm, hrest.symm⟩
  · rintro ⟨rfl, rfl⟩
    exact ⟨rfl, rfl⟩

theorem not_gives_fail {d : Diagnostic} {a : α} : ¬ (fail d : Reader α).Gives input a rest := by
  rintro ⟨hvalue, -⟩
  cases hvalue

/-- What readers in a row make of the input: the second one goes on with what the first one
leaves. -/
theorem gives_bind {k : α → Reader β} {b : β} :
    (r >>= k).Gives input b rest ↔
      ∃ a behind, r.Gives input a behind ∧ (k a).Gives behind b rest := by
  unfold Gives
  rw [bind_apply, Reader.bind]
  cases hr : (r input).result with
  | error d =>
    constructor
    · rintro ⟨hvalue, -⟩
      cases hvalue
    · rintro ⟨a, behind, ⟨hvalue, -⟩, -⟩
      cases hvalue
  | ok a =>
    constructor
    · rintro ⟨hvalue, hrest⟩
      exact ⟨a, _, ⟨rfl, rfl⟩, hvalue, hrest⟩
    · rintro ⟨a', behind, ⟨hvalue, rfl⟩, hvalue', hrest'⟩
      cases hvalue
      exact ⟨hvalue', hrest'⟩

theorem gives_peek {t : Option Token} : peek.Gives input t rest ↔ t = input.head? ∧ rest = input := by
  constructor
  · rintro ⟨hvalue, hrest⟩
    exact ⟨(Except.ok.inj hvalue).symm, hrest.symm⟩
  · rintro ⟨rfl, rfl⟩
    exact ⟨rfl, rfl⟩

/-- A token is taken if its kind stands for something (`f`), and stays otherwise. -/
theorem gives_nextIf {f : TokenKind → Option α} {x : Option (α × Token)} :
    (nextIf f).Gives input x rest ↔
      (∃ t a, input = t :: rest ∧ f t.kind = some a ∧ x = some (a, t))
        ∨ ((∀ t, input.head? = some t → f t.kind = none) ∧ x = none ∧ rest = input) := by
  unfold Gives
  cases input with
  | nil => simp [nextIf, eq_comm]
  | cons t ts =>
    rw [nextIf]
    -- both directions evaluate the one step; in the wrong disjunct the two answers of `f` clash
    cases hf : f t.kind with
    | none =>
      constructor
      · rintro ⟨hvalue, rfl⟩
        exact .inr ⟨fun u hu => by cases hu; exact hf, (Except.ok.inj hvalue).symm, rfl⟩
      · rintro (⟨u, a, hu, ha, -⟩ | ⟨-, rfl, rfl⟩)
        · cases hu
          rw [hf] at ha
          cases ha
        · exact ⟨rfl, rfl⟩
    | some a =>
      constructor
      · rintro ⟨hvalue, rfl⟩
        exact .inl ⟨t, a, rfl, hf, (Except.ok.inj hvalue).symm⟩
      · rintro (⟨u, b, hu, hb, rfl⟩ | ⟨hnone, -⟩)
        · cases hu
          rw [hf] at hb
          cases hb
          exact ⟨rfl, rfl⟩
        · rw [hnone t rfl] at hf
          cases hf

theorem gives_eat {kind : TokenKind} {x : Option Token} :
    (eat kind).Gives input x rest ↔
      (∃ t, input = t :: rest ∧ t.kind = kind ∧ x = some t)
        ∨ ((∀ t, input.head? = some t → t.kind ≠ kind) ∧ x = none ∧ rest = input) := by
  unfold eat
  rw [gives_bind]
  constructor
  · rintro ⟨y, behind, hnext, hpure⟩
    obtain ⟨rfl, rfl⟩ := gives_pure.mp hpure
    -- `eat` is `nextIf` with a test that answers `()`, so the test has to be turned back into the
    -- kind
    rcases gives_nextIf.mp hnext with ⟨t, a, rfl, ha, rfl⟩ | ⟨hnone, rfl, rfl⟩
    · refine .inl ⟨t, rfl, ?_, rfl⟩
      by_cases hkind : t.kind = kind
      · exact hkind
      · rw [if_neg hkind] at ha
        cases ha
    · refine .inr ⟨fun t ht hkind => ?_, rfl, rfl⟩
      have hfound := hnone t ht
      rw [if_pos hkind] at hfound
      cases hfound
  · rintro (⟨t, rfl, hkind, rfl⟩ | ⟨hnone, rfl, rfl⟩)
    · exact ⟨some ((), t), rest, gives_nextIf.mpr (.inl ⟨t, (), rfl, if_pos hkind, rfl⟩),
        gives_pure.mpr ⟨rfl, rfl⟩⟩
    · exact ⟨none, rest, gives_nextIf.mpr (.inr ⟨fun t ht => if_neg (hnone t ht), rfl, rfl⟩),
        gives_pure.mpr ⟨rfl, rfl⟩⟩

/-- A repetition (`foldWhile`) ends where the next token asks for nothing more, or goes on behind
one round with what that made. -/
theorem gives_foldWhile {f : TokenKind → Option β} {body : α → β → Reader α} {a b : α} :
    (foldWhile f body a).Gives input b rest ↔
      ((∀ t, input.head? = some t → f t.kind = none) ∧ b = a ∧ rest = input)
        ∨ ∃ t ts x c behind, input = t :: ts ∧ f t.kind = some x ∧ (body a x).Gives ts c behind
          ∧ (foldWhile f body c).Gives behind b rest := by
  -- three ways the loop can go: no token left, a token that ends it, a token that starts a round
  cases input with
  | nil =>
    unfold Gives
    rw [foldWhile]
    constructor
    · rintro ⟨hvalue, rfl⟩
      refine .inl ⟨fun u hu => ?_, (Except.ok.inj hvalue).symm, rfl⟩
      cases hu
    · rintro (⟨-, rfl, rfl⟩ | ⟨t, ts, x, c, behind, hcons, -⟩)
      · exact ⟨rfl, rfl⟩
      · cases hcons
  | cons t ts =>
    cases hf : f t.kind with
    | none =>
      have hstop : foldWhile f body a (t :: ts) = ⟨.ok a, t :: ts, List.suffix_refl _⟩ := by
        rw [foldWhile, hf]
      unfold Gives
      rw [hstop]
      constructor
      · rintro ⟨hvalue, rfl⟩
        exact .inl ⟨fun u hu => by cases hu; exact hf, (Except.ok.inj hvalue).symm, rfl⟩
      · rintro (⟨-, rfl, rfl⟩ | ⟨u, us, x, c, behind, hcons, hx, -⟩)
        · exact ⟨rfl, rfl⟩
        · cases hcons
          rw [hf] at hx
          cases hx
    | some x =>
      -- read forwards, the round and the rest of the loop are read off the recursion
      constructor
      · rintro ⟨hvalue, hrest⟩
        right
        refine ⟨t, ts, x, ?_⟩
        rw [foldWhile, hf] at hvalue hrest
        simp only at hvalue hrest
        split at hvalue
        · cases hvalue
        · rename_i c behind hsuffix hbody
          rw [hbody] at hrest
          exact ⟨c, behind, rfl, hf, ⟨by rw [hbody], by rw [hbody]⟩, hvalue, hrest⟩
      -- read backwards, the token and the round are the given ones by injectivity
      · rintro (⟨hnone, -⟩ | ⟨u, us, y, c, behind, hcons, hy, hbody, hmore⟩)
        · rw [hnone t rfl] at hf
          cases hf
        · cases hcons
          rw [hf] at hy
          cases hy
          obtain ⟨hvalue, rfl⟩ := hbody
          unfold Gives
          rw [foldWhile, hf]
          simp only
          cases hr : body a x ts with
          | mk result behind hsuffix =>
            rw [hr] at hvalue hmore
            simp only at hvalue hmore
            cases hvalue
            exact hmore

end Reader

/-! ### Readers that follow each other

The tokens of the other source are the moved ones, with the same texts. `Move.Keeps` says this of a
run of tokens, and it holds of what is left of the run as well. -/

/-- Two sources and a distance. -/
structure Move where
  source : String
  target : String
  distance : Nat

/-- The texts of the tokens are found in the target where the tokens are moved to (`Token.text`). -/
def Move.Keeps (m : Move) (ts : List Token) : Prop :=
  ∀ t ∈ ts, t.text m.source = (t.moved m.distance).text m.target

theorem Move.Keeps.suffix {m : Move} {ts us : List Token} (h : m.Keeps ts) (hsuffix : us <:+ ts) :
    m.Keeps us :=
  fun t ht => h t (hsuffix.subset ht)

namespace Reader

/-- Whenever the first reader makes something of tokens, the second one makes the image of that
under `f` of the moved tokens, and it leaves the moved rest. -/
def Follows (m : Move) (f : α → β) (r : Reader α) (r' : Reader β) : Prop :=
  ∀ input a rest, m.Keeps input → r.Gives input a rest →
    r'.Gives (input.map (Token.moved m.distance)) (f a) (rest.map (Token.moved m.distance))

variable {m : Move}

theorem follows_pure {f : α → β} {a : α} {b : β} (h : f a = b) :
    Follows m f (pure a) (pure b) := by
  intro input c rest _ hgives
  obtain ⟨rfl, rfl⟩ := gives_pure.mp hgives
  exact gives_pure.mpr ⟨h, rfl⟩

theorem follows_fail {f : α → β} {d : Diagnostic} {r' : Reader β} : Follows m f (fail d) r' :=
  fun _ _ _ _ hgives => (not_gives_fail hgives).elim

/-- Readers in a row, where the second one has to follow only for what the first one can give
(`Gives`). -/
theorem follows_bind_of_gives {f : α → β} {g : γ → δ} {r : Reader α} {r' : Reader β}
    {k : α → Reader γ} {k' : β → Reader δ} (hr : Follows m f r r')
    (hk : ∀ input a behind, m.Keeps input → r.Gives input a behind →
      Follows m g (k a) (k' (f a))) : Follows m g (r >>= k) (r' >>= k') := by
  intro input c rest htexts hgives
  obtain ⟨a, behind, ha, hc⟩ := gives_bind.mp hgives
  exact gives_bind.mpr ⟨f a, _, hr input a behind htexts ha,
    hk input a behind htexts ha behind c rest (htexts.suffix ha.suffix) hc⟩

theorem follows_bind {f : α → β} {g : γ → δ} {r : Reader α} {r' : Reader β} {k : α → Reader γ}
    {k' : β → Reader δ} (hr : Follows m f r r') (hk : ∀ a, Follows m g (k a) (k' (f a))) :
    Follows m g (r >>= k) (r' >>= k') :=
  follows_bind_of_gives hr fun _ a _ _ _ => hk a

theorem follows_nextIf {f : TokenKind → Option α} :
    Follows m (Option.map fun x => (x.1, x.2.moved m.distance)) (nextIf f) (nextIf f) := by
  intro input x rest _ hgives
  rcases gives_nextIf.mp hgives with ⟨t, a, rfl, ha, rfl⟩ | ⟨hnone, rfl, rfl⟩
  · exact gives_nextIf.mpr (.inl ⟨t.moved m.distance, a, rfl, ha, rfl⟩)
  · refine gives_nextIf.mpr (.inr ⟨fun t ht => ?_, rfl, rfl⟩)
    rw [List.head?_map, Option.map_eq_some_iff] at ht
    obtain ⟨u, hu, rfl⟩ := ht
    exact hnone u hu

theorem follows_peek : Follows m (Option.map (Token.moved m.distance)) peek peek := by
  intro input x rest _ hgives
  obtain ⟨rfl, rfl⟩ := gives_peek.mp hgives
  exact gives_peek.mpr ⟨List.head?_map.symm, rfl⟩

theorem follows_eat {kind : TokenKind} :
    Follows m (Option.map (Token.moved m.distance)) (eat kind) (eat kind) := by
  refine follows_bind follows_nextIf fun x => follows_pure ?_
  cases x <;> rfl

theorem follows_foldWhile {f : TokenKind → Option γ} {g : α → β} {body : α → γ → Reader α}
    {body' : β → γ → Reader β} {a : α}
    (hbody : ∀ a x, Follows m g (body a x) (body' (g a) x)) :
    Follows m g (foldWhile f body a) (foldWhile f body' (g a)) := by
  intro input
  -- each round takes a token, so the induction is on their number
  induction hn : input.length using Nat.strongRecOn generalizing input a with
  | ind n ih =>
    intro b rest htexts hgives
    rcases gives_foldWhile.mp hgives with
      ⟨hnone, rfl, rfl⟩ | ⟨t, ts, x, c, behind, rfl, hx, hround, hmore⟩
    · refine gives_foldWhile.mpr (.inl ⟨fun t ht => ?_, rfl, rfl⟩)
      rw [List.head?_map, Option.map_eq_some_iff] at ht
      obtain ⟨u, hu, rfl⟩ := ht
      exact hnone u hu
    · have htexts' := htexts.suffix (List.suffix_cons t ts)
      have hround' := hbody a x ts c behind htexts' hround
      have hlt : behind.length < n := by
        have := hround.suffix.length_le
        rw [← hn, List.length_cons]
        omega
      exact gives_foldWhile.mpr (.inr ⟨t.moved m.distance, ts.map (Token.moved m.distance), x, g c,
        behind.map (Token.moved m.distance), rfl, hx, hround',
        ih _ hlt behind rfl b rest (htexts'.suffix hround.suffix) hmore⟩)

end Reader

/-! ### The grammar

Each reader of the grammar follows itself, since it looks at kinds and texts only. A reader that
runs inside of another is given by the induction on the levels. -/

namespace Expr

open Reader

variable {m : Move} {p p' : Passage}

/-- Passages of the two sources of a `Move`, which have the texts of their tokens from there. -/
def Passage.Moved (m : Move) (p p' : Passage) : Prop := p.source = m.source ∧ p'.source = m.target

/-- Readers of nested expressions that follow each other (`Reader.Follows`). -/
structure Nested.Follows (m : Move) (inner inner' : Nested) : Prop where
  unary : Reader.Follows m (moved m.distance) inner.unary inner'.unary
  expression : Reader.Follows m (moved m.distance) inner.expression inner'.expression
  arguments : Reader.Follows m (movedAll m.distance) inner.arguments inner'.arguments

theorem follows_expect {kind : TokenKind} {expected : Expectation} :
    Follows m (Token.moved m.distance) (p.expect kind expected) (p'.expect kind expected) := by
  refine follows_bind follows_eat fun x => ?_
  cases x with
  | some t => exact follows_pure rfl
  | none =>
    refine follows_bind follows_peek fun y => ?_
    cases y <;> exact follows_fail

/-- What is expected is the next token. -/
theorem gives_expect {kind : TokenKind} {expected : Expectation} {t : Token}
    {input rest : List Token} (h : (p.expect kind expected).Gives input t rest) :
    input = t :: rest ∧ t.kind = kind := by
  obtain ⟨x, behind, heat, hmore⟩ := gives_bind.mp h
  rcases gives_eat.mp heat with ⟨u, rfl, hkind, rfl⟩ | ⟨-, rfl, rfl⟩
  · obtain ⟨rfl, rfl⟩ := gives_pure.mp hmore
    exact ⟨rfl, hkind⟩
  · obtain ⟨y, behind, -, hfail⟩ := gives_bind.mp hmore
    cases y <;> exact (not_gives_fail hfail).elim

variable {inner inner' : Nested}

/-- The next token, if its text is kept, as all that a reader may look at in it. -/
theorem follows_next {f : α → β} {k : Option Token → Reader α} {k' : Option Token → Reader β}
    (hnone : Follows m f (k none) (k' none))
    (hsome : ∀ t, t.text m.source = (t.moved m.distance).text m.target →
      Follows m f (k (some t)) (k' (some (t.moved m.distance)))) :
    Follows m f (Reader.next >>= k) (Reader.next >>= k') := by
  intro input a rest htexts hgives
  obtain ⟨x, behind, ⟨hvalue, hbehind⟩, hk⟩ := gives_bind.mp hgives
  cases input with
  | nil =>
    cases hvalue
    cases hbehind
    exact gives_bind.mpr ⟨none, [], ⟨rfl, rfl⟩, hnone [] a rest htexts hk⟩
  | cons t ts =>
    cases hvalue
    cases hbehind
    exact gives_bind.mpr ⟨some (t.moved m.distance), ts.map (Token.moved m.distance), ⟨rfl, rfl⟩,
      hsome t (htexts t (List.mem_cons_self ..)) ts a rest (htexts.suffix (List.suffix_cons t ts))
        hk⟩

theorem follows_readPrimary (hp : p.Moved m p') (h : inner.Follows m inner') :
    Follows m (moved m.distance) (readPrimary p inner) (readPrimary p' inner') := by
  refine follows_next follows_fail fun t htext => ?_
  -- the text of a token is where the distance shows; `htext` says that the text itself is the same
  rw [← hp.1, ← hp.2] at htext
  obtain ⟨kind, span⟩ := t
  cases kind with
  | number =>
    dsimp only [Token.moved]
    rw [htext]
    dsimp only [Token.moved]
    split
    · exact follows_pure rfl
    · exact follows_fail
  | string =>
    refine follows_pure ?_
    rw [htext]
    rfl
  | boolean =>
    refine follows_pure ?_
    rw [htext]
    rfl
  | identifier =>
    refine follows_pure ?_
    show identifier _ _ = identifier _ _
    rw [htext]
    rfl
  | lParen =>
    refine follows_bind h.expression fun e => ?_
    exact follows_bind follows_expect fun _ => follows_pure rfl
  | _ => exact follows_fail

theorem follows_readAccess (hp : p.Moved m p') (h : inner.Follows m inner') (e : Expr)
    (access : Access) :
    Follows m (moved m.distance) (readAccess p inner e access)
      (readAccess p' inner' (e.moved m.distance) access) := by
  -- only `property` keeps a text; the others have to move their closing span alone
  cases access with
  | property =>
    refine follows_bind_of_gives follows_expect fun input name rest htexts hname => ?_
    obtain ⟨rfl, -⟩ := gives_expect hname
    have htext := htexts name (List.mem_cons_self ..)
    rw [← hp.1, ← hp.2] at htext
    refine follows_pure ?_
    show member _ (identifier _ _) _ _ = member _ (identifier _ _) _ _
    rw [Span.cover_moved, ← span_moved, htext]
    rfl
  | index =>
    refine follows_bind h.expression fun index => ?_
    refine follows_bind follows_expect fun close => follows_pure ?_
    show member _ _ _ _ = member _ _ _ _
    rw [Span.cover_moved, ← span_moved]
    rfl
  | call =>
    refine follows_bind h.arguments fun arguments => ?_
    refine follows_bind follows_expect fun close => follows_pure ?_
    show call _ _ _ = call _ _ _
    rw [Span.cover_moved, ← span_moved]
    rfl

theorem follows_readPostfix (hp : p.Moved m p') (h : inner.Follows m inner') :
    Follows m (moved m.distance) (readPostfix p inner) (readPostfix p' inner') :=
  follows_bind (follows_readPrimary hp h) fun _ =>
    follows_foldWhile fun e access => follows_readAccess hp h e access

theorem follows_readUnary (hp : p.Moved m p') (h : inner.Follows m inner') :
    Follows m (moved m.distance) (readUnary p inner) (readUnary p' inner') := by
  refine follows_bind follows_nextIf fun x => ?_
  cases x with
  | none => exact follows_readPostfix hp h
  | some x =>
    refine follows_bind h.unary fun operand => follows_pure ?_
    show unary _ _ _ = unary _ _ _
    rw [Span.cover_moved, ← span_moved]
    rfl

theorem follows_readBinary {operand operand' : Reader Expr}
    (h : Follows m (moved m.distance) operand operand') (lowest : Nat) :
    Follows m (moved m.distance) (readBinary operand lowest) (readBinary operand' lowest) := by
  -- the operands on the right have fewer strata of operators
  induction hn : BinaryOp.tightest + 1 - lowest using Nat.strongRecOn generalizing lowest with
  | ind n ih =>
    rw [readBinary, readBinary]
    refine follows_bind h fun _ => follows_foldWhile fun left op => ?_
    have hlowest := op.2
    have htightest := op.1.precedence_le_tightest
    have hoperand := ih _ (by omega) (op.1.precedence + 1) rfl
    refine follows_bind hoperand fun right => follows_pure ?_
    show binary _ _ _ _ = binary _ _ _ _
    rw [Span.cover_moved, ← span_moved, ← span_moved]

theorem follows_readExpression (hp : p.Moved m p') (h : inner.Follows m inner') :
    Follows m (moved m.distance) (readExpression p inner) (readExpression p' inner') := by
  refine follows_bind (follows_readBinary (follows_readUnary hp h) _) fun condition => ?_
  refine follows_bind follows_eat fun x => ?_
  cases x with
  | none => exact follows_pure rfl
  | some t =>
    refine follows_bind h.expression fun consequent => ?_
    refine follows_bind follows_expect fun _ => ?_
    refine follows_bind h.expression fun alternate => follows_pure ?_
    show ternary _ _ _ _ = ternary _ _ _ _
    rw [Span.cover_moved, ← span_moved, ← span_moved]

theorem follows_readArguments {expression expression' : Reader Expr}
    (h : Follows m (moved m.distance) expression expression') :
    Follows m (movedAll m.distance) (readArguments expression) (readArguments expression') := by
  refine follows_bind follows_peek fun x => ?_
  have hsame : (x.map (Token.moved m.distance)).any (·.kind == .rParen)
      = x.any (·.kind == .rParen) := by
    cases x <;> rfl
  rw [hsame]
  split
  · exact follows_pure rfl
  · refine follows_bind h fun first => ?_
    -- the arguments are collected newest first
    have hmore : Follows m (movedAll m.distance)
        (foldWhile comma? (readArgument expression) [first])
        (foldWhile comma? (readArgument expression') (movedAll m.distance [first])) :=
      follows_foldWhile fun arguments _ => follows_bind h fun _ => follows_pure rfl
    refine follows_bind hmore fun arguments => follows_pure ?_
    rw [movedAll_eq_map, movedAll_eq_map, List.map_reverse]

/-- What may be `nested` follows level by level, by induction on the number of levels. -/
theorem follows_nested (hp : p.Moved m p') (n : Nat) :
    (nested p n).Follows m (nested p' n) := by
  induction n with
  | zero =>
    have hfail : ∀ {α β : Type} {f : α → β},
        Follows m f (p.failTooDeep : Reader α) (p'.failTooDeep : Reader β) :=
      follows_bind follows_peek fun _ => follows_fail
    exact ⟨hfail, hfail, hfail⟩
  | succ n ih =>
    exact ⟨follows_readUnary hp ih, follows_readExpression hp ih,
      follows_readArguments (follows_readExpression hp ih)⟩

/-- Tokens make up an expression (`parse`) if the reader `Gives` it of them and leaves nothing. -/
theorem parse_eq_ok_iff {source : String} {tokens : List Token} {e : Expr} :
    parse source tokens = .ok e ↔ (read (Passage.of source tokens)).Gives tokens e [] := by
  unfold parse Gives
  simp only
  cases hresult : (read (Passage.of source tokens) tokens).result with
  | error d => simp
  | ok a =>
    cases hrest : (read (Passage.of source tokens) tokens).rest with
    | nil => simp
    | cons t ts => simp

/-- **Moved expressions.** Tokens that keep their texts (`Move.Keeps`) and make up an expression
make up the moved expression wherever they are moved to. -/
theorem parse_moved {tokens : List Token} {e : Expr} (htexts : m.Keeps tokens)
    (h : parse m.source tokens = .ok e) :
    parse m.target (tokens.map (Token.moved m.distance)) = .ok (e.moved m.distance) := by
  let p := Passage.of m.source tokens
  let p' := Passage.of m.target (tokens.map (Token.moved m.distance))
  have hread : (read p).Gives tokens e [] := parse_eq_ok_iff.mp h
  have hp : p.Moved m p' := ⟨rfl, rfl⟩
  exact parse_eq_ok_iff.mpr ((follows_nested hp (maxNesting + 1)).expression tokens e [] htexts hread)

end Expr

end RsxInspect
