import RsxInspect.Expr.Grammar

/-!
# Parsers with a position and a depth

The readers of the grammar have the depth of nesting in their definition: `nested p n` is what may
nest `n` levels deeper. Here is the same grammar as a parser that moves a position along its tokens
and counts its depth up and down (`Machine.takeExpression`). Nothing in it says that its calls come
to an end, so they are bounded by a number that only serves to define them; `Machine.Returns` is the
outcome with whatever bound it takes, and that there is one has to be proved. A diagnostic goes up
through all the levels at once, so that the depth is right behind it has to be proved as well.

`Machine.Plays` says that a parser returns the result of a reader, in front of the tokens that the
reader leaves, and as deep as it began. Steps in a row play readers in a row (`plays_bind`), loops
play repetitions (`plays_foldWhile`), and one level deeper the limit is one level closer
(`plays_deeper_of_lt`). So each function of the parser plays its reader, by induction on the levels
that are left (`playsInside_nested`), and the parser plays the grammar (`plays_takeExpression`).
-/

namespace RsxInspect

namespace Expr

/-- Where a parser stands: behind how many tokens, and how deep in nested expressions. -/
structure Standing where
  position : Nat
  depth : Nat

/-- A parser changes where it stands, and has a value or a diagnostic in the end. Changes that were
made before a diagnostic last, and so would a depth that is not given back. There is no outcome
where calls are cut off. -/
abbrev Machine := ExceptT Diagnostic (StateT Standing Option)

namespace Machine

/-- What the parser comes to from where it stands, and where it stands then. -/
def go (m : Machine α) (s : Standing) : Option (Except Diagnostic α × Standing) := m.run.run s

/-- A call that is cut off. -/
def cutOff : Machine α := ExceptT.mk fun _ => none

variable (tokens : List Token)

/-- The next token, which is not taken. -/
def peek : Machine (Option Token) := do
  pure tokens[(← get).position]?

/-- Takes a token. -/
def skip : Machine Unit := modify fun s => { s with position := s.position + 1 }

/-- Takes the next token, if there is one. -/
def next : Machine (Option Token) := do
  match ← peek tokens with
  | none => pure none
  | some t =>
    skip
    pure (some t)

/-- Takes the next token if its kind stands for something, and else leaves it. -/
def nextIf (f : TokenKind → Option α) : Machine (Option (α × Token)) := do
  match ← peek tokens with
  | none => pure none
  | some t =>
    match f t.kind with
    | none => pure none
    | some a =>
      skip
      pure (some (a, t))

/-- Takes the next token if it is of the given kind. -/
def eat (kind : TokenKind) : Machine (Option Token) := do
  let t ← nextIf tokens fun k => if k = kind then some () else none
  pure (t.map Prod.snd)

variable (p : Passage)

/-- Fails because of the token `t`, where something else was expected. -/
def failOn (expected : Expectation) (t : Token) : Machine α :=
  throw ((Problem.found expected (t.text p.source)).on t.span)

/-- Takes a token of the given kind, or fails with what was met instead (`failOn`). -/
def expect (kind : TokenKind) (expected : Expectation) : Machine Token := do
  match ← eat tokens kind with
  | some t => pure t
  | none =>
    match ← peek tokens with
    | some t => failOn p expected t
    | none => throw ((Problem.ended expected).on p.endSpan)

/-- Runs `body` one level deeper, and comes back up with its value or its diagnostic. At
`maxNesting` it fails without running it. -/
def deeper (body : Machine α) : Machine α := do
  let s ← get
  if maxNesting ≤ s.depth then
    let t ← peek tokens
    throw (Problem.tooDeep.on ((t.map (·.span)).getD p.endSpan))
  else
    set { s with depth := s.depth + 1 }
    let back : StateT Standing Option (Except Diagnostic α) := do
      let result ← body.run
      modify fun s => { s with depth := s.depth - 1 }
      pure result
    back

mutual

/-- `condition ? consequent : alternate`, or a binary expression. Here as below, the first number
says how many calls may be within each other. -/
def takeExpression : Nat → Machine Expr
  | 0 => cutOff
  | n + 1 => do
    let condition ← takeBinary n BinaryOp.loosest
    match ← eat tokens .question with
    | none => pure condition
    | some _ =>
      let consequent ← deeper tokens p (takeExpression n)
      let _ ← expect tokens p .colon .conditionColon
      let alternate ← deeper tokens p (takeExpression n)
      pure (ternary condition consequent alternate (condition.span.cover alternate.span))

/-- Operands with operators that bind at least as tightly as `lowest`. -/
def takeBinary : Nat → Nat → Machine Expr
  | 0, _ => cutOff
  | n + 1, lowest => do takeOperations n lowest (← takeUnary n)

/-- The loop over the operators behind `left`. -/
def takeOperations : Nat → Nat → Expr → Machine Expr
  | 0, _, _ => cutOff
  | n + 1, lowest, left => do
    match ← nextIf tokens (operatorFrom? lowest) with
    | none => pure left
    | some (op, _) => takeOperations n lowest (← takeOperand n left op.1)

/-- The right operand of the operator `op` behind `left`. -/
def takeOperand : Nat → Expr → BinaryOp → Machine Expr
  | 0, _, _ => cutOff
  | n + 1, left, op => do
    let right ← takeBinary n (op.precedence + 1)
    pure (binary op left right (left.span.cover right.span))

/-- Unary operators in front of a postfix expression. -/
def takeUnary : Nat → Machine Expr
  | 0 => cutOff
  | n + 1 => do
    match ← nextIf tokens UnaryOp.ofToken? with
    | some (op, t) =>
      let operand ← deeper tokens p (takeUnary n)
      pure (unary op operand (t.span.cover operand.span))
    | none => takePostfix n

/-- A primary expression with its properties, indices and calls. -/
def takePostfix : Nat → Machine Expr
  | 0 => cutOff
  | n + 1 => do takeAccesses n (← takePrimary n)

/-- The loop over the properties, indices and calls of `e`. -/
def takeAccesses : Nat → Expr → Machine Expr
  | 0, _ => cutOff
  | n + 1, e => do
    match ← nextIf tokens Access.ofToken? with
    | none => pure e
    | some (access, _) => takeAccesses n (← takeAccess n e access)

/-- What follows the mark of a property, an index or a call of `e`. -/
def takeAccess : Nat → Expr → Access → Machine Expr
  | 0, _, _ => cutOff
  | _ + 1, e, .property => do
    let name ← expect tokens p .identifier .propertyName
    pure (member e (ofIdentifier p name) false (e.span.cover name.span))
  | n + 1, e, .index => do
    let index ← deeper tokens p (takeExpression n)
    let close ← expect tokens p .rBracket .closingBracket
    pure (member e index true (e.span.cover close.span))
  | n + 1, e, .call => do
    let arguments ← deeper tokens p (takeArguments n)
    let close ← expect tokens p .rParen .endOfArguments
    pure (call e arguments (e.span.cover close.span))

/-- The arguments of a call, up to its closing parenthesis. -/
def takeArguments : Nat → Machine (List Expr)
  | 0 => cutOff
  | n + 1 => do
    if (← peek tokens).any (·.kind == .rParen) then pure []
    else
      let first ← takeExpression n
      let arguments ← takeMoreArguments n [first]
      pure arguments.reverse

/-- The loop over the arguments behind a comma, which are collected newest first. -/
def takeMoreArguments : Nat → List Expr → Machine (List Expr)
  | 0, _ => cutOff
  | n + 1, arguments => do
    match ← nextIf tokens comma? with
    | none => pure arguments
    | some _ => takeMoreArguments n (← takeArgument n arguments)

/-- One more argument. -/
def takeArgument : Nat → List Expr → Machine (List Expr)
  | 0, _ => cutOff
  | n + 1, arguments => do pure ((← takeExpression n) :: arguments)

/-- A literal, a name or an expression in parentheses. -/
def takePrimary : Nat → Machine Expr
  | 0 => cutOff
  | n + 1 => do
    match ← next tokens with
    | none => throw (Problem.noExpression.on p.endSpan)
    | some t =>
      match t.kind with
      | .number =>
        match NumberLiteral.value? (t.text p.source).toList with
        | some x => pure (number x t.span)
        | none => failOn p .validNumber t
      | .string => pure (string (String.ofList (Quoted.value (t.text p.source).toList)) t.span)
      | .boolean => pure (boolean (t.text p.source == "true") t.span)
      | .identifier => pure (ofIdentifier p t)
      | .lParen =>
        let e ← deeper tokens p (takeExpression n)
        let _ ← expect tokens p .rParen .closingParenthesis
        pure e
      | _ => failOn p .operand t

end

variable {tokens : List Token} {p : Passage} {s s' : Standing}

/-! ### Outcomes

The bound on the calls does not matter once it is enough (`Returns.unique`), so an outcome is said
without it, and steps in a row are taken apart by `returns_bind_ok` and `returns_bind_error`. -/

/-- The parser comes to the outcome `o` if it may have as many calls within each other as it takes.
With fewer of them it is cut off, so no bound gives another outcome (`Returns.unique`). -/
def Returns (m : Nat → Machine α) (s : Standing) (o : Except Diagnostic α × Standing) : Prop :=
  ∃ n, ∀ k, go (m k) s = if n ≤ k then some o else none

theorem Returns.unique {m : Nat → Machine α} {o o' : Except Diagnostic α × Standing}
    (h : Returns m s o) (h' : Returns m s o') : o = o' := by
  obtain ⟨n, hn⟩ := h
  obtain ⟨n', hn'⟩ := h'
  have hsame := (hn (max n n')).symm.trans (hn' (max n n'))
  rw [if_pos (Nat.le_max_left n n'), if_pos (Nat.le_max_right n n')] at hsame
  exact Option.some.inj hsame

/-- A call returns what its body returns with one call less, if it is `cutOff` with none. -/
theorem Returns.of_succ {m : Nat → Machine α} {o : Except Diagnostic α × Standing}
    (hzero : m 0 = cutOff) (h : Returns (fun k => m (k + 1)) s o) : Returns m s o := by
  obtain ⟨n, hn⟩ := h
  refine ⟨n + 1, fun k => ?_⟩
  cases k with
  | zero =>
    rw [hzero, if_neg (Nat.not_succ_le_zero n)]
    rfl
  | succ k => simp only [hn k, Nat.add_le_add_iff_right]

theorem returns_of_forall {m : Nat → Machine α} {o : Except Diagnostic α × Standing}
    (h : ∀ k, go (m k) s = some o) : Returns m s o :=
  ⟨0, fun k => by rw [if_pos (Nat.zero_le k), h]⟩

theorem go_bind {m : Machine α} {f : α → Machine β} : go (m >>= f) s =
    match go m s with
    | none => none
    | some (.ok a, s') => go (f a) s'
    | some (.error d, s') => some (.error d, s') := by
  show (m.run.run s >>= _) = _
  rw [go]
  cases m.run.run s with
  | none => rfl
  | some o =>
    obtain ⟨result, s'⟩ := o
    cases result <;> rfl

theorem returns_bind_ok {m : Nat → Machine α} {f : Nat → α → Machine β} {a : α}
    {o : Except Diagnostic β × Standing} (hm : Returns m s (.ok a, s'))
    (hf : Returns (fun k => f k a) s' o) : Returns (fun k => m k >>= f k) s o := by
  obtain ⟨n, hn⟩ := hm
  obtain ⟨n', hn'⟩ := hf
  refine ⟨max n n', fun k => ?_⟩
  rw [go_bind, hn]
  by_cases hk : n ≤ k
  · simpa [hk, Nat.max_le] using hn' k
  · rw [if_neg hk, if_neg (mt (Nat.le_trans (Nat.le_max_left n n')) hk)]

theorem returns_bind_error {m : Nat → Machine α} {f : Nat → α → Machine β} {d : Diagnostic}
    (hm : Returns m s (.error d, s')) : Returns (fun k => m k >>= f k) s (.error d, s') := by
  obtain ⟨n, hn⟩ := hm
  refine ⟨n, fun k => ?_⟩
  rw [go_bind, hn]
  by_cases hk : n ≤ k <;> simp [hk]

/-! ### Parsers that play readers

One lemma for each operation and each way of putting parsers together. One level deeper a parser
plays what the reader has one level inside, and at the limit both fail (`plays_deeper_of_lt`,
`plays_deeper_of_le`). -/

variable {depth : Nat} {ahead : List Token}

/-- Where a parser stands if `ahead` is left of the tokens: behind all others, so `ahead` is a
suffix of them. -/
def before (tokens ahead : List Token) (depth : Nat) : Standing :=
  ⟨tokens.length - ahead.length, depth⟩

/-- In front of whatever is left of the tokens, the parser comes to the same result as the reader
does, stands in front of what the reader leaves, and is as deep as before. -/
def Plays (tokens : List Token) (m : Nat → Machine α) (r : Reader α) (depth : Nat) : Prop :=
  ∀ ahead, ahead <:+ tokens →
    Returns m (before tokens ahead depth) ((r ahead).result, before tokens (r ahead).rest depth)

theorem plays_of_succ {m : Nat → Machine α} {r : Reader α} (hzero : m 0 = cutOff)
    (h : Plays tokens (fun k => m (k + 1)) r depth) : Plays tokens m r depth :=
  fun ahead hahead => (h ahead hahead).of_succ hzero

theorem plays_pure {a : α} : Plays tokens (fun _ => pure a) (pure a) depth :=
  fun _ _ => returns_of_forall fun _ => rfl

theorem plays_fail {d : Diagnostic} :
    Plays tokens (fun _ => (throw d : Machine α)) (Reader.fail d) depth :=
  fun _ _ => returns_of_forall fun _ => rfl

theorem plays_bind {m : Nat → Machine α} {r : Reader α} {f : Nat → α → Machine β}
    {k : α → Reader β} (hm : Plays tokens m r depth)
    (hf : ∀ a, Plays tokens (fun n => f n a) (k a) depth) :
    Plays tokens (fun n => m n >>= f n) (r >>= k) depth := by
  intro ahead hahead
  have hreturns := hm ahead hahead
  rw [Reader.bind_apply, Reader.bind]
  cases hr : (r ahead).result with
  | error d =>
    rw [hr] at hreturns
    exact returns_bind_error hreturns
  | ok a =>
    rw [hr] at hreturns
    exact returns_bind_ok hreturns (hf a _ ((r ahead).suffix.trans hahead))

theorem go_peek (h : ahead <:+ tokens) :
    go (peek tokens) (before tokens ahead depth)
      = some (.ok ahead.head?, before tokens ahead depth) := by
  obtain ⟨taken, rfl⟩ := h
  have hnext : (taken ++ ahead)[taken.length]? = ahead.head? := by
    rw [List.getElem?_append_right (Nat.le_refl _), Nat.sub_self, List.head?_eq_getElem?]
  rw [before, List.length_append, Nat.add_sub_cancel, ← hnext]
  rfl

theorem go_skip {t : Token} (h : t :: ahead <:+ tokens) :
    go skip (before tokens (t :: ahead) depth) = some (.ok (), before tokens ahead depth) := by
  have hlength := h.length_le
  rw [List.length_cons] at hlength
  have hposition : tokens.length - (ahead.length + 1) + 1 = tokens.length - ahead.length := by omega
  rw [before, before, List.length_cons, ← hposition]
  rfl

theorem go_nextIf_some {f : TokenKind → Option α} {t : Token} {a : α} (h : t :: ahead <:+ tokens)
    (hf : f t.kind = some a) : go (nextIf tokens f) (before tokens (t :: ahead) depth)
      = some (.ok (some (a, t)), before tokens ahead depth) := by
  rw [nextIf, go_bind, go_peek h]
  simp only [List.head?_cons, hf]
  rw [go_bind, go_skip h]
  rfl

theorem go_nextIf_none {f : TokenKind → Option α} (h : ahead <:+ tokens)
    (hf : ∀ t, ahead.head? = some t → f t.kind = none) :
    go (nextIf tokens f) (before tokens ahead depth)
      = some (.ok none, before tokens ahead depth) := by
  rw [nextIf, go_bind, go_peek h]
  cases hhead : ahead.head? with
  | none => rfl
  | some t =>
    simp only [hf t hhead]
    rfl

theorem plays_peek : Plays tokens (fun _ => peek tokens) Reader.peek depth :=
  fun _ hahead => returns_of_forall fun _ => go_peek hahead

theorem plays_next : Plays tokens (fun _ => next tokens) Reader.next depth := by
  refine fun ahead hahead => returns_of_forall fun _ => ?_
  rw [next, go_bind, go_peek hahead]
  cases ahead with
  | nil => rfl
  | cons t ts =>
    simp only [List.head?_cons]
    rw [go_bind, go_skip hahead]
    rfl

theorem plays_nextIf {f : TokenKind → Option α} :
    Plays tokens (fun _ => nextIf tokens f) (Reader.nextIf f) depth := by
  refine fun ahead hahead => returns_of_forall fun _ => ?_
  cases ahead with
  | nil => exact go_nextIf_none hahead nofun
  | cons t ts =>
    rw [Reader.nextIf]
    cases hf : f t.kind with
    | none => exact go_nextIf_none hahead fun u hu => by cases hu; exact hf
    | some a => exact go_nextIf_some hahead hf

theorem plays_eat {kind : TokenKind} :
    Plays tokens (fun _ => eat tokens kind) (Reader.eat kind) depth :=
  plays_bind plays_nextIf fun _ => plays_pure

theorem plays_expect {kind : TokenKind} {expected : Expectation} :
    Plays tokens (fun _ => expect tokens p kind expected) (p.expect kind expected) depth := by
  refine plays_bind plays_eat fun x => ?_
  cases x with
  | some t => exact plays_pure
  | none =>
    refine plays_bind plays_peek fun y => ?_
    cases y <;> exact plays_fail

/-- A loop plays a repetition (`Plays`, `foldWhile`) if its rounds play the rounds of that. The
induction is on the tokens that are left, since each round takes one. -/
theorem plays_foldWhile {f : TokenKind → Option β} {body : α → β → Reader α}
    {round : Nat → α → β → Machine α} {loop : Nat → α → Machine α}
    {step : Nat → α → Option (β × Token) → Machine α} (hzero : ∀ a, loop 0 a = cutOff)
    (hsucc : ∀ n a, loop (n + 1) a = nextIf tokens f >>= step n a)
    (hnone : ∀ n a, step n a none = pure a)
    (hsome : ∀ n a b t, step n a (some (b, t)) = round n a b >>= loop n)
    (hround : ∀ a b, Plays tokens (fun n => round n a b) (body a b) depth) (a : α) :
    Plays tokens (fun n => loop n a) (Reader.foldWhile f body a) depth := by
  intro ahead
  -- each round takes a token, so the induction is on their number
  induction hn : ahead.length using Nat.strongRecOn generalizing ahead a with
  | ind n ih =>
    intro hahead
    refine Returns.of_succ (hzero a) ?_
    simp only [hsucc]
    cases ahead with
    | nil =>
      refine returns_bind_ok (returns_of_forall fun _ => go_nextIf_none hahead nofun) ?_
      simp only [hnone, Reader.foldWhile]
      exact returns_of_forall fun _ => rfl
    | cons t ts =>
      rw [Reader.foldWhile]
      cases hf : f t.kind with
      | none =>
        have hstop : ∀ u, (t :: ts).head? = some u → f u.kind = none :=
          fun u hu => by cases hu; exact hf
        refine returns_bind_ok (returns_of_forall fun _ => go_nextIf_none hahead hstop) ?_
        simp only [hnone]
        exact returns_of_forall fun _ => rfl
      | some b =>
        have hts : ts <:+ tokens := (List.suffix_cons t ts).trans hahead
        have hreturns := hround a b ts hts
        refine returns_bind_ok (returns_of_forall fun _ => go_nextIf_some hahead hf) ?_
        simp only [hsome]
        cases hbody : body a b ts with
        | mk result rest hrest =>
          rw [hbody] at hreturns
          cases result with
          | error d => exact returns_bind_error hreturns
          | ok c =>
            have hlt : rest.length < n := by
              have := hrest.length_le
              rw [← hn, List.length_cons]
              omega
            exact returns_bind_ok hreturns (ih _ hlt c rest rfl (hrest.trans hts))

theorem go_deeper_of_le {m : Machine α} (h : maxNesting ≤ s.depth) :
    go (deeper tokens p m) s = go (do
      let t ← peek tokens
      throw (Problem.tooDeep.on ((t.map (·.span)).getD p.endSpan))) s := by
  have hget : go (get : Machine Standing) s = some (.ok s, s) := rfl
  rw [deeper, go_bind, hget]
  simp only [if_pos h]

theorem go_deeper_of_lt {m : Machine α} (h : s.depth < maxNesting) :
    go (deeper tokens p m) s = (go m ⟨s.position, s.depth + 1⟩).map fun o =>
      (o.1, ⟨o.2.position, o.2.depth - 1⟩) := by
  have hget : go (get : Machine Standing) s = some (.ok s, s) := rfl
  rw [deeper, go_bind, hget]
  simp only [if_neg (Nat.not_le.mpr h)]
  show (m.run.run _ >>= _) = _
  rw [go]
  cases m.run.run ⟨s.position, s.depth + 1⟩ <;> rfl

/-- At the limit nothing deeper is begun: the parser fails as `failTooDeep` does. -/
theorem plays_deeper_of_le {m : Nat → Machine α} (h : maxNesting ≤ depth) :
    Plays tokens (fun n => deeper tokens p (m n)) p.failTooDeep depth := by
  refine fun ahead hahead => returns_of_forall fun n => ?_
  rw [go_deeper_of_le h, go_bind, go_peek hahead]
  rfl

/-- Below the limit (`maxNesting`) the body plays one level deeper what it plays as a whole: the
level is given back behind a value and behind a diagnostic. -/
theorem plays_deeper_of_lt {m : Nat → Machine α} {r : Reader α} (h : depth < maxNesting)
    (hm : Plays tokens m r (depth + 1)) :
    Plays tokens (fun n => deeper tokens p (m n)) r depth := by
  intro ahead hahead
  obtain ⟨n, hn⟩ := hm ahead hahead
  refine ⟨n, fun k => (go_deeper_of_lt h).trans ?_⟩
  show (go (m k) (before tokens ahead (depth + 1))).map _ = _
  rw [hn k]
  split <;> rfl

/-! ### The grammar

Each function of the parser has the reader of its name; `PlaysInside` is what the induction on the
levels needs of the functions inside. -/

variable {inner : Nested}

/-- What may be nested is played when it is entered from the given depth: each parser goes one level
`deeper` before it begins. -/
structure PlaysInside (tokens : List Token) (p : Passage) (inner : Nested) (depth : Nat) :
    Prop where
  unary : Plays tokens (fun n => deeper tokens p (takeUnary tokens p n)) inner.unary depth
  expression :
    Plays tokens (fun n => deeper tokens p (takeExpression tokens p n)) inner.expression depth
  arguments :
    Plays tokens (fun n => deeper tokens p (takeArguments tokens p n)) inner.arguments depth

theorem plays_readPrimary (h : PlaysInside tokens p inner depth) :
    Plays tokens (takePrimary tokens p) (readPrimary p inner) depth := by
  refine plays_of_succ (by rw [takePrimary]) ?_
  -- both sides take one token and branch on its kind in the same way
  simp only [takePrimary]
  refine plays_bind plays_next fun x => ?_
  cases x with
  | none => exact plays_fail
  | some t =>
    obtain ⟨kind, span⟩ := t
    cases kind with
    | number =>
      dsimp only
      cases NumberLiteral.value? ((⟨.number, span⟩ : Token).text p.source).toList with
      | none => exact plays_fail
      | some x => exact plays_pure
    | string => exact plays_pure
    | boolean => exact plays_pure
    | identifier => exact plays_pure
    | lParen =>
      exact plays_bind h.expression fun e => plays_bind plays_expect fun _ => plays_pure
    | _ => exact plays_fail

theorem plays_readAccess (h : PlaysInside tokens p inner depth) (e : Expr) (access : Access) :
    Plays tokens (fun n => takeAccess tokens p n e access) (readAccess p inner e access) depth := by
  refine plays_of_succ (by rw [takeAccess]) ?_
  cases access with
  | property =>
    simp only [takeAccess]
    exact plays_bind plays_expect fun _ => plays_pure
  | index =>
    simp only [takeAccess]
    exact plays_bind h.expression fun _ => plays_bind plays_expect fun _ => plays_pure
  | call =>
    simp only [takeAccess]
    exact plays_bind h.arguments fun _ => plays_bind plays_expect fun _ => plays_pure

theorem plays_readPostfix (h : PlaysInside tokens p inner depth) :
    Plays tokens (takePostfix tokens p) (readPostfix p inner) depth := by
  refine plays_of_succ (by rw [takePostfix]) ?_
  simp only [takePostfix]
  exact plays_bind (plays_readPrimary h) (plays_foldWhile (fun _ => by rw [takeAccesses])
    (fun _ _ => by rw [takeAccesses]) (fun _ _ => rfl) (fun _ _ _ _ => rfl) (plays_readAccess h))

theorem plays_readUnary (h : PlaysInside tokens p inner depth) :
    Plays tokens (takeUnary tokens p) (readUnary p inner) depth := by
  refine plays_of_succ (by rw [takeUnary]) ?_
  simp only [takeUnary]
  refine plays_bind plays_nextIf fun x => ?_
  cases x with
  | none => exact plays_readPostfix h
  | some x => exact plays_bind h.unary fun _ => plays_pure

theorem plays_readBinary (h : PlaysInside tokens p inner depth) (lowest : Nat) :
    Plays tokens (fun n => takeBinary tokens p n lowest) (readBinary (readUnary p inner) lowest)
      depth := by
  -- the operands on the right have fewer strata of operators
  induction hn : BinaryOp.tightest + 1 - lowest using Nat.strongRecOn generalizing lowest with
  | ind n ih =>
    have hoperand : ∀ left (op : {op : BinaryOp // lowest ≤ op.precedence}),
        Plays tokens (fun n => takeOperand tokens p n left op.1)
          (readOperand (readBinary (readUnary p inner) (op.1.precedence + 1)) left op.1) depth := by
      intro left op
      have hlowest := op.2
      have htightest := op.1.precedence_le_tightest
      refine plays_of_succ (by rw [takeOperand]) ?_
      simp only [takeOperand]
      exact plays_bind (ih _ (by omega) (op.1.precedence + 1) rfl) fun _ => plays_pure
    refine plays_of_succ (by rw [takeBinary]) ?_
    simp only [takeBinary]
    rw [readBinary]
    exact plays_bind (plays_readUnary h) (plays_foldWhile (fun _ => by rw [takeOperations])
      (fun _ _ => by rw [takeOperations]) (fun _ _ => rfl) (fun _ _ _ _ => rfl) hoperand)

theorem plays_readExpression (h : PlaysInside tokens p inner depth) :
    Plays tokens (takeExpression tokens p) (readExpression p inner) depth := by
  refine plays_of_succ (by rw [takeExpression]) ?_
  simp only [takeExpression]
  refine plays_bind (plays_readBinary h _) fun condition => plays_bind plays_eat fun x => ?_
  cases x with
  | none => exact plays_pure
  | some t =>
    refine plays_bind h.expression fun consequent => plays_bind plays_expect fun _ => ?_
    exact plays_bind h.expression fun _ => plays_pure

theorem plays_readArguments (h : PlaysInside tokens p inner depth) :
    Plays tokens (takeArguments tokens p) (readArguments (readExpression p inner)) depth := by
  have hexpression := plays_readExpression h
  -- the round behind a comma, which the loop below repeats
  have hargument : ∀ arguments (_ : Unit),
      Plays tokens (fun n => takeArgument tokens p n arguments)
        (readArgument (readExpression p inner) arguments ()) depth := by
    intro arguments _
    refine plays_of_succ (by rw [takeArgument]) ?_
    simp only [takeArgument]
    exact plays_bind hexpression fun _ => plays_pure
  refine plays_of_succ (by rw [takeArguments]) ?_
  simp only [takeArguments]
  refine plays_bind plays_peek fun x => ?_
  by_cases hclosed : x.any (·.kind == .rParen) = true
  · simp only [if_pos hclosed]
    exact plays_pure
  · simp only [if_neg hclosed]
    refine plays_bind hexpression fun first => plays_bind ?_ fun _ => plays_pure
    exact plays_foldWhile (fun _ => by rw [takeMoreArguments])
      (fun _ _ => by rw [takeMoreArguments]) (fun _ _ => rfl) (fun _ _ _ _ => rfl) hargument [first]

/-- As many levels are left (`nested`) as the depth is below the limit, by induction on these
levels. -/
theorem playsInside_nested (depth : Nat) :
    PlaysInside tokens p (nested p (maxNesting - depth)) depth := by
  induction hn : maxNesting - depth generalizing depth with
  | zero =>
    have hlimit : maxNesting ≤ depth := Nat.le_of_sub_eq_zero hn
    exact ⟨plays_deeper_of_le hlimit, plays_deeper_of_le hlimit, plays_deeper_of_le hlimit⟩
  | succ n ih =>
    have hlt : depth < maxNesting := by omega
    have hinside := ih (depth + 1) (by omega)
    exact ⟨plays_deeper_of_lt hlt (plays_readUnary hinside),
      plays_deeper_of_lt hlt (plays_readExpression hinside),
      plays_deeper_of_lt hlt (plays_readArguments hinside)⟩

/-- **The parser plays the grammar.** From any depth, `takeExpression` ends with what the grammar
reads with the levels that are left there, and is as deep as before. -/
theorem plays_takeExpression (depth : Nat) :
    Plays tokens (takeExpression tokens p) (nested p (maxNesting - depth + 1)).expression depth :=
  plays_readExpression (playsInside_nested depth)

end Machine

end Expr

end RsxInspect
