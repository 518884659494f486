import RsxInspect.Proofs.Expr.Machine
import RsxInspect.Proofs.Expr.Prompt

/-!
# Asking a parser again

After an expression or a diagnostic, a parser can be asked for the next expression. Every reader of
the grammar that begins with an operand takes the first token, whether it succeeds or not
(`Reader.Advances`), so what is left gets shorter each time (`Advances.length_left_succ_lt`).

A parser plays the grammar call by call (`Machine.Returns`), hence `Calls` gives where it stands in
front of each call and what it returns. So parsers that are asked again and again come to the end of
their tokens, and each time they begin at the depth of a new parser (`Expr.calls_reusable`).
-/

namespace RsxInspect

namespace Reader

/-- Where there is a token, the reader takes it, whether it succeeds or not. -/
def Advances (r : Reader α) : Prop := ∀ t ts, (r (t :: ts)).rest <:+ ts

theorem rest_bind_suffix (r : Reader α) (k : α → Reader β) (input : List Token) :
    ((r >>= k) input).rest <:+ (r input).rest := by
  rw [bind_apply, Reader.bind]
  cases hr : (r input).result with
  | error d => exact List.suffix_refl _
  | ok a => exact (k a (r input).rest).suffix

theorem Advances.bind {r : Reader α} (h : r.Advances) (k : α → Reader β) : (r >>= k).Advances :=
  fun t ts => (rest_bind_suffix r k (t :: ts)).trans (h t ts)

theorem advances_next : next.Advances := fun _ ts => List.suffix_refl ts

/-- If the first token is not taken by `nextIf`, it is left for the reader behind, which has to take
it. -/
theorem advances_nextIf_bind {f : TokenKind → Option α} {k : Option (α × Token) → Reader β}
    (hnone : (k none).Advances) : (nextIf f >>= k).Advances := by
  intro t ts
  cases hf : f t.kind with
  | some a =>
    have hrest := rest_bind_suffix (nextIf f) k (t :: ts)
    have htaken : (nextIf f (t :: ts)).rest = ts := by rw [nextIf, hf]
    rwa [htaken] at hrest
  | none =>
    rw [bind_apply, Reader.bind, nextIf, hf]
    exact hnone t ts

variable {r : Reader α} {input : List Token}

/-- What is left after `n` readings, whatever came out of them. -/
def left (r : Reader α) (input : List Token) : Nat → List Token
  | 0 => input
  | n + 1 => (r (left r input n)).rest

theorem left_suffix (r : Reader α) (input : List Token) (n : Nat) : r.left input n <:+ input := by
  induction n with
  | zero => exact List.suffix_refl input
  | succ n ih => exact (r (r.left input n)).suffix.trans ih

theorem left_succ_suffix (r : Reader α) (input : List Token) (n : Nat) :
    r.left input (n + 1) <:+ r.left input n :=
  (r (r.left input n)).suffix

theorem left_rest (n : Nat) : r.left (r input).rest n = r.left input (n + 1) := by
  induction n with
  | zero => rfl
  | succ n ih =>
    rw [left, ih]
    rfl

theorem readTimes_eq (n : Nat) :
    r.readTimes n input = (List.range n).map fun i => (r (r.left input i)).result := by
  induction n generalizing input with
  | zero => rfl
  | succ n ih =>
    rw [readTimes, ih, List.range_succ_eq_map, List.map_cons, List.map_map]
    congr 1
    exact List.map_congr_left fun i _ => by rw [left_rest]; rfl

/-- A reader that `Advances` leaves less each time, as long as there is anything left. -/
theorem Advances.length_left_succ_lt (h : r.Advances) {n : Nat} (hleft : r.left input n ≠ []) :
    (r.left input (n + 1)).length < (r.left input n).length := by
  obtain ⟨t, ts, hcons⟩ := List.exists_cons_of_ne_nil hleft
  have hle := (h t ts).length_le
  rw [left, hcons, List.length_cons]
  omega

theorem Advances.length_left_le (h : r.Advances) (n : Nat) :
    (r.left input n).length ≤ input.length - n := by
  induction n with
  | zero => exact Nat.le_refl _
  | succ n ih =>
    by_cases hleft : r.left input n = []
    · have hle := (left_succ_suffix r input n).length_le
      rw [hleft] at hle
      exact Nat.le_trans hle (Nat.zero_le _)
    · have hlt := h.length_left_succ_lt hleft
      omega

/-- So with as many readings as there are tokens nothing is left (`Reader.left`). -/
theorem Advances.left_eq_nil (h : r.Advances) {n : Nat} (hn : input.length ≤ n) :
    r.left input n = [] := by
  have hle := @length_left_le _ r input h n
  rw [Nat.sub_eq_zero_of_le hn] at hle
  exact List.length_eq_zero_iff.mp (Nat.le_zero.mp hle)

end Reader

namespace Expr

open Reader

variable {p : Passage} {tokens : List Token}

/-! ### The grammar advances -/

theorem advances_readPostfix (p : Passage) (inner : Nested) : (readPostfix p inner).Advances :=
  (advances_next.bind _).bind _

theorem advances_readUnary (p : Passage) (inner : Nested) : (readUnary p inner).Advances :=
  advances_nextIf_bind (advances_readPostfix p inner)

theorem advances_read (p : Passage) : (read p).Advances := by
  refine Advances.bind ?_ _
  rw [readBinary]
  exact (advances_readUnary p _).bind _

/-- Where no token is left there is no expression (`Problem.noExpression`). -/
theorem result_read_nil (p : Passage) :
    (read p []).result = .error (Problem.noExpression.on p.endSpan) := by
  let inner := nested p maxNesting
  have hprimary : (readPrimary p inner).Fails [] (Problem.noExpression.on p.endSpan) :=
    fails_bind.mpr (.inr ⟨none, [], ⟨rfl, rfl⟩, rfl⟩)
  have hunary : (readUnary p inner).Fails [] (Problem.noExpression.on p.endSpan) :=
    fails_bind.mpr (.inr ⟨none, [], ⟨rfl, rfl⟩, fails_bind.mpr (.inl hprimary)⟩)
  have hbinary : (readBinary (readUnary p inner) BinaryOp.loosest).Fails []
      (Problem.noExpression.on p.endSpan) := by
    rw [readBinary]
    exact fails_bind.mpr (.inl hunary)
  exact fails_bind.mpr (.inl hbinary)

/-! ### Calls in a row

A call starts where the one before has left the parser, with the depth that it left. `Calls` holds
both for any number of calls, and the fields of the result are read off it by induction on the
number. -/

/-- Calls of `takeExpression` on one parser in a row: where it stands in front of each of them, and
what it returns. Each call starts where the one before it came to. -/
structure Calls (p : Passage) (tokens : List Token) where
  stands : Nat → Standing
  results : Nat → Except Diagnostic Expr
  begins : stands 0 = ⟨0, 0⟩
  calls : ∀ i,
    Machine.Returns (Machine.takeExpression tokens p) (stands i) (results i, stands (i + 1))

theorem returns_takeExpression (n : Nat) :
    Machine.Returns (Machine.takeExpression tokens p)
      (Machine.before tokens ((read p).left tokens n) 0)
      ((read p ((read p).left tokens n)).result,
        Machine.before tokens ((read p).left tokens (n + 1)) 0) :=
  Machine.plays_takeExpression 0 _ (left_suffix (read p) tokens n)

theorem begins_before : Machine.before tokens ((read p).left tokens 0) 0 = ⟨0, 0⟩ := by
  rw [left, Machine.before, Nat.sub_self]

/-- Every call returns (`Machine.Returns`), so there are such calls for all tokens: the parser plays
what the reader makes of what is left. -/
def Calls.of (p : Passage) (tokens : List Token) : Calls p tokens where
  stands n := Machine.before tokens ((read p).left tokens n) 0
  results n := (read p ((read p).left tokens n)).result
  begins := begins_before
  calls := returns_takeExpression

namespace Calls

variable (c : Calls p tokens)

/-- The parser stands at depth 0, in front of what a reader leaves that is asked as often
(`left`). -/
theorem stands_eq (n : Nat) : c.stands n = Machine.before tokens ((read p).left tokens n) 0 := by
  induction n with
  | zero => rw [c.begins, begins_before]
  | succ n ih =>
    have hcall := c.calls n
    rw [ih] at hcall
    exact congrArg Prod.snd (hcall.unique (returns_takeExpression n))

theorem results_eq (n : Nat) : c.results n = (read p ((read p).left tokens n)).result := by
  have hcall := c.calls n
  rw [c.stands_eq] at hcall
  exact congrArg Prod.fst (hcall.unique (returns_takeExpression n))

theorem depth_eq (n : Nat) : (c.stands n).depth = 0 := by
  rw [c.stands_eq]
  rfl

theorem position_eq (n : Nat) :
    (c.stands n).position = tokens.length - ((read p).left tokens n).length := by
  rw [c.stands_eq]
  rfl

theorem drop_position (n : Nat) : tokens.drop (c.stands n).position = (read p).left tokens n := by
  rw [c.position_eq]
  exact (List.suffix_iff_eq_drop.mp (left_suffix (read p) tokens n)).symm

theorem position_le_succ (n : Nat) : (c.stands n).position ≤ (c.stands (n + 1)).position := by
  have hle := (left_succ_suffix (read p) tokens n).length_le
  rw [c.position_eq, c.position_eq]
  omega

/-- A call takes a token, if one is left, since the reader `Advances`. -/
theorem position_lt_succ {n : Nat} (h : (c.stands n).position < tokens.length) :
    (c.stands n).position < (c.stands (n + 1)).position := by
  have hleft : (read p).left tokens n ≠ [] := by
    rw [← c.drop_position, Ne, List.drop_eq_nil_iff]
    exact Nat.not_le.mpr h
  have hlt := (advances_read p).length_left_succ_lt hleft
  have hle := (left_suffix (read p) tokens n).length_le
  rw [c.position_eq, c.position_eq]
  omega

theorem position_of_length_le {n : Nat} (h : tokens.length ≤ n) :
    (c.stands n).position = tokens.length := by
  rw [c.position_eq, (advances_read p).left_eq_nil h]
  rfl

/-- At the end a call finds nothing. -/
theorem results_of_position_eq {n : Nat} (h : (c.stands n).position = tokens.length) :
    c.results n = .error (Problem.noExpression.on p.endSpan) := by
  rw [c.results_eq, ← c.drop_position, h, List.drop_length, result_read_nil]

end Calls

/-- **Asking a parser again.** A parser can be called any number of times, whatever its calls
return. A call leaves the depth as it was, it never moves back or beyond the last token, and it takes
a token if one is left. So each call returns what is read from where it begins with all the nesting
that is allowed; and after as many calls as there are tokens the parser is at the end, where it stays
and finds no expression. This goes for tokens with any spans, since `Span.text` gives all of them a
text. -/
theorem calls_reusable (source : String) (tokens : List Token) :
    let p := Passage.of source tokens
    Nonempty (Calls p tokens) ∧ ∀ c : Calls p tokens,
      (∀ i, (c.stands (i + 1)).depth = (c.stands i).depth)
        ∧ (∀ i, (c.stands i).position ≤ tokens.length)
        ∧ (∀ i, (c.stands i).position ≤ (c.stands (i + 1)).position)
        ∧ (∀ i, (c.stands i).position < tokens.length →
            (c.stands i).position < (c.stands (i + 1)).position)
        ∧ (∀ i, c.results i = (read p (tokens.drop (c.stands i).position)).result)
        ∧ (∀ i, tokens.length ≤ i → (c.stands i).position = tokens.length)
        ∧ (∀ i, (c.stands i).position = tokens.length → c.results i
            = .error ⟨.unexpectedToken, p.endSpan, "unexpected end of expression"⟩)
        ∧ ∀ n, (read p).readTimes n tokens = (List.range n).map c.results := by
  intro p
  -- the parts are read off the equations for `depth`, `position` and `results` of a run of calls
  refine ⟨⟨Calls.of p tokens⟩, fun c => ⟨?_, ?_, c.position_le_succ, fun _ => c.position_lt_succ,
    ?_, fun _ => c.position_of_length_le, fun _ => c.results_of_position_eq, ?_⟩⟩
  · exact fun i => (c.depth_eq (i + 1)).trans (c.depth_eq i).symm
  · intro i
    rw [c.position_eq]
    exact Nat.sub_le ..
  · intro i
    rw [c.drop_position, c.results_eq]
  · intro n
    rw [readTimes_eq, funext c.results_eq]

/-- A parenthesis that closes nothing is taken by the first call; the second one finds the end. -/
theorem calls_reusable_stray :
    let tokens : List Token := [⟨.rParen, ⟨0, 1⟩⟩]
    ∃ c : Calls (Passage.of ")" tokens) tokens,
      (c.stands 0).position < (c.stands 1).position ∧
        c.results 1 = .error ⟨.unexpectedToken, ⟨1, 1⟩, "unexpected end of expression"⟩ := by
  intro tokens
  obtain ⟨⟨c⟩, hall⟩ := calls_reusable ")" tokens
  obtain ⟨-, -, -, hmoves, -, hend, hnothing, -⟩ := hall c
  have hbegins : (c.stands 0).position < tokens.length := by
    rw [c.begins]
    decide
  exact ⟨c, hmoves 0 hbegins, hnothing 1 (hend 1 (Nat.le_refl 1))⟩

end Expr

end RsxInspect
