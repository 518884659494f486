import RsxInspect.Diagnostic.Problem
import RsxInspect.Token

/-!
# Readers

A reader takes tokens from the front of a list. It ends in a value or in a diagnostic, and in both
cases leaves a rest, which is a suffix of what it was given; so a reader can be asked again after a
failure and never goes back.

`foldWhile` repeats a reader as long as the next token asks for it. It ends because each round takes
that token.
-/

namespace RsxInspect

/-- What a reader makes of `input`: its result, and the tokens that it leaves. -/
structure Outcome (α : Type) (input : List Token) where
  result : Except Diagnostic α
  rest : List Token
  suffix : rest <:+ input

/-- Reads a value from the front of a list of tokens. -/
def Reader (α : Type) := (input : List Token) → Outcome α input

/-- The outcome as that of a longer input. -/
def Outcome.widen {input whole : List Token} (o : Outcome α input) (h : input <:+ whole) :
    Outcome α whole :=
  ⟨o.result, o.rest, o.suffix.trans h⟩

namespace Reader

/-- The value `a`, with nothing taken. -/
protected def pure (a : α) : Reader α :=
  fun input => ⟨.ok a, input, List.suffix_refl input⟩

/-- Reads with `r`, and goes on with the reader for its value. -/
protected def bind (r : Reader α) (f : α → Reader β) : Reader β := fun input =>
  let o := r input
  match o.result with
  | .ok a => (f a o.rest).widen o.suffix
  | .error d => ⟨.error d, o.rest, o.suffix⟩

instance : Monad Reader where
  pure := Reader.pure
  bind := Reader.bind

theorem bind_apply (r : Reader α) (f : α → Reader β) (input : List Token) :
    (r >>= f) input = Reader.bind r f input := rfl

/-- Fails, with nothing taken. -/
def fail (d : Diagnostic) : Reader α :=
  fun input => ⟨.error d, input, List.suffix_refl input⟩

/-- The next token, which is not taken. -/
def peek : Reader (Option Token) :=
  fun input => ⟨.ok input.head?, input, List.suffix_refl input⟩

/-- Takes the next token. -/
def next : Reader (Option Token)
  | [] => ⟨.ok none, [], List.suffix_refl []⟩
  | t :: ts => ⟨.ok (some t), ts, List.suffix_cons t ts⟩

/-- Takes the next token if its kind stands for something. -/
def nextIf (f : TokenKind → Option α) : Reader (Option (α × Token))
  | [] => ⟨.ok none, [], List.suffix_refl []⟩
  | t :: ts =>
    match f t.kind with
    | some a => ⟨.ok (some (a, t)), ts, List.suffix_cons t ts⟩
    | none => ⟨.ok none, t :: ts, List.suffix_refl (t :: ts)⟩

/-- Takes the next token if it is of the given kind. -/
def eat (kind : TokenKind) : Reader (Option Token) := do
  let t ← nextIf fun k => if k = kind then some () else none
  pure (t.map Prod.snd)

/-- As long as the next token stands for something, takes it and goes on from `a` with the reader
for that. -/
def foldWhile (f : TokenKind → Option β) (body : α → β → Reader α) (a : α) : Reader α
  | [] => ⟨.ok a, [], List.suffix_refl []⟩
  | t :: ts =>
    match f t.kind with
    | none => ⟨.ok a, t :: ts, List.suffix_refl (t :: ts)⟩
    | some b =>
      match body a b ts with
      | ⟨.error d, rest, h⟩ => ⟨.error d, rest, h.trans (List.suffix_cons t ts)⟩
      | ⟨.ok a, rest, h⟩ =>
        have := h.length_le
        (foldWhile f body a rest).widen (h.trans (List.suffix_cons t ts))
termination_by ts => ts.length
decreasing_by simp only [List.length_cons]; omega

/-- Reads `n` times, each time from where the time before stopped, whatever came out of it. -/
def readTimes (r : Reader α) : Nat → List Token → List (Except Diagnostic α)
  | 0, _ => []
  | n + 1, input =>
    let o := r input
    o.result :: readTimes r n o.rest

end Reader

end RsxInspect
