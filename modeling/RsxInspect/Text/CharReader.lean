import RsxInspect.Text.CharClass

/-!
# Character readers

A character reader takes characters from the front of a list. It fails, or it ends in a value and
leaves a rest, which is a suffix of what it was given.

`repeatedly` takes a character and asks for the reader of what follows it, again and again. It ends
because each round takes that character.
-/

namespace RsxInspect

/-- A value that was read from the front of `input`, and the characters behind it. -/
structure Remainder (α : Type) (input : List Char) where
  value : α
  rest : List Char
  suffix : rest <:+ input

/-- The same value and rest, of a longer input. -/
def Remainder.widen {input whole : List Char} (r : Remainder α input) (h : input <:+ whole) :
    Remainder α whole :=
  ⟨r.value, r.rest, r.suffix.trans h⟩

/-- Reads a value from the front of a list of characters. -/
def CharReader (α : Type) := (input : List Char) → Option (Remainder α input)

namespace CharReader

/-- The value `a`, with nothing taken. -/
protected def pure (a : α) : CharReader α :=
  fun input => some ⟨a, input, List.suffix_refl input⟩

/-- Reads with `r`, and goes on with the reader for its value. -/
protected def bind (r : CharReader α) (f : α → CharReader β) : CharReader β := fun input =>
  match r input with
  | none => none
  | some a => (f a.value a.rest).map (·.widen a.suffix)

instance : Monad CharReader where
  pure := CharReader.pure
  bind := CharReader.bind

def fail : CharReader α :=
  fun _ => none

/-- The value, if there is one. -/
def ofOption (a : Option α) : CharReader α :=
  match a with
  | some a => pure a
  | none => fail

/-- All that is ahead, which is not taken. -/
def ahead : CharReader (List Char) :=
  fun input => some ⟨input, input, List.suffix_refl input⟩

/-- Takes the next character, which has to be there. -/
def next : CharReader Char
  | [] => none
  | c :: cs => some ⟨c, cs, List.suffix_cons c cs⟩

/-- Takes `n` characters, or as many as there are. -/
def drop (n : Nat) : CharReader Unit :=
  fun input => some ⟨(), input.drop n, List.drop_suffix n input⟩

/-- Takes `mark` if it is ahead, and says whether it was. -/
def takeMark (mark : List Char) : CharReader Bool := do
  if mark.isPrefixOf (← ahead) then
    drop mark.length
    pure true
  else pure false

/-- Takes the leading characters that satisfy `p`. -/
def takeWhile (p : Char → Bool) : CharReader (List Char) := do
  let cs := (← ahead).takeWhile p
  drop cs.length
  pure cs

/-- Takes a character and goes on from `s` with the reader for it, until that ends in a result. At
the end of the input `atEnd` gives the result. -/
def repeatedly (body : σ → Char → CharReader (σ ⊕ α)) (atEnd : σ → Option α) (s : σ) :
    CharReader α
  | [] => (atEnd s).map fun a => ⟨a, [], List.suffix_refl []⟩
  | c :: cs =>
    match body s c cs with
    | none => none
    | some ⟨.inr a, rest, h⟩ => some ⟨a, rest, h.trans (List.suffix_cons c cs)⟩
    | some ⟨.inl s, rest, h⟩ =>
      have := h.length_le
      (repeatedly body atEnd s rest).map (·.widen (h.trans (List.suffix_cons c cs)))
termination_by cs => cs.length
decreasing_by simp only [List.length_cons]; omega

end CharReader

end RsxInspect
