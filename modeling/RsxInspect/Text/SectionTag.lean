import RsxInspect.Text.Extent

/-!
# The opening tags of sections

An opening tag runs to the next `>` that is not inside a quoted attribute value.
-/

namespace RsxInspect.SectionTag

/-- Whether the opening tag of a section stands ahead: `tag`, and then `>`, `/`, a blank or
nothing. -/
def opensWith (tag cs : List Char) : Bool :=
  tag.isPrefixOf cs && ((cs.drop tag.length).head?.all fun c => c == '>' || c == '/' || isBlank c)

/-- What is left of an opening tag, up to and including its `>`, `n` more. `quote` is the quote of
the attribute value that is open, if any. -/
def tagRestFrom (quote : Option Char) (n : Nat) : List Char → Extent
  | [] => ⟨n, false⟩
  | c :: cs =>
    match quote with
    | some q => tagRestFrom (if c == q then none else some q) (n + 1) cs
    | none =>
      if c == '>' then ⟨n + 1, true⟩
      else tagRestFrom (if isQuote c then some c else none) (n + 1) cs

/-- What is left of an opening tag, up to and including its `>`. -/
def tagRest (cs : List Char) : Extent :=
  tagRestFrom none 0 cs

end RsxInspect.SectionTag
