import RsxInspect.Text.CharReader

/-!
# Blanks in patterns

A pattern may be spaced: then blanks stand for nothing, and neither do comments, which go from `#`
to the end of the line. This is assumed, as all of `Pattern` is.
-/

namespace RsxInspect.Spacing

/-- What is left behind blanks and comments. -/
def dropFrom (inComment : Bool) : List Char → List Char
  | [] => []
  | c :: cs =>
    if inComment then dropFrom (c != '\n') cs
    else if isBlank c then dropFrom false cs
    else if c == '#' then dropFrom true cs
    else c :: cs

theorem dropFrom_suffix (inComment : Bool) (cs : List Char) : dropFrom inComment cs <:+ cs := by
  induction cs generalizing inComment with
  | nil => exact List.suffix_refl []
  | cons c cs ih =>
    have hdropped (b : Bool) : dropFrom b cs <:+ c :: cs := (ih b).trans (List.suffix_cons c cs)
    unfold dropFrom
    repeat' split
    · exact hdropped _
    · exact hdropped _
    · exact hdropped _
    · exact List.suffix_refl (c :: cs)

/-- Whether a blank or a comment starts with `c`. -/
def startsWith (spaced : Bool) (c : Char) : Bool :=
  spaced && (isBlank c || c == '#')

/-- Takes the rest of the blank or comment that starts with `c`, and all that follow it. -/
def skipBehind (c : Char) : CharReader Unit := fun input =>
  some ⟨(), dropFrom (c == '#') input, dropFrom_suffix (c == '#') input⟩

/-- Takes blanks and comments where they stand for nothing. -/
def skip (spaced : Bool) : CharReader Unit := fun input =>
  if spaced then some ⟨(), dropFrom false input, dropFrom_suffix false input⟩
  else some ⟨(), input, List.suffix_refl input⟩

end RsxInspect.Spacing
