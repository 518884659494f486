import RsxInspect.LineIndex
import RsxInspect.Proofs.Text.Slice

/-!
# Places in lines

A line starts at a character boundary (`isBoundary_linesFrom`), and the line of an offset does not
start behind it (`start_search_le`). So the part of a line up to a boundary can be cut out of the
source (`LineIndex.fits_locate`); that is where the column of the boundary is counted.
-/

namespace RsxInspect

open String (utf8Len)

namespace LineIndex

variable {source : String}

/-- The characters of a line that lie ahead, its line break included. -/
def restOfLine : List Char → List Char
  | [] => []
  | c :: cs => if c == '\n' then [c] else c :: restOfLine cs

/-- Lines are only added behind those that are there, the current one first, by the recursion of
`linesFrom`. -/
theorem current_linesFrom (done : Array Line) (start offset : Nat) (line cs : List Char) :
    done.toList ++ [⟨start, line.reverse ++ restOfLine cs⟩]
      <+: (linesFrom done start offset line cs).toList := by
  induction cs generalizing done start offset line with
  | nil =>
    exact ⟨[], by
      rw [linesFrom, restOfLine, List.append_nil, List.append_nil, Array.toList_push]⟩
  | cons c cs ih =>
    rw [linesFrom, restOfLine]
    split
    · refine List.IsPrefix.trans ?_ (ih _ _ _ _)
      rw [Array.toList_push, List.reverse_cons]
      exact List.prefix_append _ _
    · have hline := ih done start (offset + c.utf8Size) (c :: line)
      rwa [List.reverse_cons, List.append_assoc] at hline

/-- Every line starts where a character starts, or at the end: `linesFrom` starts one behind each
line break. -/
theorem isBoundary_linesFrom {done : Array Line} {start : Nat} {before line cs : List Char}
    (hsource : source.toList = before ++ cs) (hdone : ∀ l ∈ done.toList, IsBoundary source l.start)
    (hstart : IsBoundary source start) :
    ∀ l ∈ (linesFrom done start (utf8Len before) line cs).toList, IsBoundary source l.start := by
  induction cs generalizing done start before line with
  | nil =>
    rw [linesFrom, Array.toList_push]
    exact List.forall_mem_append.mpr ⟨hdone, List.forall_mem_singleton.mpr hstart⟩
  | cons c cs ih =>
    have hsource' : source.toList = (before ++ [c]) ++ cs := by
      rw [hsource, List.append_assoc, List.singleton_append]
    have hnext : utf8Len before + c.utf8Size = utf8Len (before ++ [c]) := by
      rw [String.utf8Len_append, String.utf8Len_cons, String.utf8Len_nil, Nat.zero_add]
    rw [linesFrom, hnext]
    split
    · refine ih hsource' ?_ (isBoundary_of_split hsource')
      rw [Array.toList_push]
      exact List.forall_mem_append.mpr ⟨hdone, List.forall_mem_singleton.mpr hstart⟩
    · exact ih hsource' hdone hstart

/-- The `search` ends at a line that does not start behind the offset, if the one it begins with
does not. -/
theorem start_search_le {lines : Array Line} {offset lo hi : Nat}
    (h : (lines[lo]?.getD default).start ≤ offset) :
    (lines[search lines offset lo hi]?.getD default).start ≤ offset := by
  induction lo, hi using search.induct lines offset with
  | case1 lo hi hmore middle hmiddle ih =>
    rw [search, if_pos hmore, if_pos hmiddle]
    exact ih hmiddle
  | case2 lo hi hmore middle hmiddle ih =>
    rw [search, if_pos hmore, if_neg hmiddle]
    exact ih h
  | case3 lo hi hmore =>
    rw [search, if_neg hmore]
    exact h

/-- The first line starts where the source does. -/
theorem start_first (source : String) :
    ((ofSource source).lines[0]?.getD default).start = 0 := by
  obtain ⟨more, hmore⟩ := current_linesFrom #[] 0 0 [] source.toList
  show ((linesFrom #[] 0 0 [] source.toList)[0]?.getD default).start = 0
  rw [← Array.getElem?_toList, ← hmore]
  rfl

/-- The start of the line that an offset is located in. -/
def startOf (index : LineIndex) (offset : Nat) : Nat :=
  (index.lines[(index.locate offset).1 - 1]?.getD default).start

/-- **Places in lines.** A boundary and the start of its line (`startOf`) are the ends of a part of
the source. -/
theorem fits_locate {offset : Nat} (h : IsBoundary source offset) :
    (Span.mk ((ofSource source).startOf offset) offset).Fits source := by
  let lines := (ofSource source).lines
  have hfirst : (lines[0]?.getD default).start ≤ offset := by
    rw [start_first]
    exact Nat.zero_le _
  have hsource : source.toList = [] ++ source.toList := rfl
  have hall : ∀ l ∈ lines.toList, IsBoundary source l.start :=
    isBoundary_linesFrom hsource (fun l hl => (nomatch hl)) (.zero source)
  refine .of_boundaries ?_ h (start_search_le hfirst)
  show IsBoundary source (lines[search lines offset 0 _]?.getD default).start
  cases hline : lines[search lines offset 0 (ofSource source).count]? with
  | none => exact .zero source
  | some l => exact hall l (Array.mem_toList_iff.mpr (Array.mem_of_getElem? hline))

end LineIndex

end RsxInspect
