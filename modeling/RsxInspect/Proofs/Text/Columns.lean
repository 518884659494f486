import Mathlib.Data.List.DropRight
import RsxInspect.Proofs.Text.Lines

/-!
# Lines and columns

The line of an offset is the number of line breaks in front of it, and its column the number of
characters behind the last of them, both counted from 1 (`LineIndex.locate_exact`).

The lines that are collected while a text is read are a function of what was read so far
(`Reached`): as many as it has line breaks, and a current one that starts behind the last break. So
behind any beginning of the source the line with the number of its breaks is known
(`getElem?_lines`).

The search ends at a line that starts up to the offset, with a next line, if there is one, that
starts behind it; as beginnings of the source are ordered by their sizes, that is the line in which
the offset lies (`search_eq`).
-/

namespace RsxInspect

open String (utf8Len)

namespace Text

/-- Behind characters that fit, what fits into the room that they leave. -/
theorem fitting_append {front : List Char} {n : Nat} (h : utf8Len front ≤ n) (cs : List Char) :
    fitting n (front ++ cs) = front.length + fitting (n - utf8Len front) cs := by
  induction front generalizing n with
  | nil => simp
  | cons c front ih =>
    rw [String.utf8Len_cons] at h
    have hc : c.utf8Size ≤ n := by omega
    have hroom : n - c.utf8Size - utf8Len front = n - utf8Len (c :: front) := by
      rw [String.utf8Len_cons]
      omega
    rw [List.cons_append, fitting_cons, if_pos hc, ih (by omega), hroom, List.length_cons]
    omega

/-- Nothing more fits behind the characters that fit: `fitting` takes as many as it can. -/
theorem fitting_drop_fitting (n : Nat) (cs : List Char) :
    fitting (n - utf8Len (cs.take (fitting n cs))) (cs.drop (fitting n cs)) = 0 := by
  induction cs generalizing n with
  | nil => simp [fitting, fittingFrom]
  | cons c cs ih =>
    by_cases hc : c.utf8Size ≤ n
    · have hroom : ∀ k, n - (k + c.utf8Size) = n - c.utf8Size - k := by omega
      rw [fitting_cons, if_pos hc, List.take_succ_cons, List.drop_succ_cons, String.utf8Len_cons,
        hroom]
      exact ih (n - c.utf8Size)
    · have hnone : fitting n (c :: cs) = 0 := by rw [fitting_cons, if_neg hc]
      rw [hnone, List.take_zero, List.drop_zero, String.utf8Len_nil, Nat.sub_zero, hnone]

end Text

/-- The characters of the source in front of an offset (`floorBoundary`), and that nothing fits in
between: the offset lies in the next character, or at its start. -/
theorem exists_front (source : String) (n : Nat) : ∃ front behind,
    source.toList = front ++ behind ∧ utf8Len front = floorBoundary source n ∧
      Text.fitting (n - utf8Len front) behind = 0 :=
  ⟨_, _, (List.take_append_drop _ _).symm, utf8Len_take_fitting source n,
    Text.fitting_drop_fitting n source.toList⟩

namespace LineIndex

/-- The characters behind the last line break, all of them if there is none. -/
def lastLine (cs : List Char) : List Char := cs.rtakeWhile (· != '\n')

/-- The characters up to and including the last line break. -/
def linesBefore (cs : List Char) : List Char := cs.rdropWhile (· != '\n')

theorem linesBefore_append_lastLine (cs : List Char) : linesBefore cs ++ lastLine cs = cs :=
  List.rdropWhile_append_rtakeWhile

theorem lastLine_concat (cs : List Char) (c : Char) :
    lastLine (cs ++ [c]) = if c = '\n' then [] else lastLine cs ++ [c] := by
  unfold lastLine
  by_cases hc : c = '\n' <;> simp [hc]

theorem linesBefore_concat (cs : List Char) (c : Char) :
    linesBefore (cs ++ [c]) = if c = '\n' then cs ++ [c] else linesBefore cs := by
  unfold linesBefore
  by_cases hc : c = '\n' <;> simp [hc]

theorem count_break_concat (cs : List Char) (c : Char) :
    (cs ++ [c]).count '\n' = cs.count '\n' + if c = '\n' then 1 else 0 := by
  rw [List.count_append, List.count_singleton]
  simp

/-- Without a line break between them, the last line only gets longer (`lastLine`). -/
theorem lastLine_append {front more : List Char} (h : '\n' ∉ more) :
    lastLine (front ++ more) = lastLine front ++ more := by
  induction more using List.reverseRecOn with
  | nil => simp
  | append_singleton more c ih =>
    rw [List.mem_append, List.mem_singleton, not_or] at h
    rw [← List.append_assoc, lastLine_concat, if_neg (Ne.symm h.2), ih h.1, List.append_assoc]

/-- Each number of line breaks up to that of a text is that of a beginning that ends in one, by
induction on the text. -/
theorem exists_linesBefore {cs : List Char} {n : Nat} (h : n ≤ cs.count '\n') :
    ∃ front behind, cs = front ++ behind ∧ front.count '\n' = n ∧ linesBefore front = front := by
  induction cs using List.reverseRecOn with
  | nil => exact ⟨[], [], rfl, (Nat.le_zero.mp h).symm, rfl⟩
  | append_singleton cs c ih =>
    by_cases hle : n ≤ cs.count '\n'
    · obtain ⟨front, behind, hcs, hcount, hself⟩ := ih hle
      exact ⟨front, behind ++ [c], by rw [hcs, List.append_assoc], hcount, hself⟩
    · rw [count_break_concat] at h
      have hc : c = '\n' := by
        by_contra hne
        rw [if_neg hne] at h
        exact hle h
      rw [if_pos hc] at h
      refine ⟨cs ++ [c], [], (List.append_nil _).symm, ?_, by rw [linesBefore_concat, if_pos hc]⟩
      rw [count_break_concat, if_pos hc]
      omega

/-! ### The lines of a source

`Reached` is the invariant of the loop that collects the lines, so each beginning of the source has
its current line. -/

/-- What has been collected when the characters `front` are read: a line for each break, and a
current one with what stands behind the last. -/
structure Reached (front : List Char) (done : Array Line) (start : Nat) (line : List Char) :
    Prop where
  size : done.size = front.count '\n'
  start : start = utf8Len (linesBefore front)
  line : line.reverse = lastLine front

theorem Reached.next {front line : List Char} {done : Array Line} {start : Nat}
    (h : Reached front done start line) (c : Char) (cs : List Char) :
    ∃ done' start' line', Reached (front ++ [c]) done' start' line' ∧
      linesFrom done start (utf8Len front) line (c :: cs)
        = linesFrom done' start' (utf8Len (front ++ [c])) line' cs := by
  have hoffset : utf8Len front + c.utf8Size = utf8Len (front ++ [c]) := by
    rw [String.utf8Len_append, String.utf8Len_cons, String.utf8Len_nil, Nat.zero_add]
  rw [linesFrom, hoffset]
  by_cases hc : c = '\n'
  · refine ⟨_, _, [], ⟨?_, ?_, ?_⟩, if_pos (beq_iff_eq.mpr hc)⟩
    · rw [Array.size_push, h.size, count_break_concat, if_pos hc]
    · rw [linesBefore_concat, if_pos hc]
    · rw [lastLine_concat, if_pos hc]
      rfl
  · refine ⟨done, start, c :: line, ⟨?_, ?_, ?_⟩, if_neg (mt beq_iff_eq.mp hc)⟩
    · rw [h.size, count_break_concat, if_neg hc, Nat.add_zero]
    · rw [h.start, linesBefore_concat, if_neg hc]
    · rw [List.reverse_cons, h.line, lastLine_concat, if_neg hc]

/-- What has been collected in the middle of a text, by induction on what was read (`Reached.next`
is the step). -/
theorem exists_reached (front behind : List Char) : ∃ done start line,
    Reached front done start line ∧
      linesFrom #[] 0 0 [] (front ++ behind)
        = linesFrom done start (utf8Len front) line behind := by
  induction front using List.reverseRecOn generalizing behind with
  | nil => exact ⟨#[], 0, [], ⟨rfl, rfl, rfl⟩, rfl⟩
  | append_singleton front c ih =>
    obtain ⟨done, start, line, hreached, hlines⟩ := ih (c :: behind)
    obtain ⟨done', start', line', hreached', hnext⟩ := hreached.next c behind
    refine ⟨done', start', line', hreached', ?_⟩
    rw [List.append_assoc, ← hnext, ← hlines]
    rfl

variable {source : String} {front behind : List Char}

/-- The line (`LineIndex.lines`) in which a beginning of the source ends is the one with the number
of its breaks. -/
theorem getElem?_lines (h : source.toList = front ++ behind) :
    (ofSource source).lines[front.count '\n']?
      = some ⟨utf8Len (linesBefore front), lastLine front ++ restOfLine behind⟩ := by
  obtain ⟨done, start, line, hreached, hlines⟩ := exists_reached front behind
  obtain ⟨more, hmore⟩ := current_linesFrom done start (utf8Len front) line behind
  show (linesFrom #[] 0 0 [] source.toList)[front.count '\n']? = _
  rw [h, hlines, ← Array.getElem?_toList, ← hmore, ← hreached.size, ← hreached.start,
    ← hreached.line]
  simp

theorem count_eq (source : String) :
    (ofSource source).count = 1 + source.toList.count '\n' := by
  obtain ⟨done, start, line, hreached, hlines⟩ := exists_reached source.toList []
  show (linesFrom #[] 0 0 [] source.toList).size = _
  rw [← List.append_nil source.toList, hlines, linesFrom, Array.size_push, hreached.size,
    List.append_nil, Nat.add_comm]

/-- Where the line with a given number of line breaks in front of it starts. -/
theorem exists_start {n : Nat} (h : source.toList = front ++ behind) (hn : n ≤ front.count '\n') :
    ∃ before more, front = before ++ more ∧ before.count '\n' = n ∧
      ((ofSource source).lines[n]?.getD default).start = utf8Len before := by
  obtain ⟨before, more, rfl, rfl, hself⟩ := exists_linesBefore hn
  rw [List.append_assoc] at h
  refine ⟨before, more, rfl, rfl, ?_⟩
  rw [getElem?_lines h, hself]
  rfl

/-! ### The search

The line that is found starts up to the offset, and the next one behind it; the induction is on the
recursion of `search`. -/

/-- The line behind the one that the search ends at starts behind the offset, if there is one. The
induction is on the recursion of `search`. -/
theorem lt_start_search {lines : Array Line} {offset lo hi : Nat} (hlt : lo < hi)
    (h : hi = lines.size ∨ offset < (lines[hi]?.getD default).start) :
    let i := search lines offset lo hi
    i < hi ∧ (i + 1 = lines.size ∨ offset < (lines[i + 1]?.getD default).start) := by
  induction lo, hi using search.induct lines offset with
  | case1 lo hi hmore middle hmiddle ih =>
    rw [search, if_pos hmore, if_pos hmiddle]
    exact ih (by omega) h
  | case2 lo hi hmore middle hmiddle ih =>
    rw [search, if_pos hmore, if_neg hmiddle]
    have hih := ih (by omega) (.inr (Nat.lt_of_not_le hmiddle))
    exact ⟨Nat.lt_trans hih.1 (by omega), hih.2⟩
  | case3 lo hi hmore =>
    rw [search, if_neg hmore]
    obtain rfl : hi = lo + 1 := by omega
    exact ⟨hlt, h⟩

/-- The `search` finds the line in which the characters in front of the offset end: the starts of
the lines around it bound the offset. -/
theorem search_eq {offset : Nat} (h : source.toList = front ++ behind)
    (hfront : utf8Len front = floorBoundary source offset) :
    search (ofSource source).lines offset 0 (ofSource source).count = front.count '\n' := by
  have hcount := count_eq source
  have hwhole : source.toList = source.toList ++ [] := (List.append_nil _).symm
  have hoffset : utf8Len front ≤ offset := hfront ▸ floorBoundary_le source offset
  have hbreaks : front.count '\n' ≤ source.toList.count '\n' := by
    rw [h, List.count_append]
    exact Nat.le_add_right _ _
  have hstart := @start_search_le _ offset 0 (ofSource source).count
    (Nat.le_trans (Nat.le_of_eq (start_first source)) (Nat.zero_le offset))
  obtain ⟨hlt, hnext⟩ := @lt_start_search (ofSource source).lines offset 0 (ofSource source).count
    (by omega) (.inl rfl)
  refine Nat.le_antisymm ?_ ?_
  · -- the line starts up to the offset, so what stands in front of it begins `front`
    obtain ⟨before, more, hsplit, hbefore, heq⟩ := exists_start hwhole (Nat.le_of_lt_succ
      (Nat.lt_of_lt_of_eq hlt (hcount.trans (Nat.add_comm _ _))))
    have hsize : utf8Len before ≤ utf8Len front := by
      rw [hfront]
      exact le_floorBoundary (isBoundary_of_split hsplit) (heq ▸ hstart)
    obtain ⟨mid, hmid, -⟩ := exists_append_of_utf8Len_le (hsplit.symm.trans h) hsize
    rw [← hbefore, hmid, List.count_append]
    exact Nat.le_add_right _ _
  · -- otherwise the next line would start up to the offset as well
    by_contra hless
    obtain ⟨before, more, hsplit, -, heq⟩ := exists_start h (Nat.lt_of_not_le hless)
    have hsize : utf8Len before ≤ utf8Len front := by
      rw [hsplit, String.utf8Len_append]
      exact Nat.le_add_right _ _
    rcases hnext with hlast | hbehind
    · have : (ofSource source).lines.size = (ofSource source).count := rfl
      omega
    · rw [heq] at hbehind
      omega

/-! ### Places

An offset between two boundaries is set back to the character that it cuts, and behind the end to
the end, so it is enough to look at boundaries (`locate_of_split`). -/

theorem fitting_restOfLine {n : Nat} {cs : List Char} (h : Text.fitting n cs = 0) :
    Text.fitting n (restOfLine cs) = 0 := by
  cases cs with
  | nil => exact h
  | cons c cs =>
    have hc : ¬ c.utf8Size ≤ n := by
      intro hc
      rw [Text.fitting_cons, if_pos hc] at h
      exact Nat.succ_ne_zero _ h
    rw [restOfLine]
    split <;> rw [Text.fitting_cons, if_neg hc]

/-- The place of an offset, by the characters in front of it: `locate` counts the line breaks and
the characters behind the last. -/
theorem locate_of_front {offset : Nat} (h : source.toList = front ++ behind)
    (hfront : utf8Len front = floorBoundary source offset)
    (hbehind : Text.fitting (offset - utf8Len front) behind = 0) :
    (ofSource source).locate offset = (1 + front.count '\n', 1 + (lastLine front).length) := by
  have hsize : utf8Len front = utf8Len (linesBefore front) + utf8Len (lastLine front) := by
    rw [← String.utf8Len_append, linesBefore_append_lastLine]
  have hoffset : utf8Len front ≤ offset := hfront ▸ floorBoundary_le source offset
  have hroom : offset - utf8Len (linesBefore front) - utf8Len (lastLine front)
      = offset - utf8Len front := by omega
  have hcolumn : Text.fitting (offset - utf8Len (linesBefore front))
      (lastLine front ++ restOfLine behind) = (lastLine front).length := by
    rw [Text.fitting_append (by omega), hroom, fitting_restOfLine hbehind, Nat.add_zero]
  unfold locate
  simp only [search_eq h hfront, getElem?_lines h, Option.getD_some, hcolumn, Nat.add_comm 1]

/-- The place of a boundary: `locate` counts the line breaks in front of it, and the characters
behind the last of them (`lastLine`). -/
theorem locate_of_split (h : source.toList = front ++ behind) :
    (ofSource source).locate (utf8Len front)
      = (1 + front.count '\n', 1 + (lastLine front).length) := by
  have hboundary := isBoundary_of_split h
  refine locate_of_front h (eq_floorBoundary hboundary (Nat.le_refl _) fun k _ hk => hk) ?_
  rw [Nat.sub_self]
  cases behind with
  | nil => rfl
  | cons c cs =>
    have := c.utf8Size_pos
    rw [Text.fitting_cons, if_neg (by omega)]

/-- Further behind, the line is a later one, or the same one with a later column, so places
(`locate`) are ordered as offsets are. -/
theorem locate_lt {a b : Nat} (ha : IsBoundary source a) (hb : IsBoundary source b) (h : a < b) :
    Prod.Lex (· < ·) (· < ·) ((ofSource source).locate a) ((ofSource source).locate b) := by
  obtain ⟨front, behind, hsource, rfl⟩ :
      ∃ front behind, source.toList = front ++ behind ∧ a = utf8Len front := by
    obtain ⟨k, rfl⟩ := isBoundary_iff.mp ha
    exact ⟨_, _, (List.take_append_drop k _).symm, rfl⟩
  obtain ⟨mid, beyond, rfl, rfl⟩ := exists_split_of_boundary hsource hb (Nat.le_of_lt h)
  have hmid : 0 < mid.length := by
    rw [List.length_pos_iff]
    rintro rfl
    simp at h
  rw [← List.append_assoc] at hsource
  rw [locate_of_split hsource, locate_of_split (by rw [hsource, List.append_assoc]),
    List.count_append]
  by_cases hbreak : '\n' ∈ mid
  · have := List.count_pos_iff.mpr hbreak
    exact .left _ _ (by omega)
  · rw [List.count_eq_zero.mpr hbreak, lastLine_append hbreak, List.length_append]
    exact .right _ (by omega)

/-- **Lines and columns are exact.** The line of an offset counts the line breaks in front of it, and
the column the characters behind the last of them; an offset inside a character counts as its start,
and one behind the source as its end. So places are in the order of the offsets, and the lines are
those from 1 up to the number of lines. -/
theorem locate_exact (source : String) :
    (∀ offset,
      let o := floorBoundary source (min offset source.utf8ByteSize)
      let front := ((Span.mk 0 o).text source).toList
      (ofSource source).locate offset = (1 + front.count '\n', 1 + (lastLine front).length)) ∧
    (∀ a b, IsBoundary source a → IsBoundary source b → a < b →
      Prod.Lex (· < ·) (· < ·) ((ofSource source).locate a) ((ofSource source).locate b)) ∧
    (∀ offset, 1 ≤ ((ofSource source).locate offset).1 ∧
      ((ofSource source).locate offset).1 ≤ (ofSource source).count) ∧
    (ofSource source).count = 1 + source.toList.count '\n' := by
  refine ⟨fun offset => ?_, fun a b ha hb h => locate_lt ha hb h, fun offset => ?_,
    count_eq source⟩
  -- line and column are those of the text in front of the offset, moved back to a boundary
  · obtain ⟨front, behind, hsource, hfront, hbehind⟩ := exists_front source offset
    have htext := Span.text_of_split [] front behind (by rw [hsource, List.nil_append])
    rw [String.utf8Len_nil, Nat.zero_add] at htext
    dsimp only
    rw [floorBoundary_min_size, ← hfront, htext, String.toList_ofList]
    exact locate_of_front hsource hfront hbehind
  · obtain ⟨front, behind, hsource, hfront, hbehind⟩ := exists_front source offset
    rw [locate_of_front hsource hfront hbehind, count_eq, hsource, List.count_append]
    exact ⟨by omega, by omega⟩

/-- The second line starts behind the line break, and the character in front of it takes two bytes. -/
theorem locate_exact_accent :
    let source := "é\nb"
    (ofSource source).locate 1 = (1, 1) ∧
      Prod.Lex (· < ·) (· < ·) ((ofSource source).locate 2) ((ofSource source).locate 3) := by
  intro source
  obtain ⟨hplace, horder, -, -⟩ := locate_exact source
  have hsource : source.toList = ['é', '\n', 'b'] := by decide +kernel
  have hbreak : IsBoundary source 2 := @isBoundary_of_split source ['é'] ['\n', 'b'] hsource
  have hline : IsBoundary source 3 := @isBoundary_of_split source ['é', '\n'] ['b'] hsource
  exact ⟨(hplace 1).trans (by decide +kernel), horder 2 3 hbreak hline (by decide)⟩

end LineIndex

end RsxInspect
