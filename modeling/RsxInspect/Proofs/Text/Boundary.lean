import Mathlib.Data.String.Basic
import RsxInspect.Span
import RsxInspect.Text.Extent

/-!
# Character boundaries

A byte offset of a source is a character boundary if whole characters end there (`IsBoundary`). This
module says what it is to move an offset back to a boundary (`floorBoundary`), shows that
`Text.fitting` finds the same place by counting characters (`utf8Len_take_fitting`), and reads the
text of a span between two boundaries off the list of characters (`Span.text_of_split`). Sizes in
bytes are `String.utf8Len`.

Boundaries are the sizes of the beginnings of the source (`isBoundary_iff`), so most facts about
them are facts about two ways to split one list (`exists_append_of_utf8Len_le`, `eq_of_utf8Len_eq`).
-/

namespace RsxInspect

open String (utf8Len)

/-- `offset` is a character boundary of `source`. -/
abbrev IsBoundary (source : String) (offset : Nat) : Prop :=
  String.Pos.Raw.IsValid source ⟨offset⟩

/-- Boundaries (`IsBoundary`) are the sizes in bytes (`utf8Len`) of the beginnings of the source, so
each one splits its list of characters. -/
theorem isBoundary_iff {source : String} {offset : Nat} :
    IsBoundary source offset ↔ ∃ k, offset = utf8Len (source.toList.take k) := by
  rw [IsBoundary, String.Pos.Raw.isValid_iff_exists_take_toList]
  simp only [String.utf8ByteSize_ofList]

theorem isBoundary_of_split {source : String} {before behind : List Char}
    (h : source.toList = before ++ behind) : IsBoundary source (utf8Len before) := by
  refine isBoundary_iff.mpr ⟨before.length, ?_⟩
  rw [h, List.take_left]

/-- The offset moved back to the nearest character boundary, by single bytes. -/
def floorBoundary (source : String) : Nat → Nat
  | 0 => 0
  | n + 1 => if IsBoundary source (n + 1) then n + 1 else floorBoundary source n

theorem floorBoundary_le (source : String) (n : Nat) : floorBoundary source n ≤ n := by
  induction n with
  | zero => exact Nat.le_refl 0
  | succ n ih =>
    rw [floorBoundary]
    split
    · exact Nat.le_refl _
    · exact Nat.le_succ_of_le ih

theorem isBoundary_floorBoundary (source : String) (n : Nat) :
    IsBoundary source (floorBoundary source n) := by
  induction n with
  | zero => exact isBoundary_iff.mpr ⟨0, rfl⟩
  | succ n ih =>
    rw [floorBoundary]
    split
    · assumption
    · exact ih

/-- No boundary lies between an offset and where it is moved back to by `floorBoundary`. -/
theorem le_floorBoundary {source : String} {m n : Nat} (hm : IsBoundary source m) (hle : m ≤ n) :
    m ≤ floorBoundary source n := by
  induction n with
  | zero => exact hle
  | succ n ih =>
    rw [floorBoundary]
    split
    · exact hle
    · rename_i hn
      have hne : m ≠ n + 1 := fun h => hn (h ▸ hm)
      exact ih (by omega)

/-- The last boundary up to `n` is where `n` is moved back to. -/
theorem eq_floorBoundary {source : String} {m n : Nat} (hm : IsBoundary source m) (hle : m ≤ n)
    (hlast : ∀ k, IsBoundary source k → k ≤ n → k ≤ m) : m = floorBoundary source n :=
  Nat.le_antisymm (le_floorBoundary hm hle)
    (hlast _ (isBoundary_floorBoundary source n) (floorBoundary_le source n))

/-! ### Sizes of beginnings

The boundaries of a text are the sizes of its beginnings, and a beginning is known by its size
(`eq_of_utf8Len_eq`). -/

theorem utf8Len_take_le (cs : List Char) (k : Nat) : utf8Len (cs.take k) ≤ utf8Len cs :=
  String.utf8Len_le_of_prefix (List.take_prefix k cs)

theorem utf8Len_take_mono (cs : List Char) {j k : Nat} (h : j ≤ k) :
    utf8Len (cs.take j) ≤ utf8Len (cs.take k) := by
  have hj : cs.take j = (cs.take k).take j := by rw [List.take_take, Nat.min_eq_left h]
  rw [hj]
  exact utf8Len_take_le _ j

theorem utf8Len_take_add_drop (cs : List Char) (k : Nat) :
    utf8Len (cs.take k) + utf8Len (cs.drop k) = utf8Len cs := by
  rw [← String.utf8Len_append, List.take_append_drop]

theorem utf8Len_pos {cs : List Char} (h : cs ≠ []) : 0 < utf8Len cs := by
  cases cs with
  | nil => exact absurd rfl h
  | cons c cs =>
    have := c.utf8Size_pos
    rw [String.utf8Len_cons]
    omega

/-- Of two beginnings of one text, the one that is not longer in bytes (`utf8Len`) begins the other
one, since every character takes some. -/
theorem exists_append_of_utf8Len_le {xs ys xs' ys' : List Char} (h : xs ++ ys = xs' ++ ys')
    (hsize : utf8Len xs ≤ utf8Len xs') : ∃ mid, xs' = xs ++ mid ∧ ys = mid ++ ys' := by
  rcases List.append_eq_append_iff.mp h with hmore | ⟨more, rfl, rfl⟩
  · exact hmore
  · have hmore : more = [] := by
      by_contra hne
      have hpos := utf8Len_pos hne
      rw [String.utf8Len_append] at hsize
      omega
    exact ⟨[], by simp [hmore], by simp [hmore]⟩

/-- Two beginnings of one text that are equally long in bytes are the same. -/
theorem eq_of_utf8Len_eq {xs ys xs' ys' : List Char} (h : xs ++ ys = xs' ++ ys')
    (hsize : utf8Len xs = utf8Len xs') : xs = xs' ∧ ys = ys' := by
  obtain ⟨mid, rfl, rfl⟩ := exists_append_of_utf8Len_le h (Nat.le_of_eq hsize)
  have hmid : mid = [] := by
    by_contra hne
    have hpos := utf8Len_pos hne
    rw [String.utf8Len_append] at hsize
    omega
  exact ⟨by simp [hmid], by simp [hmid]⟩

/-- A boundary of the source (`IsBoundary`) that lies ahead cuts what is ahead in two. -/
theorem exists_split_of_boundary {source : String} {done rest : List Char} {stop : Nat}
    (hsource : source.toList = done ++ rest) (hstop : IsBoundary source stop)
    (hle : utf8Len done ≤ stop) :
    ∃ mid beyond, rest = mid ++ beyond ∧ stop = utf8Len (done ++ mid) := by
  obtain ⟨k, rfl⟩ := isBoundary_iff.mp hstop
  have hsplit : done ++ rest = source.toList.take k ++ source.toList.drop k := by
    rw [List.take_append_drop, hsource]
  obtain ⟨mid, htake, hrest⟩ := exists_append_of_utf8Len_le hsplit hle
  exact ⟨mid, _, hrest, by rw [htake]⟩

/-- No boundary lies beyond the source, so cutting an offset to its size changes nothing. -/
theorem floorBoundary_min_size (source : String) (n : Nat) :
    floorBoundary source (min n source.utf8ByteSize) = floorBoundary source n := by
  refine eq_floorBoundary (isBoundary_floorBoundary source _) ?_ ?_
  · exact Nat.le_trans (floorBoundary_le source _) (Nat.min_le_left _ _)
  · intro k hk hle
    refine le_floorBoundary hk (Nat.le_min.mpr ⟨hle, ?_⟩)
    obtain ⟨j, rfl⟩ := isBoundary_iff.mp hk
    rw [← String.utf8Len_toList]
    exact utf8Len_take_le _ j

/-! ### Counting the characters that fit

`fittingFrom` counts the characters that fit into a number of bytes. At a boundary all bytes are
used up, and elsewhere those of the character that is cut are left over. -/

namespace Text

theorem fittingFrom_eq (n bytes : Nat) (cs : List Char) :
    fittingFrom n bytes cs = n + fitting bytes cs := by
  have key : ∀ (cs : List Char) (n bytes : Nat),
      fittingFrom n bytes cs = n + fittingFrom 0 bytes cs := by
    intro cs
    induction cs with
    | nil => intro n bytes; simp [fittingFrom]
    | cons c cs ih =>
      intro n bytes
      rw [fittingFrom, fittingFrom]
      split
      · rw [ih (n + 1), ih (0 + 1)]
        omega
      · rfl
  exact key cs n bytes

theorem fitting_cons (bytes : Nat) (c : Char) (cs : List Char) :
    fitting bytes (c :: cs)
      = if c.utf8Size ≤ bytes then fitting (bytes - c.utf8Size) cs + 1 else 0 := by
  rw [fitting, fittingFrom]
  split
  · rw [fittingFrom_eq]
    omega
  · rfl

/-- What fits (`fitting`) is no larger than the room for it. -/
theorem utf8Len_take_fitting_le (bytes : Nat) (cs : List Char) :
    utf8Len (cs.take (fitting bytes cs)) ≤ bytes := by
  induction cs generalizing bytes with
  | nil => simp
  | cons c cs ih =>
    rw [fitting_cons]
    split
    · have := ih (bytes - c.utf8Size)
      rw [List.take_succ_cons, String.utf8Len_cons]
      omega
    · simp

/-- No longer beginning would have fitted: what has the room is in front of what `fitting` takes. -/
theorem utf8Len_take_le_of_le {bytes k : Nat} {cs : List Char}
    (h : utf8Len (cs.take k) ≤ bytes) :
    utf8Len (cs.take k) ≤ utf8Len (cs.take (fitting bytes cs)) := by
  induction cs generalizing bytes k with
  | nil => simp
  | cons c cs ih =>
    cases k with
    | zero => simp
    | succ k =>
      rw [List.take_succ_cons, String.utf8Len_cons] at h ⊢
      have hc : c.utf8Size ≤ bytes := by omega
      have hrest : utf8Len (cs.take k) ≤ bytes - c.utf8Size := by omega
      rw [fitting_cons, if_pos hc, List.take_succ_cons, String.utf8Len_cons]
      exact Nat.add_le_add_right (ih hrest) _

/-- All characters fit into the room that they take. -/
theorem take_fitting_of_le {bytes : Nat} {cs : List Char} (h : utf8Len cs ≤ bytes) :
    cs.take (fitting bytes cs) = cs := by
  induction cs generalizing bytes with
  | nil => simp
  | cons c cs ih =>
    rw [String.utf8Len_cons] at h
    have hc : c.utf8Size ≤ bytes := by omega
    rw [fitting_cons, if_pos hc, List.take_succ_cons, ih (by omega)]

/-- Exactly a beginning of the given size fits (`fitting`). -/
theorem fitting_of_split (before behind : List Char) :
    (before ++ behind).take (fitting (utf8Len before) (before ++ behind)) = before := by
  induction before with
  | nil =>
    cases behind with
    | nil => rfl
    | cons c cs =>
      have := c.utf8Size_pos
      have hc : ¬ c.utf8Size ≤ utf8Len [] := by rw [String.utf8Len_nil]; omega
      rw [List.nil_append, fitting_cons, if_neg hc, List.take_zero]
  | cons c cs ih =>
    have hc : c.utf8Size ≤ utf8Len (c :: cs) := by rw [String.utf8Len_cons]; omega
    have hrest : utf8Len (c :: cs) - c.utf8Size = utf8Len cs := by
      rw [String.utf8Len_cons]; omega
    rw [List.cons_append, fitting_cons, if_pos hc, hrest, List.take_succ_cons, ih]

end Text

/-- The characters that fit into `n` bytes end where `n` is moved back to, at `floorBoundary source
n`. -/
theorem utf8Len_take_fitting (source : String) (n : Nat) :
    utf8Len (source.toList.take (Text.fitting n source.toList)) = floorBoundary source n := by
  refine eq_floorBoundary (isBoundary_iff.mpr ⟨_, rfl⟩) (Text.utf8Len_take_fitting_le n _) ?_
  intro k hk hle
  obtain ⟨j, rfl⟩ := isBoundary_iff.mp hk
  exact Text.utf8Len_take_le_of_le hle

/-! ### Text of spans -/

theorem Span.isEmpty_iff (s : Span) : s.isEmpty = true ↔ s.start = s.stop := by
  rw [Span.isEmpty, beq_iff_eq]

theorem Span.text_of_le {s : Span} (source : String) (h : s.stop ≤ s.start) :
    s.text source = "" :=
  if_pos h

/-- The text between two boundaries (`Span.text`) is made of the characters there. -/
theorem Span.text_of_split {source : String} (before inside behind : List Char)
    (h : source.toList = before ++ inside ++ behind) :
    (Span.mk (utf8Len before) (utf8Len before + utf8Len inside)).text source
      = String.ofList inside := by
  have hsource : source = String.ofList (before ++ inside ++ behind) := by
    rw [← h, String.ofList_toList]
  rw [Span.text, hsource]
  exact String.extract_of_valid before inside behind

end RsxInspect
