import Mathlib.Data.List.TakeWhile
import RsxInspect.Proofs.Text.Measure

/-!
# Measures in a shorter window

What a measure finds when only the first `m` characters are visible. A construct that runs up to a
mark of its own ends where it does in the whole text, or at the end of the window if that comes
first (`countWhile_take`, `past_take`, `Quoted.body_take`, `Comment.block_take`,
`SectionTag.tagRest_take`). A mark that does not stand ahead does not stand ahead in the window
either (`not_isPrefixOf_take`), so a rule that asks for it goes on as before.
-/

namespace RsxInspect

/-! ### Marks

A mark that the window shows as a whole stands in it as in the text, and one that it cuts is not
seen. So what is found in the window first is found in the text first, or the window ends before. -/

theorem isPrefixOf_take {mark cs : List Char} {m : Nat} :
    mark.isPrefixOf (cs.take m) = true ↔ mark.isPrefixOf cs = true ∧ mark.length ≤ m := by
  rw [List.isPrefixOf_iff_prefix, List.isPrefixOf_iff_prefix, List.prefix_take_iff]

/-- A mark that fits into the window stands there if and only if it stands in the text, as
`isPrefixOf` tells. -/
theorem isPrefixOf_take_of_le {mark cs : List Char} {m : Nat} (h : mark.length ≤ m) :
    mark.isPrefixOf (cs.take m) = mark.isPrefixOf cs := by
  rw [Bool.eq_iff_iff, isPrefixOf_take]
  exact and_iff_left h

theorem not_isPrefixOf_take {mark cs : List Char} {m : Nat} (h : ¬ mark.isPrefixOf cs = true) :
    ¬ mark.isPrefixOf (cs.take m) = true :=
  fun htake => h (isPrefixOf_take.mp htake).1

namespace Text

theorem countWhile_take (p : Char → Bool) (cs : List Char) (m : Nat) :
    countWhile p (cs.take m) = min m (countWhile p cs) := by
  induction cs generalizing m with
  | nil => rw [List.take_nil, countWhile_nil, Nat.min_zero]
  | cons c cs ih =>
    cases m with
    | zero => rw [List.take_zero, countWhile_nil, Nat.zero_min]
    | succ m =>
      rw [List.take_succ_cons, countWhile_cons, countWhile_cons]
      split
      · rw [ih, Nat.succ_min_succ]
      · rw [Nat.min_zero]

theorem takeWhile_take {p : Char → Bool} {cs : List Char} {m : Nat}
    (h : countWhile p cs ≤ m) : (cs.take m).takeWhile p = cs.takeWhile p := by
  induction cs generalizing m with
  | nil => rw [List.take_nil]
  | cons c cs ih =>
    rw [countWhile_cons] at h
    by_cases hc : p c = true
    · rw [if_pos hc] at h
      obtain ⟨m, rfl⟩ : ∃ j, m = j + 1 := ⟨m - 1, by omega⟩
      rw [List.take_succ_cons, List.takeWhile_cons, List.takeWhile_cons, if_pos hc, if_pos hc,
        ih (by omega)]
    · cases m with
      | zero => rw [List.take_zero, List.takeWhile_cons, if_neg hc, List.takeWhile_nil]
      | succ m => rw [List.take_succ_cons, List.takeWhile_cons, List.takeWhile_cons, if_neg hc,
          if_neg hc]

theorem prefix_drop_take {mark cs : List Char} {j m : Nat} :
    mark <+: (cs.take m).drop j ↔ mark <+: cs.drop j ∧ mark.length ≤ m - j := by
  rw [List.drop_take, List.prefix_take_iff]

/-- A mark is found in the window if it lies inside of it, and at the same place (`indexOf?`). -/
theorem indexOf?_take {mark cs : List Char} {k m : Nat} (hmark : mark ≠ [])
    (h : indexOf? mark cs = some k) :
    indexOf? mark (cs.take m) = if k + mark.length ≤ m then some k else none := by
  have hlength := List.length_pos_iff.mpr hmark
  obtain ⟨hstands, hfirst⟩ := (indexOf?_eq_some_iff hmark).mp h
  split
  · refine (indexOf?_eq_some_iff hmark).mpr ⟨?_, fun j hj hat => ?_⟩
    · exact prefix_drop_take.mpr ⟨hstands, by omega⟩
    · exact hfirst j hj (prefix_drop_take.mp hat).1
  · refine (indexOf?_eq_none_iff hmark).mpr fun j hat => ?_
    obtain ⟨hj, hroom⟩ := prefix_drop_take.mp hat
    have hle : k ≤ j := Nat.le_of_not_lt fun hlt => hfirst j hlt hj
    omega

theorem indexOf?_take_of_none {mark cs : List Char} {m : Nat} (hmark : mark ≠ [])
    (h : indexOf? mark cs = none) : indexOf? mark (cs.take m) = none := by
  refine (indexOf?_eq_none_iff hmark).mpr fun j hat => ?_
  exact (indexOf?_eq_none_iff hmark).mp h j (prefix_drop_take.mp hat).1

theorem past_take {mark cs : List Char} {m : Nat} (hmark : mark ≠ []) (hm : m ≤ cs.length) :
    (past mark (cs.take m)).length = min m (past mark cs).length := by
  unfold past
  cases hindex : indexOf? mark cs with
  | none =>
    rw [indexOf?_take_of_none hmark hindex]
    simp [List.length_take]
  | some k =>
    rw [indexOf?_take hmark hindex]
    by_cases hroom : k + mark.length ≤ m
    · rw [if_pos hroom]
      exact (Nat.min_eq_right hroom).symm
    · rw [if_neg hroom]
      show (cs.take m).length = min m (k + mark.length)
      rw [List.length_take]
      omega

/-- Up to the mark, `upTo`, in a window that does not cut the mark. -/
theorem upTo_take {mark cs : List Char} {m : Nat} (hmark : mark ≠ []) (hm : m ≤ cs.length)
    (hle : (upTo mark cs).length ≤ m)
    (hclean : mark <+: cs.drop (upTo mark cs).length →
      m = (upTo mark cs).length ∨ (upTo mark cs).length + mark.length ≤ m) :
    (upTo mark (cs.take m)).length = (upTo mark cs).length := by
  unfold upTo at hle hclean ⊢
  -- the mark is not in the text, or the window ends before it, or it holds all of it
  cases hindex : indexOf? mark cs with
  | none =>
    rw [hindex] at hle
    rw [indexOf?_take_of_none hmark hindex]
    show (cs.take m).length = cs.length
    have : cs.length ≤ m := hle
    rw [List.length_take]
    omega
  | some k =>
    rw [hindex] at hle hclean
    have hlength := List.length_pos_iff.mpr hmark
    rw [indexOf?_take hmark hindex]
    rcases hclean ((indexOf?_eq_some_iff hmark).mp hindex).1 with hcut | hroom
    · have hcut : m = k := hcut
      rw [if_neg (by omega)]
      show (cs.take m).length = k
      rw [List.length_take]
      omega
    · have hroom : k + mark.length ≤ m := hroom
      rw [if_pos hroom]

/-- Whether a word stands ahead (`startsWithWord`), in a window that shows the word. A word at the
very end of the window is taken for one, whatever comes behind. -/
theorem startsWithWord_take {word cs : List Char} {m : Nat} (hword : word.length ≤ m)
    (hcut : startsWithWord word cs = false → word.isPrefixOf cs = true → m ≠ word.length) :
    startsWithWord word (cs.take m) = startsWithWord word cs := by
  unfold startsWithWord at hcut ⊢
  rw [isPrefixOf_take_of_le hword, List.drop_take]
  by_cases hleads : word.isPrefixOf cs = true
  · rw [hleads] at hcut ⊢
    -- nothing behind the word is seen, and `hcut` keeps the text from going on there
    by_cases hm : m = word.length
    · have hmiss := fun h => hcut h rfl hm
      rw [hm, Nat.sub_self, List.take_zero]
      simp only [Bool.true_and] at hmiss ⊢
      cases hnext : ((cs.drop word.length).head?.any isNamePart)
      · rfl
      · rw [hnext] at hmiss
        exact (hmiss rfl).elim
    · obtain ⟨j, hj⟩ : ∃ j, m - word.length = j + 1 := ⟨m - word.length - 1, by omega⟩
      rw [hj]
      cases cs.drop word.length with
      | nil => rfl
      | cons c rest => rfl
  · simp only [Bool.not_eq_true] at hleads
    rw [hleads, Bool.false_and, Bool.false_and]

end Text

/-! ### Quoted literals

An escape skips two characters, so the induction is on a bound of the length. -/

theorem Quoted.body_take {escapes : Bool} {quote : Char} {cs : List Char} {m : Nat} :
    (body escapes quote (cs.take m)).length = min m (body escapes quote cs).length := by
  -- an escape skips two characters, so the induction is on a bound of the length
  have key : ∀ (size : Nat) (cs : List Char) (m : Nat), cs.length ≤ size →
      (body escapes quote (cs.take m)).length = min m (body escapes quote cs).length := by
    intro size
    induction size with
    | zero =>
      intro cs m hsize
      obtain rfl : cs = [] := List.length_eq_zero_iff.mp (by omega)
      rw [List.take_nil]
      exact (Nat.min_eq_right (Nat.zero_le m)).symm
    | succ size ih =>
      intro cs m hsize
      cases cs with
      | nil =>
        rw [List.take_nil]
        exact (Nat.min_eq_right (Nat.zero_le m)).symm
      | cons c cs =>
        rw [List.length_cons] at hsize
        cases m with
        | zero =>
          rw [List.take_zero, Nat.zero_min]
          rfl
        | succ m =>
          rw [List.take_succ_cons, body_cons, body_cons]
          split
          · show 1 = min (m + 1) 1
            omega
          · split
            · cases cs with
              | nil =>
                rw [List.take_nil]
                show 1 = min (m + 1) 1
                omega
              | cons d cs =>
                rw [List.length_cons] at hsize
                -- the window ends between the backslash and the character it escapes
                cases m with
                | zero =>
                  rw [List.take_zero]
                  show 1 = min 1 (2 + _)
                  omega
                | succ m =>
                  rw [List.take_succ_cons]
                  show 2 + (body escapes quote (cs.take m)).length = min _ (2 + _)
                  rw [ih cs m (by omega)]
                  omega
            · show 1 + (body escapes quote (cs.take m)).length = min _ (1 + _)
              rw [ih cs m (by omega)]
              omega
  exact key cs.length cs m (Nat.le_refl _)

theorem Quoted.extent_take {escapes : Bool} {cs : List Char} {m : Nat} (hm : m ≠ 0) :
    (extent escapes (cs.take m)).length = min m (extent escapes cs).length := by
  obtain ⟨m, rfl⟩ : ∃ j, m = j + 1 := ⟨m - 1, by omega⟩
  cases cs with
  | nil =>
    rw [List.take_nil]
    exact (Nat.min_eq_right (Nat.zero_le _)).symm
  | cons c cs =>
    rw [List.take_succ_cons, extent_cons, extent_cons]
    show 1 + _ = min _ (1 + _)
    rw [body_take]
    omega

/-! ### Block comments and opening tags

These measures count as they go (the comments by their depth), so the statement is about any count
that they have come to. -/

theorem Comment.blockFrom_cons_cons (depth n : Nat) (c d : Char) (cs : List Char) :
    blockFrom depth n (c :: d :: cs)
      = if c = '*' ∧ d = '/' then
          match depth with
          | 0 => ⟨n + 2, true⟩
          | depth + 1 => blockFrom depth (n + 2) cs
        else if c = '/' ∧ d = '*' then blockFrom (depth + 1) (n + 2) cs
        else blockFrom depth (n + 1) (d :: cs) := by
  -- the definition matches on the two characters; the two tests exclude each other
  by_cases hclose : c = '*' ∧ d = '/'
  · obtain ⟨rfl, rfl⟩ := hclose
    rw [if_pos ⟨rfl, rfl⟩]
    cases depth with
    | zero => rw [blockFrom]
    | succ depth => rw [blockFrom]
  · rw [if_neg hclose]
    by_cases hopen : c = '/' ∧ d = '*'
    · obtain ⟨rfl, rfl⟩ := hopen
      rw [if_pos ⟨rfl, rfl⟩, blockFrom]
    · rw [if_neg hopen, blockFrom]
      · rintro rest rfl h
        exact hclose ⟨rfl, (List.cons.inj h).1⟩
      · rintro rest rfl h
        exact hopen ⟨rfl, (List.cons.inj h).1⟩

theorem Comment.blockFrom_singleton (depth n : Nat) (c : Char) :
    blockFrom depth n [c] = ⟨n + 1, false⟩ := by
  rw [blockFrom, blockFrom]
  · rintro rest - h
    cases h
  · rintro rest - h
    cases h

theorem Comment.le_blockFrom (depth n : Nat) (cs : List Char) :
    n ≤ (blockFrom depth n cs).length := by
  fun_induction blockFrom depth n cs with
  | case1 depth n => exact Nat.le_refl n
  | case2 n cs => exact Nat.le_add_right n 2
  | case3 n cs depth ih => omega
  | case4 depth n cs ih => omega
  | case5 depth n c cs _ _ ih => omega

theorem Comment.blockFrom_take {depth n m : Nat} {cs : List Char} (hm : m ≤ cs.length) :
    (blockFrom depth n (cs.take m)).length = min (n + m) (blockFrom depth n cs).length := by
  -- two characters are read at a time, so the induction is on a bound of the length
  have key : ∀ (size : Nat) (cs : List Char) (depth n m : Nat), cs.length ≤ size →
      m ≤ cs.length →
      (blockFrom depth n (cs.take m)).length = min (n + m) (blockFrom depth n cs).length := by
    intro size
    induction size with
    | zero =>
      intro cs depth n m hsize hm
      obtain rfl : cs = [] := List.length_eq_zero_iff.mp (by omega)
      rw [List.take_nil, blockFrom]
      show n = min (n + m) n
      omega
    | succ size ih =>
      intro cs depth n m hsize hm
      have hle := le_blockFrom depth n cs
      -- an empty window, one character with or without a second behind it, and two or more
      match m, cs, hsize, hm, hle with
      | 0, cs, hsize, hm, hle =>
        rw [List.take_zero, blockFrom]
        show n = min (n + 0) _
        omega
      | 1, [c], hsize, hm, hle =>
        rw [List.take_succ_cons, List.take_zero, blockFrom_singleton]
        show n + 1 = min (n + 1) (n + 1)
        omega
      | 1, c :: d :: cs, hsize, hm, hle =>
        rw [List.take_succ_cons, List.take_zero, blockFrom_singleton, blockFrom_cons_cons]
        have hnext := le_blockFrom depth (n + 1) (d :: cs)
        show n + 1 = min (n + 1) _
        split
        · cases depth with
          | zero =>
            show n + 1 = min (n + 1) (n + 2)
            omega
          | succ depth =>
            have hdeep := le_blockFrom depth (n + 2) cs
            show n + 1 = min (n + 1) (blockFrom depth (n + 2) cs).length
            omega
        · split
          · have hdeep := le_blockFrom (depth + 1) (n + 2) cs
            omega
          · omega
      | m + 2, c :: d :: cs, hsize, hm, hle =>
        simp only [List.length_cons] at hsize hm
        rw [List.take_succ_cons, List.take_succ_cons, blockFrom_cons_cons, blockFrom_cons_cons]
        split
        · cases depth with
          | zero =>
            show n + 2 = min (n + (m + 2)) (n + 2)
            omega
          | succ depth =>
            show (blockFrom depth (n + 2) (cs.take m)).length
              = min _ (blockFrom depth (n + 2) cs).length
            rw [ih cs depth (n + 2) m (by omega) (by omega)]
            omega
        · split
          · rw [ih cs (depth + 1) (n + 2) m (by omega) (by omega)]
            omega
          · have hnext := ih (d :: cs) depth (n + 1) (m + 1) (by simp only [List.length_cons]; omega)
              (by simp only [List.length_cons]; omega)
            rw [List.take_succ_cons] at hnext
            rw [hnext]
            omega
  exact key cs.length cs depth n m (Nat.le_refl _) hm

theorem Comment.block_take {m : Nat} {cs : List Char} (hm : m ≤ cs.length) :
    (block (cs.take m)).length = min m (block cs).length := by
  rw [block, blockFrom_take hm, Nat.zero_add, block]

theorem SectionTag.tagRest_take {m : Nat} {cs : List Char} :
    (tagRest (cs.take m)).length = min m (tagRest cs).length := by
  -- the count only goes up
  have hle : ∀ (cs : List Char) (quote : Option Char) (n : Nat),
      n ≤ (tagRestFrom quote n cs).length := by
    intro cs
    induction cs with
    | nil => intro quote n; exact Nat.le_refl n
    | cons c cs ih =>
      intro quote n
      cases quote with
      | some q => exact Nat.le_of_succ_le (ih _ (n + 1))
      | none =>
        rw [tagRestFrom]
        split
        · exact Nat.le_succ n
        · exact Nat.le_of_succ_le (ih _ (n + 1))
  have key : ∀ (cs : List Char) (quote : Option Char) (n m : Nat),
      (tagRestFrom quote n (cs.take m)).length
        = min (n + m) (tagRestFrom quote n cs).length := by
    intro cs
    induction cs with
    | nil =>
      intro quote n m
      rw [List.take_nil]
      exact (Nat.min_eq_right (Nat.le_add_right n m)).symm
    | cons c cs ih =>
      intro quote n m
      cases m with
      | zero =>
        have := hle (c :: cs) quote n
        rw [List.take_zero]
        show n = min (n + 0) _
        omega
      | succ m =>
        rw [List.take_succ_cons]
        cases quote with
        | some q =>
          rw [tagRestFrom, tagRestFrom, ih, Nat.add_assoc, Nat.add_comm 1 m]
        | none =>
          rw [tagRestFrom, tagRestFrom]
          split
          · show n + 1 = min (n + (m + 1)) (n + 1)
            omega
          · rw [ih, Nat.add_assoc, Nat.add_comm 1 m]
  rw [tagRest, key, Nat.zero_add, tagRest]

end RsxInspect
