import RsxInspect.Proofs.Text.CodeWindow

/-!
# Measures with more text behind

A measure that ends inside of some characters does not change when more characters follow them: the
mark that ends it was found already, and what follows cannot bring an earlier one (`past_append`,
`upTo_append`, `extent_append`, `tagRest_append`). Front-matter code is the case where this is not
plain, since the line break and the fence that bound it may lie in what follows, partly or as a whole
(`codeLength_append`).
-/

namespace RsxInspect

variable {mark cs : List Char} {p : Char → Bool}

/-! ### Marks -/

/-- A mark that is no longer than the characters stands ahead whatever follows them, or not at all,
as `isPrefixOf` tells. -/
theorem isPrefixOf_append (more : List Char) (h : mark.length ≤ cs.length) :
    mark.isPrefixOf (cs ++ more) = mark.isPrefixOf cs := by
  have htake := @isPrefixOf_take_of_le mark (cs ++ more) cs.length h
  rw [List.take_left] at htake
  exact htake.symm

/-- A character ahead of the end is there whatever follows. -/
theorem head?_drop_append {n : Nat} (more : List Char) (h : n < cs.length) :
    ((cs ++ more).drop n).head? = (cs.drop n).head? := by
  rw [List.head?_drop, List.head?_drop, List.getElem?_append_left h]

/-- Characters that are not the start of a word show whether the word stands ahead, and what comes
behind it. -/
theorem length_lt_of_isPrefixOf {word : List Char} (h : ¬ cs <+: word)
    (hword : word.isPrefixOf cs = true) : word.length < cs.length := by
  have hleads := List.isPrefixOf_iff_prefix.mp hword
  refine Nat.lt_of_le_of_ne hleads.length_le fun hlength => h ?_
  rw [hleads.eq_of_length hlength]

theorem isPrefixOf_append_of_not {word : List Char} (more : List Char) (h : ¬ cs <+: word) :
    word.isPrefixOf (cs ++ more) = word.isPrefixOf cs := by
  rcases Nat.le_total word.length cs.length with hle | hle
  · exact isPrefixOf_append more hle
  · -- a longer word would start with all of the characters
    have hmiss : ¬ word.isPrefixOf cs = true := fun hword => by
      have := length_lt_of_isPrefixOf h hword
      omega
    have hmiss' : ¬ word.isPrefixOf (cs ++ more) = true := fun hword =>
      h (List.prefix_of_prefix_length_le (List.prefix_append cs more)
        (List.isPrefixOf_iff_prefix.mp hword) hle)
    rw [Bool.not_eq_true] at hmiss hmiss'
    rw [hmiss, hmiss']

namespace Text

theorem startsWithWord_append {word : List Char} (more : List Char) (h : ¬ cs <+: word) :
    startsWithWord word (cs ++ more) = startsWithWord word cs := by
  unfold startsWithWord
  rw [isPrefixOf_append_of_not more h]
  cases hword : word.isPrefixOf cs with
  | false => rfl
  | true =>
    rw [head?_drop_append more (length_lt_of_isPrefixOf h hword)]

end Text

theorem SectionTag.opensWith_append {tag : List Char} (more : List Char) (h : ¬ cs <+: tag) :
    opensWith tag (cs ++ more) = opensWith tag cs := by
  unfold opensWith
  rw [isPrefixOf_append_of_not more h]
  cases htag : tag.isPrefixOf cs with
  | false => rfl
  | true =>
    rw [head?_drop_append more (length_lt_of_isPrefixOf h htag)]

/-! ### Measures

A measure that ends in front of the last character has seen what ended it, so it does not go on into
what follows. -/

namespace Text

theorem countWhile_append_of_lt (more : List Char) (h : countWhile p cs < cs.length) :
    countWhile p (cs ++ more) = countWhile p cs := by
  have htake := countWhile_take p (cs ++ more) cs.length
  rw [List.take_left] at htake
  omega

theorem takeWhile_append_of_lt (more : List Char) (h : countWhile p cs < cs.length) :
    (cs ++ more).takeWhile p = cs.takeWhile p := by
  have hle : countWhile p (cs ++ more) ≤ cs.length := by
    rw [countWhile_append_of_lt more h]
    omega
  have htake := takeWhile_take hle
  rw [List.take_left] at htake
  exact htake.symm

/-- The first place of a mark (`indexOf?`) stays the first one: whatever stands in front of it was
in sight before. -/
theorem indexOf?_append {k : Nat} (more : List Char) (hmark : mark ≠ [])
    (h : indexOf? mark cs = some k) : indexOf? mark (cs ++ more) = some k := by
  obtain ⟨hstands, hfirst⟩ := (indexOf?_eq_some_iff hmark).mp h
  have hroom : k + mark.length ≤ cs.length := by
    have hlength := hstands.length_le
    have := List.length_pos_iff.mpr hmark
    rw [List.length_drop] at hlength
    omega
  have hhere : ∀ j, mark <+: cs.drop j ↔ mark <+: (cs ++ more).drop j ∧ mark.length ≤ cs.length - j := by
    intro j
    rw [← prefix_drop_take, List.take_left]
  refine (indexOf?_eq_some_iff hmark).mpr ⟨((hhere k).mp hstands).1, fun j hj hat => ?_⟩
  exact hfirst j hj ((hhere j).mpr ⟨hat, by omega⟩)

theorem past_append (more : List Char) (hmark : mark ≠ [])
    (h : (past mark cs).length < cs.length) : past mark (cs ++ more) = past mark cs := by
  unfold past at h ⊢
  cases hindex : indexOf? mark cs with
  | none =>
    rw [hindex] at h
    exact absurd h (Nat.lt_irrefl _)
  | some k => rw [indexOf?_append more hmark hindex]

theorem upTo_append (more : List Char) (hmark : mark ≠ [])
    (h : (upTo mark cs).length < cs.length) : upTo mark (cs ++ more) = upTo mark cs := by
  unfold upTo at h ⊢
  cases hindex : indexOf? mark cs with
  | none =>
    rw [hindex] at h
    exact absurd h (Nat.lt_irrefl _)
  | some k => rw [indexOf?_append more hmark hindex]

/-- A mark that ends a measure has room behind it, between what `upTo` takes and the end. -/
theorem upTo_room (hmark : mark ≠ []) (h : (upTo mark cs).length < cs.length) :
    (upTo mark cs).length + mark.length ≤ cs.length := by
  unfold upTo at h ⊢
  cases hindex : indexOf? mark cs with
  | none =>
    rw [hindex] at h
    exact absurd h (Nat.lt_irrefl _)
  | some k =>
    have hlength := ((indexOf?_eq_some_iff hmark).mp hindex).1.length_le
    have := List.length_pos_iff.mpr hmark
    rw [List.length_drop] at hlength
    show k + mark.length ≤ cs.length
    omega

end Text

theorem Quoted.extent_append {escapes : Bool} (more : List Char)
    (h : (extent escapes cs).length < cs.length) :
    (extent escapes (cs ++ more)).length = (extent escapes cs).length := by
  have htake := @extent_take escapes (cs ++ more) cs.length (by omega)
  rw [List.take_left] at htake
  omega

theorem SectionTag.tagRest_append (more : List Char) (h : (tagRest cs).length < cs.length) :
    (tagRest (cs ++ more)).length = (tagRest cs).length := by
  have htake := @tagRest_take cs.length (cs ++ more)
  rw [List.take_left] at htake
  omega

/-! ### Front-matter code

A fence at the start of a line bounds the code from outside, so what follows may bring one that was
not there. But code that ends before was bounded by something that is there. -/

namespace FrontMatter

/-- Behind code that ends inside of the characters a fence has room, as `codeLength` stops in front
of one. -/
theorem codeLength_room {before : Option Char} (h : codeLength before cs < cs.length) :
    codeLength before cs + 3 ≤ cs.length := by
  have hlength := (fence_behind_code h).length_le
  rw [List.length_drop] at hlength
  have : Delimiter.fence.length = 3 := rfl
  omega

/-- A line break stands in front of the fence that bounds what may belong to the code (`reach`). -/
theorem lineBreak_of_reach (h : (reach cs).length < cs.length) :
    ∃ k, (reach cs).length = k + 1 ∧ cs[k]? = some '\n' := by
  unfold reach at h ⊢
  cases hindex : Text.indexOf? ('\n' :: Delimiter.fence) cs with
  | none =>
    rw [hindex] at h
    exact absurd h (Nat.lt_irrefl _)
  | some k =>
    obtain ⟨⟨rest, hrest⟩, -⟩ := (Text.indexOf?_eq_some_iff (List.cons_ne_nil _ _)).mp hindex
    have hhead : cs[k]? = some '\n' := by
      rw [← List.head?_drop, ← hrest]
      rfl
    have hk : k < cs.length := (List.getElem?_eq_some_iff.mp hhead).1
    refine ⟨k, ?_, hhead⟩
    show (cs.take (k + 1)).length = k + 1
    rw [List.length_take]
    omega

/-- **Code that ends inside of the characters ends there whatever follows them** (`codeLength`).
What follows can only complete a fence behind the fence that ends the code. -/
theorem codeLength_append {before : Option Char} (more : List Char)
    (h : codeLength before cs < cs.length) :
    codeLength before (cs ++ more) = codeLength before cs := by
  have hwindow : cs = (cs ++ more).take cs.length := (List.take_left ..).symm
  have hcases := reach_take (cs ++ more) cs.length
  rw [← hwindow] at hcases
  rcases hcases with hsame | ⟨hall, hbound⟩
  · unfold codeLength
    rw [hsame]
  · -- no line break and fence stand in the characters, so all of them may belong to the code
    have hroom := codeLength_room h
    have hfence := fence_behind_code h
    unfold codeLength at h hroom hfence ⊢
    rw [hall] at h hroom hfence ⊢
    let full := cs ++ more
    have hreach : reach full = full.take (reach full).length := reach_eq_take full
    have hlength : full.length = cs.length + more.length := List.length_append
    have hbound : full.length ≤ (reach full).length ∨ cs.length ≤ (reach full).length + 2 := hbound
    rcases Nat.le_total cs.length (reach full).length with hinside | houtside
    · have hcs : cs = (reach full).take cs.length := by
        rw [hreach, List.take_take, Nat.min_eq_left hinside]
        exact hwindow
      have hsame := @itemsFrom_take before (reach full) cs.length hinside (by rw [← hcs]; omega)
      rw [← hcs] at hsame
      exact hsame.symm
    · rcases Nat.eq_or_lt_of_le houtside with heq | hlt
      · -- all of the characters are reached, and nothing more
        have hsame : reach full = cs := by rw [hreach, heq]; exact hwindow.symm
        rw [hsame]
      · have hreached : reach full = cs.take (reach full).length := by
          conv_rhs => rw [hwindow, List.take_take, Nat.min_eq_left houtside]
          exact hreach
        obtain ⟨k, hk, hbreak⟩ := lineBreak_of_reach (show (reach full).length < full.length by omega)
        have hbreak' : cs[k]? = some '\n' := by
          rw [← hbreak]
          exact (List.getElem?_append_left (by omega)).symm
        -- the fence behind the code cannot hold the line break, so it stands in front of it
        have hbefore : itemsFrom 0 before cs + 3 ≤ k := by
          by_contra hlate
          obtain ⟨rest, hrest⟩ := hfence
          have hdash : ∀ j, j < 3 → cs[itemsFrom 0 before cs + j]? = some '-' := by
            intro j hj
            rw [← List.getElem?_drop, ← hrest]
            match j, hj with
            | 0, _ => rfl
            | 1, _ => rfl
            | 2, _ => rfl
          have hinside : itemsFrom 0 before cs ≤ k := by omega
          have hclash := hdash (k - itemsFrom 0 before cs) (by omega)
          rw [Nat.add_sub_cancel' hinside, hbreak'] at hclash
          cases hclash
        have hsame := @itemsFrom_take before cs (reach full).length (by omega) (by omega)
        rw [← hreached] at hsame
        exact hsame

end FrontMatter

end RsxInspect
