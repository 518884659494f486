import Mathlib.Data.List.Infix
import RsxInspect.Proofs.Text.Window

/-!
# Front-matter code in a shorter window

Front-matter code ends at a fence, and a fence is three characters long, so a window that ends where
the code ends, or shows the fence behind it, shows the same code (`codeLength_take`). The steps are
the same for one item (`itemTail_take`), for the items up to a fence (`itemsFrom_take`), and for
what may belong to the code.

An item may look different where the window cuts it: a raw string that is cut inside its hashes is
none (`take_hashes`). But then the window holds nothing but that item, so no fence is seen behind
it.
-/

namespace RsxInspect.FrontMatter

/-! ### Items -/

/-- Hashes and a quote make a raw string, as `rawStringHashes?` counts them. -/
theorem rawStringHashes?_eq_some_iff {cs : List Char} {hashes : Nat} :
    rawStringHashes? cs = some hashes ↔
      hashes = Text.countWhile (· == '#') cs ∧ (cs.drop hashes).head? = some '"' := by
  unfold rawStringHashes?
  rw [← Text.drop_countWhile]
  constructor
  · intro h
    split at h
    · rename_i rest hrest
      cases h
      exact ⟨rfl, by rw [hrest]; rfl⟩
    · cases h
  · rintro ⟨rfl, hquote⟩
    obtain ⟨rest, hrest⟩ : ∃ rest, cs.drop (Text.countWhile (· == '#') cs) = '"' :: rest :=
      List.head?_eq_some_iff.mp hquote
    rw [hrest]
    rfl

/-- A raw string (`rawStringHashes?`) is seen in a window that shows its opening quote. -/
theorem rawStringHashes?_take {cs : List Char} {m : Nat}
    (h : ∀ hashes, rawStringHashes? cs = some hashes → hashes < m) :
    rawStringHashes? (cs.take m) = rawStringHashes? cs := by
  -- a window of `m` characters shows each of them, and a raw string is settled by the character
  -- behind its hashes
  have hhead : ∀ k, k < m → ((cs.take m).drop k).head? = (cs.drop k).head? := by
    intro k hk
    rw [List.drop_take, List.head?_take, if_neg (by omega)]
  refine Option.ext fun hashes => ?_
  constructor
  · intro htake
    obtain ⟨hcount, hquote⟩ := rawStringHashes?_eq_some_iff.mp htake
    rw [Text.countWhile_take] at hcount
    have hlt : hashes < m := by
      by_contra hge
      rw [List.drop_take, show m - hashes = 0 by omega] at hquote
      simp at hquote
    rw [hhead hashes hlt] at hquote
    exact rawStringHashes?_eq_some_iff.mpr ⟨by omega, hquote⟩
  · intro hfull
    have hlt := h hashes hfull
    obtain ⟨hcount, hquote⟩ := rawStringHashes?_eq_some_iff.mp hfull
    refine rawStringHashes?_eq_some_iff.mpr ⟨?_, ?_⟩
    · rw [Text.countWhile_take]
      omega
    · rw [hhead hashes hlt]
      exact hquote

/-- A window shows no character literal (`isCharLiteral`) where there is none. -/
theorem isCharLiteral_of_take {cs : List Char} {m : Nat} (h : isCharLiteral (cs.take m) = true) :
    isCharLiteral cs = true := by
  -- by how much of the literal the window shows: nothing, the first character, or more
  match m, cs, h with
  | 0, cs, h => simp [isCharLiteral] at h
  | m + 1, [], h => exact h
  | 1, c :: cs, h =>
    rw [List.take_succ_cons, List.take_zero] at h
    unfold isCharLiteral at h
    split at h
    · rename_i heq
      cases heq
      rfl
    · rename_i heq
      cases heq
    · cases h
  | m + 2, [c], h =>
    rw [List.take_succ_cons, List.take_nil] at h
    exact h
  | m + 2, c :: d :: cs, h =>
    rw [List.take_succ_cons, List.take_succ_cons] at h
    unfold isCharLiteral at h
    split at h
    · rename_i heq
      cases heq
      rfl
    · rename_i heq
      cases heq
      unfold isCharLiteral
      split <;> simp_all
    · cases h

/-- An item (`itemTail`) in a window that does not cut what tells it from others: the quote of a raw
string, or that of a character literal. -/
theorem itemTail_take (before : Option Char) (c : Char) {cs : List Char} {m : Nat}
    (hm : m ≤ cs.length)
    (hraw : (c == 'r' && !before.any isNamePart) = true →
      ∀ hashes, rawStringHashes? cs = some hashes → hashes < m)
    (hchar : c = '\'' → isCharLiteral cs = true → isCharLiteral (cs.take m) = true) :
    itemTail before c (cs.take m) = min m (itemTail before c cs) := by
  unfold itemTail
  -- the alternatives of `itemTail` in its own order: string, raw string, character, comment
  by_cases hquote : (c == '"') = true
  · rw [if_pos hquote, if_pos hquote]
    exact Quoted.body_take
  · rw [if_neg hquote, if_neg hquote]
    by_cases hr : (c == 'r' && !before.any isNamePart) = true
    · rw [if_pos hr, if_pos hr, rawStringHashes?_take (hraw hr)]
      cases hhashes : rawStringHashes? cs with
      | none => exact (Nat.min_zero m).symm
      | some hashes =>
        have hlt := hraw hr hashes hhashes
        show hashes + 1 + (Text.past _ ((cs.take m).drop (hashes + 1))).length = min m (hashes + 1 + _)
        rw [List.drop_take, Text.past_take (List.cons_ne_nil _ _)
          (by rw [List.length_drop]; omega)]
        omega
    · rw [if_neg hr, if_neg hr]
      have hliteral : (c == '\'' && isCharLiteral (cs.take m)) = (c == '\'' && isCharLiteral cs) := by
        by_cases hc : c = '\''
        · have hsame : isCharLiteral (cs.take m) = isCharLiteral cs :=
            Bool.eq_iff_iff.mpr ⟨isCharLiteral_of_take, hchar hc⟩
          rw [hsame]
        · rw [beq_eq_false_iff_ne.mpr hc, Bool.false_and, Bool.false_and]
      rw [hliteral]
      by_cases hlit : (c == '\'' && isCharLiteral cs) = true
      · rw [if_pos hlit, if_pos hlit]
        exact Quoted.body_take
      · rw [if_neg hlit, if_neg hlit]
        by_cases hslash : (c == '/') = true
        · rw [if_pos hslash, if_pos hslash]
          -- a `/` starts a comment only with the character behind it, which any window but the
          -- empty one shows
          match m, cs, hm with
          | 0, cs, hm => exact (Nat.zero_min _).symm
          | m + 1, [], hm => exact absurd hm (Nat.not_succ_le_zero m)
          | m + 1, d :: cs, hm =>
            rw [List.length_cons] at hm
            rw [List.take_succ_cons]
            split
            · rename_i heq
              cases heq
              show 1 + Text.countWhile _ (cs.take m) = min (m + 1) (1 + Text.countWhile _ cs)
              rw [Text.countWhile_take]
              omega
            · rename_i heq
              cases heq
              show 1 + _ = min (m + 1) (1 + _)
              rw [Comment.block_take (by omega)]
              omega
            · rename_i hline hblock
              split
              · rename_i heq
                cases heq
                exact absurd rfl (hline _)
              · rename_i heq
                cases heq
                exact absurd rfl (hblock _)
              · exact (Nat.min_zero _).symm
        · rw [if_neg hslash, if_neg hslash]
          exact (Nat.min_zero m).symm

/-! ### Raw strings and character literals

A window may hide the quote behind the hashes of a raw string, and then it shows nothing but hashes
(`take_hashes`), or the second quote of a character literal (`isCharLiteral_cases`). -/

theorem eq_r_of_raw {before : Option Char} {c : Char}
    (h : (c == 'r' && !before.any isNamePart) = true) : c = 'r' := by
  simp only [Bool.and_eq_true, beq_iff_eq] at h
  exact h.1

/-- A raw string runs over its hashes and its opening quote. -/
theorem hashes_lt_itemTail {before : Option Char} {c : Char} {cs : List Char} {hashes : Nat}
    (hr : (c == 'r' && !before.any isNamePart) = true)
    (hhashes : rawStringHashes? cs = some hashes) : hashes < itemTail before c cs := by
  unfold itemTail
  rw [if_neg (by rw [eq_r_of_raw hr]; decide), if_pos hr, hhashes]
  show hashes < hashes + 1 + _
  omega

/-- A window that ends inside the hashes of a raw string holds nothing else than hashes. -/
theorem take_hashes {cs : List Char} {hashes m : Nat} (h : rawStringHashes? cs = some hashes)
    (hm : m ≤ hashes) : cs.take m = List.replicate m '#' := by
  obtain ⟨hcount, -⟩ := rawStringHashes?_eq_some_iff.mp h
  have hlength := Text.countWhile_le (· == '#') cs
  have hrun : (cs.takeWhile (· == '#')).take m = cs.take m := by
    conv_rhs => rw [← List.takeWhile_append_dropWhile (p := (· == '#')) (l := cs)]
    rw [List.take_append_of_le_length]
    show m ≤ Text.countWhile (· == '#') cs
    omega
  refine List.eq_replicate_iff.mpr ⟨?_, fun x hx => ?_⟩
  · rw [List.length_take]
    omega
  · rw [← hrun] at hx
    simpa using List.mem_takeWhile_imp (List.mem_of_mem_take hx)

theorem itemTail_hashes {before : Option Char} {c : Char} (m : Nat)
    (hr : (c == 'r' && !before.any isNamePart) = true) :
    itemTail before c (List.replicate m '#') = 0 := by
  have hno : rawStringHashes? (List.replicate m '#') = none := by
    unfold rawStringHashes?
    rw [List.dropWhile_replicate]
    rfl
  unfold itemTail
  rw [if_neg (by rw [eq_r_of_raw hr]; decide), if_pos hr, hno]

theorem isCharLiteral_take {cs : List Char} {m : Nat} (hm : 2 ≤ m)
    (h : isCharLiteral cs = true) : isCharLiteral (cs.take m) = true := by
  obtain ⟨m, rfl⟩ : ∃ j, m = j + 2 := ⟨m - 2, by omega⟩
  match cs, h with
  | [c], h => rwa [List.take_succ_cons, List.take_nil]
  | c :: d :: cs, h =>
    rw [List.take_succ_cons, List.take_succ_cons]
    unfold isCharLiteral at h
    split at h
    · rename_i heq
      cases heq
      rfl
    · rename_i heq
      cases heq
      unfold isCharLiteral
      split <;> simp_all
    · cases h

theorem isCharLiteral_cases {cs : List Char} (h : isCharLiteral cs = true) :
    isCharLiteral (cs.take 1) = true ∨ ∃ c rest, cs = c :: '\'' :: rest := by
  unfold isCharLiteral at h
  split at h
  · exact .inl rfl
  · exact .inr ⟨_, _, rfl⟩
  · cases h

theorem itemTail_of_charLiteral {before : Option Char} {cs : List Char}
    (h : isCharLiteral cs = true) :
    itemTail before '\'' cs = (Quoted.body true '\'' cs).length := by
  unfold itemTail
  rw [if_neg (by decide), if_neg (by simp), if_pos (by rw [h]; rfl)]

/-! ### Items up to a fence

The induction goes from item to item, on a bound of the length, since an item may be of any length.
-/

theorem itemsFrom_nil (n : Nat) (before : Option Char) : itemsFrom n before [] = n := by
  rw [itemsFrom]

/-- Hashes are items of one character each, so `itemsFrom` goes over all of them. -/
theorem itemsFrom_hashes (before : Option Char) (n : Nat) :
    itemsFrom 0 before (List.replicate n '#') = n := by
  induction n generalizing before with
  | zero => exact itemsFrom_nil 0 before
  | succ n ih =>
    rw [List.replicate_succ, itemsFrom_cons, if_neg (by simp [Delimiter.fence])]
    have htail : itemTail before '#' (List.replicate n '#') = 0 := rfl
    rw [htail, List.drop_zero, ih]
    omega

theorem itemTail_le (before : Option Char) (c : Char) (cs : List Char) :
    itemTail before c cs ≤ cs.length := by
  have h := itemTail_take before c (Nat.le_refl cs.length)
    (fun _ hashes hhashes => by
      have hquote := (rawStringHashes?_eq_some_iff.mp hhashes).2
      by_contra hge
      rw [List.drop_eq_nil_of_le (by omega)] at hquote
      cases hquote)
    (fun _ hliteral => by rwa [List.take_length])
  rw [List.take_length] at h
  omega

/-- The items end where the characters do, or at a fence, by induction on the recursion of
`itemsFrom`. -/
theorem itemsFrom_cases (before : Option Char) (cs : List Char) :
    itemsFrom 0 before cs = cs.length ∨
      itemsFrom 0 before cs + 3 ≤ cs.length ∧ Delimiter.fence <+: cs.drop (itemsFrom 0 before cs) := by
  -- an item may take any number of characters, hence the induction on a bound of the length
  have key : ∀ (size : Nat) (cs : List Char) (before : Option Char), cs.length ≤ size →
      itemsFrom 0 before cs = cs.length ∨
        itemsFrom 0 before cs + 3 ≤ cs.length ∧
          Delimiter.fence <+: cs.drop (itemsFrom 0 before cs) := by
    intro size
    induction size with
    | zero =>
      intro cs before hsize
      obtain rfl : cs = [] := List.length_eq_zero_iff.mp (by omega)
      exact .inl (itemsFrom_nil 0 before)
    | succ size ih =>
      intro cs before hsize
      cases cs with
      | nil => exact .inl (itemsFrom_nil 0 before)
      | cons c cs =>
        rw [List.length_cons] at hsize
        have htail := itemTail_le before c cs
        rw [itemsFrom_cons]
        by_cases hfence : Delimiter.fence.isPrefixOf (c :: cs) = true
        · right
          rw [if_pos hfence]
          have hleads := List.isPrefixOf_iff_prefix.mp hfence
          exact ⟨by simpa [Delimiter.fence] using hleads.length_le, hleads⟩
        · rw [if_neg hfence]
          generalize (c :: cs)[itemTail before c cs]? = behind
          have hrest := ih (cs.drop (itemTail before c cs)) behind (by rw [List.length_drop]; omega)
          rw [List.length_drop, List.drop_drop] at hrest
          rw [List.length_cons]
          rcases hrest with hend | ⟨hroom, hleads⟩
          · left
            omega
          · right
            refine ⟨by omega, ?_⟩
            rw [Nat.add_assoc, Nat.add_comm 1, List.drop_succ_cons]
            exact hleads
  exact key cs.length cs before (Nat.le_refl _)

theorem itemsFrom_le (before : Option Char) (cs : List Char) :
    itemsFrom 0 before cs ≤ cs.length := by
  rcases itemsFrom_cases before cs with h | ⟨h, -⟩
  · exact Nat.le_of_eq h
  · omega

/-- Items (`itemsFrom`) that end before a fence are the same whether more is seen behind the fence
or not: each one in front of it is as long. -/
theorem itemsFrom_take {before : Option Char} {cs : List Char} {m : Nat} (hm : m ≤ cs.length)
    (h : min (itemsFrom 0 before cs) (itemsFrom 0 before (cs.take m)) + 3 ≤ m) :
    itemsFrom 0 before (cs.take m) = itemsFrom 0 before cs := by
  have key : ∀ (size : Nat) (cs : List Char) (m : Nat) (before : Option Char),
      cs.length ≤ size → m ≤ cs.length →
      min (itemsFrom 0 before cs) (itemsFrom 0 before (cs.take m)) + 3 ≤ m →
      itemsFrom 0 before (cs.take m) = itemsFrom 0 before cs := by
    intro size
    induction size with
    | zero =>
      intro cs m before hsize hm h
      omega
    | succ size ih =>
      intro cs m before hsize hm h
      obtain ⟨m, rfl⟩ : ∃ j, m = j + 1 := ⟨m - 1, by omega⟩
      cases cs with
      | nil => rw [List.take_nil]
      | cons c cs =>
        rw [List.length_cons] at hsize hm
        have hfenceTake : Delimiter.fence.isPrefixOf (c :: cs.take m)
            = Delimiter.fence.isPrefixOf (c :: cs) := by
          rw [← List.take_succ_cons]
          refine isPrefixOf_take_of_le ?_
          show 3 ≤ m + 1
          omega
        rw [List.take_succ_cons, itemsFrom_cons, itemsFrom_cons, hfenceTake] at h
        rw [List.take_succ_cons, itemsFrom_cons, itemsFrom_cons, hfenceTake]
        by_cases hfence : Delimiter.fence.isPrefixOf (c :: cs) = true
        · rw [if_pos hfence, if_pos hfence]
        · rw [if_neg hfence, if_neg hfence] at h
          rw [if_neg hfence, if_neg hfence]
          by_cases hcut : (c == 'r' && !before.any isNamePart) = true ∧
              ∃ hashes, rawStringHashes? cs = some hashes ∧ m ≤ hashes
          · -- the window holds nothing but the hashes of a raw string
            exfalso
            obtain ⟨hr, hashes, hhashes, hle⟩ := hcut
            have hbig := hashes_lt_itemTail hr hhashes
            rw [take_hashes hhashes hle, itemTail_hashes m hr, List.drop_zero,
              itemsFrom_hashes] at h
            omega
          · have hsame := @itemTail_take before c cs m (by omega)
              (fun hr hashes hhashes => by
                by_contra hge
                exact hcut ⟨hr, hashes, hhashes, by omega⟩)
              (fun _ => isCharLiteral_take (by omega))
            rw [hsame] at h
            rw [hsame]
            rcases Nat.le_total (itemTail before c cs) m with hle | hge
            · have hbehind : (c :: cs.take m)[itemTail before c cs]?
                  = (c :: cs)[itemTail before c cs]? := by
                rw [← List.take_succ_cons, List.getElem?_take_of_lt (by omega)]
              rw [Nat.min_eq_right hle, hbehind, List.drop_take] at h
              rw [Nat.min_eq_right hle, hbehind, List.drop_take]
              rw [ih _ _ _ (by rw [List.length_drop]; omega) (by rw [List.length_drop]; omega)
                (by omega)]
            · exfalso
              rw [Nat.min_eq_left hge] at h
              omega
  exact key cs.length cs m before (Nat.le_refl _) hm h

/-- The items behind a character literal that is cut short are not empty (`itemsFrom`): only between
two quotes that are followed by a third one does the literal take less than two characters. -/
theorem two_le_of_charLiteral (before : Option Char) {cs : List Char}
    (h : isCharLiteral cs = true) :
    isCharLiteral (cs.take 1) = true ∧ 1 ≤ itemTail before '\'' cs ∨
      ∀ behind, 2 ≤ itemTail before '\'' cs
        + itemsFrom 0 behind (cs.drop (itemTail before '\'' cs)) := by
  rw [itemTail_of_charLiteral h]
  -- an escape is known by its first character; any other literal is one character and a quote
  rcases isCharLiteral_cases h with hshort | ⟨c, rest, rfl⟩
  · left
    refine ⟨hshort, ?_⟩
    cases cs with
    | nil => simp [isCharLiteral] at h
    | cons c cs =>
      rw [Quoted.body_cons]
      split
      · exact Nat.le_refl 1
      · split
        · cases cs with
          | nil => exact Nat.le_refl 1
          | cons d cs =>
            show 1 ≤ 2 + _
            omega
        · show 1 ≤ 1 + _
          omega
  · right
    intro behind
    rw [Quoted.body_cons]
    split
    · show 2 ≤ 1 + itemsFrom 0 behind ('\'' :: rest)
      rw [itemsFrom_cons, if_neg (by simp [Delimiter.fence])]
      omega
    · split
      · show 2 ≤ 2 + _ + _
        omega
      · rw [Quoted.body_cons, if_pos (by rfl)]
        show 2 ≤ 1 + 1 + _
        omega

/-- Items that are all that is seen: a window that ends where `itemsFrom` does shows the same
items. -/
theorem itemsFrom_take_self (before : Option Char) (cs : List Char) :
    itemsFrom 0 before (cs.take (itemsFrom 0 before cs)) = itemsFrom 0 before cs := by
  -- by the same bound as in `itemsFrom_cases`
  have key : ∀ (size : Nat) (cs : List Char) (before : Option Char), cs.length ≤ size →
      itemsFrom 0 before (cs.take (itemsFrom 0 before cs)) = itemsFrom 0 before cs := by
    intro size
    induction size with
    | zero =>
      intro cs before hsize
      obtain rfl : cs = [] := List.length_eq_zero_iff.mp (by omega)
      rw [List.take_nil, itemsFrom_nil]
    | succ size ih =>
      intro cs before hsize
      cases cs with
      | nil => rw [List.take_nil, itemsFrom_nil]
      | cons c cs =>
        rw [List.length_cons] at hsize
        have htail := itemTail_le before c cs
        rw [itemsFrom_cons before c cs]
        by_cases hfence : Delimiter.fence.isPrefixOf (c :: cs) = true
        · rw [if_pos hfence, List.take_zero]
          exact itemsFrom_nil 0 before
        · rw [if_neg hfence]
          generalize hbehind : (c :: cs)[itemTail before c cs]? = behind
          have hrest := ih (cs.drop (itemTail before c cs)) behind (by rw [List.length_drop]; omega)
          have hrestLe := itemsFrom_le behind (cs.drop (itemTail before c cs))
          rw [List.length_drop] at hrestLe
          generalize hmore : itemsFrom 0 behind (cs.drop (itemTail before c cs)) = more
            at hrest hrestLe
          rw [show 1 + itemTail before c cs + more = (itemTail before c cs + more) + 1 by omega,
            List.take_succ_cons, itemsFrom_cons, if_neg]
          -- the first item is read in the window as in the text: the window holds its hashes or its
          -- closing quote
          · have hsame : itemTail before c (cs.take (itemTail before c cs + more))
                = itemTail before c cs := by
              rw [itemTail_take _ _ (by omega)]
              · omega
              · intro hr hashes hhashes
                have hbig := hashes_lt_itemTail hr hhashes
                omega
              · intro hc hliteral
                subst hc
                rcases two_le_of_charLiteral before hliteral with ⟨hshort, hpos⟩ | hlong
                · have htake : cs.take 1 = (cs.take (itemTail before '\'' cs + more)).take 1 := by
                    rw [List.take_take, Nat.min_eq_left (by omega)]
                  rw [htake] at hshort
                  exact isCharLiteral_of_take hshort
                · have hlong := hlong behind
                  rw [hmore] at hlong
                  exact isCharLiteral_take hlong hliteral
            have hbehindTake : (c :: cs.take (itemTail before c cs + more))[itemTail before c cs]?
                = behind := by
              rw [← List.take_succ_cons, List.getElem?_take_of_lt (by omega), hbehind]
            rw [hsame, hbehindTake, List.drop_take, Nat.add_sub_cancel_left, hrest]
            omega
          · rw [← List.take_succ_cons]
            exact not_isPrefixOf_take hfence
  exact key cs.length cs before (Nat.le_refl _)

/-! ### Code up to a fence

The fence line that bounds the code from outside is in the window, or it is cut or missing there,
and then all of the window may belong to the code (`reach_take`). -/

/-- The characters of `cs` that may belong to the code. -/
theorem reach_eq_take (cs : List Char) : reach cs = cs.take (reach cs).length :=
  (List.prefix_iff_eq_take.mp (reach_leads cs))

/-- Behind the code stands a fence, unless all is code (`codeLength`). -/
theorem fence_behind_code {before : Option Char} {cs : List Char}
    (h : codeLength before cs < cs.length) :
    Delimiter.fence <+: cs.drop (codeLength before cs) := by
  unfold codeLength at h ⊢
  -- the items end at a fence, or at the end of their reach, behind which a line starts with a fence
  rcases itemsFrom_cases before (reach cs) with hall | ⟨hroom, hfence⟩
  · rw [hall] at h ⊢
    unfold reach at h ⊢
    cases hindex : Text.indexOf? ('\n' :: Delimiter.fence) cs with
    | none =>
      rw [hindex] at h
      exact absurd h (Nat.lt_irrefl _)
    | some k =>
      rw [hindex] at h
      simp only at h ⊢
      obtain ⟨hstands, -⟩ := (Text.indexOf?_eq_some_iff (List.cons_ne_nil _ _)).mp hindex
      obtain ⟨tail, htail⟩ := hstands
      have hlength : (cs.take (k + 1)).length = k + 1 := by
        rw [List.length_take] at h ⊢
        omega
      rw [hlength, ← List.drop_drop, ← htail]
      exact List.prefix_append _ _
  · exact hfence.trans (List.IsPrefix.drop (reach_leads cs) _)

/-- What may belong to the code (`reach`) in a window: what may belong to it in the text, or all of
the window, which then ends inside the fence behind the code, if not before. -/
theorem reach_take (cs : List Char) (m : Nat) :
    reach (cs.take m) = reach cs ∨
      reach (cs.take m) = cs.take m ∧ (cs.length ≤ (reach cs).length ∨ m ≤ (reach cs).length + 2) := by
  unfold reach
  -- the fence line is seen, cut in two by the window, or not there at all
  cases hindex : Text.indexOf? ('\n' :: Delimiter.fence) cs with
  | none =>
    right
    rw [Text.indexOf?_take_of_none (List.cons_ne_nil _ _) hindex]
    exact ⟨rfl, .inl (Nat.le_refl _)⟩
  | some k =>
    rw [Text.indexOf?_take (List.cons_ne_nil _ _) hindex]
    have hroom : k + 4 ≤ cs.length := by
      obtain ⟨hstands, -⟩ := (Text.indexOf?_eq_some_iff (List.cons_ne_nil _ _)).mp hindex
      have hlength := hstands.length_le
      rw [List.length_drop] at hlength
      have : ('\n' :: Delimiter.fence).length = 4 := rfl
      omega
    by_cases hm : k + ('\n' :: Delimiter.fence).length ≤ m
    · left
      rw [if_pos hm]
      have : k + 4 ≤ m := hm
      show (cs.take m).take (k + 1) = cs.take (k + 1)
      rw [List.take_take, Nat.min_eq_left (by omega)]
    · right
      rw [if_neg hm]
      have : ¬ k + 4 ≤ m := hm
      refine ⟨rfl, .inr ?_⟩
      show m ≤ (cs.take (k + 1)).length + 2
      rw [List.length_take]
      omega

/-- Code in a window that ends with it, or shows the fence behind it, has the same `codeLength`. -/
theorem codeLength_take {before : Option Char} {cs : List Char} {m : Nat} (hm : m ≤ cs.length)
    (h : m = codeLength before cs ∨ codeLength before cs + 3 ≤ m) :
    codeLength before (cs.take m) = codeLength before cs := by
  unfold codeLength at h ⊢
  have hreach := reach_eq_take cs
  have hreachLe := (reach_leads cs).length_le
  have hle := itemsFrom_le before (reach cs)
  rcases reach_take cs m with hsame | ⟨hall, hend⟩
  · rw [hsame]
  · rw [hall]
    rcases h with hcut | hroom
    · have hwindow : cs.take m = (reach cs).take (itemsFrom 0 before (reach cs)) := by
        rw [hreach, List.take_take, ← hreach, ← hcut, Nat.min_eq_left (by omega)]
      rw [hwindow]
      exact itemsFrom_take_self before (reach cs)
    · rcases Nat.le_total m (reach cs).length with hinside | houtside
      · have hwindow : cs.take m = (reach cs).take m := by
          conv_rhs => rw [hreach, List.take_take, Nat.min_eq_left hinside]
        rw [hwindow]
        exact itemsFrom_take hinside (by omega)
      · -- the fence that ends the code lies before the one that ends the reach
        have hwindow : reach cs = (cs.take m).take (reach cs).length := by
          rw [List.take_take, Nat.min_eq_left houtside]
          exact hreach
        have hfence : itemsFrom 0 before (reach cs) + 3 ≤ (reach cs).length := by
          rcases itemsFrom_cases before (reach cs) with hlast | ⟨hfence, -⟩
          · omega
          · exact hfence
        have hsame := @itemsFrom_take before (cs.take m) (reach cs).length
          (by rw [List.length_take]; omega) (by rw [← hwindow]; omega)
        rw [← hwindow] at hsame
        exact hsame.symm

end RsxInspect.FrontMatter
