import Mathlib.Data.List.Basic
import RsxInspect.Lexeme

/-!
# Measures of constructs

The measures of the scanner count from a number that is handed on (`textFrom n`, `bodyFrom … n`).
Here each of them is that number and what the same measure finds from 0 on (`textFrom_eq`,
`bodyFrom_eq`, `itemsFrom_eq`), so that a measure can be read off its first character alone
(`textFrom_cons`, `body_cons`, `itemsFrom_cons`).

`Text.indexOf?_eq_some_iff` says where a mark is found: at the first place where it stands.
-/

namespace RsxInspect

namespace Text

/-! ### Runs of characters -/

theorem countWhile_nil (p : Char → Bool) : countWhile p [] = 0 := rfl

theorem countWhile_cons (p : Char → Bool) (c : Char) (cs : List Char) :
    countWhile p (c :: cs) = if p c then countWhile p cs + 1 else 0 := by
  rw [countWhile, List.takeWhile_cons]
  split
  · rw [List.length_cons, countWhile]
  · rfl

theorem countWhile_le (p : Char → Bool) (cs : List Char) : countWhile p cs ≤ cs.length :=
  (List.takeWhile_prefix p).length_le

theorem take_countWhile (p : Char → Bool) (cs : List Char) :
    cs.take (countWhile p cs) = cs.takeWhile p := by
  induction cs with
  | nil => rfl
  | cons c cs ih =>
    rw [countWhile_cons, List.takeWhile_cons]
    split
    · rw [List.take_succ_cons, ih]
    · rfl

theorem drop_countWhile (p : Char → Bool) (cs : List Char) :
    cs.drop (countWhile p cs) = cs.dropWhile p := by
  induction cs with
  | nil => rfl
  | cons c cs ih =>
    rw [countWhile_cons, List.dropWhile_cons]
    split
    · rw [List.drop_succ_cons, ih]
    · rfl

/-- A run goes on at least as far as its characters are known, so `countWhile` is no less than
these. -/
theorem le_countWhile_append {p : Char → Bool} {run : List Char} (rest : List Char)
    (hrun : ∀ c ∈ run, p c = true) : run.length ≤ countWhile p (run ++ rest) := by
  induction run with
  | nil => exact Nat.zero_le _
  | cons c run ih =>
    rw [List.cons_append, countWhile_cons, if_pos (hrun c (by simp)), List.length_cons]
    exact Nat.succ_le_succ (ih fun c hc => hrun c (by simp [hc]))

/-- A run of characters (`countWhile`) that ends where the next one is none of them. -/
theorem countWhile_append {p : Char → Bool} {run rest : List Char} (hrun : ∀ c ∈ run, p c = true)
    (hrest : rest.head?.all (!p ·) = true) : countWhile p (run ++ rest) = run.length := by
  induction run with
  | nil =>
    cases rest with
    | nil => rfl
    | cons c rest =>
      have hc : ¬ p c = true := by simpa using hrest
      rw [List.nil_append, countWhile_cons, if_neg hc, List.length_nil]
  | cons c run ih =>
    rw [List.cons_append, countWhile_cons, if_pos (hrun c (by simp)), List.length_cons,
      ih fun c hc => hrun c (by simp [hc])]

/-! ### Marks -/

theorem indexFrom_eq (mark : List Char) (n : Nat) (cs : List Char) :
    indexFrom mark n cs = (indexOf? mark cs).map (· + n) := by
  -- for any counter, since the search counts up as it goes
  have key : ∀ (cs : List Char) (n : Nat),
      indexFrom mark n cs = (indexFrom mark 0 cs).map (· + n) := by
    intro cs
    induction cs with
    | nil =>
      intro n
      rw [indexFrom, indexFrom]
      split
      · simp
      · rfl
    | cons c cs ih =>
      intro n
      rw [indexFrom, indexFrom]
      split
      · simp
      · rw [ih (n + 1), ih (0 + 1), Option.map_map]
        congr 1
        funext k
        show k + (n + 1) = k + (0 + 1) + n
        omega
  exact key cs n

theorem indexOf?_cons (mark : List Char) (c : Char) (cs : List Char) :
    indexOf? mark (c :: cs)
      = if mark.isPrefixOf (c :: cs) then some 0 else (indexOf? mark cs).map (· + 1) := by
  rw [indexOf?, indexFrom]
  split
  · rfl
  · rw [indexFrom_eq]

theorem indexOf?_nil {mark : List Char} (h : mark ≠ []) : indexOf? mark [] = none := by
  cases mark with
  | nil => exact absurd rfl h
  | cons c mark => rfl

/-- A mark is found by `indexOf?` at the first place where it stands, by induction on the
characters. -/
theorem indexOf?_eq_some_iff {mark cs : List Char} (hmark : mark ≠ []) {k : Nat} :
    indexOf? mark cs = some k ↔ mark <+: cs.drop k ∧ ∀ j < k, ¬ mark <+: cs.drop j := by
  induction cs generalizing k with
  | nil =>
    rw [indexOf?_nil hmark]
    simp [hmark]
  | cons c cs ih =>
    -- the mark stands here, or the search goes on one place further
    rw [indexOf?_cons]
    by_cases hhere : mark.isPrefixOf (c :: cs) = true
    · rw [if_pos hhere]
      have hleads : mark <+: c :: cs := List.isPrefixOf_iff_prefix.mp hhere
      constructor
      · intro h
        cases h
        exact ⟨hleads, by simp⟩
      · rintro ⟨-, hfirst⟩
        cases k with
        | zero => rfl
        | succ k => exact absurd hleads (hfirst 0 (Nat.succ_pos k))
    · rw [if_neg hhere]
      have hno : ¬ mark <+: c :: cs := fun h => hhere (List.isPrefixOf_iff_prefix.mpr h)
      cases k with
      | zero => simp [hno]
      | succ k =>
        rw [Option.map_eq_some_iff]
        constructor
        · rintro ⟨j, hj, hjk⟩
          obtain rfl : j = k := by omega
          obtain ⟨hstands, hfirst⟩ := ih.mp hj
          refine ⟨hstands, fun i hi => ?_⟩
          cases i with
          | zero => exact hno
          | succ i => exact hfirst i (by omega)
        · rintro ⟨hstands, hfirst⟩
          exact ⟨k, ih.mpr ⟨hstands, fun j hj => hfirst (j + 1) (by omega)⟩, rfl⟩

/-- A mark is not found (`none`) if it stands nowhere. -/
theorem indexOf?_eq_none_iff {mark cs : List Char} (hmark : mark ≠ []) :
    indexOf? mark cs = none ↔ ∀ j, ¬ mark <+: cs.drop j := by
  induction cs with
  | nil =>
    rw [indexOf?_nil hmark]
    simp [hmark]
  | cons c cs ih =>
    rw [indexOf?_cons]
    by_cases hhere : mark.isPrefixOf (c :: cs) = true
    · rw [if_pos hhere]
      have hleads : mark <+: c :: cs := List.isPrefixOf_iff_prefix.mp hhere
      constructor
      · intro h
        cases h
      · intro h
        exact absurd hleads (h 0)
    · rw [if_neg hhere, Option.map_eq_none_iff, ih]
      have hno : ¬ mark <+: c :: cs := fun h => hhere (List.isPrefixOf_iff_prefix.mpr h)
      constructor
      · intro h j
        cases j with
        | zero => exact hno
        | succ j => exact h j
      · intro h j
        exact h (j + 1)

/-- Where the mark does not stand at once, there are characters up to it (`upTo`). -/
theorem upTo_length_pos {mark cs : List Char} (hcs : cs ≠ [])
    (h : ¬ mark.isPrefixOf cs = true) : 0 < (upTo mark cs).length := by
  cases cs with
  | nil => exact absurd rfl hcs
  | cons c cs =>
    rw [upTo, indexOf?_cons, if_neg h]
    cases indexOf? mark cs with
    | none => simp
    | some k => simp

/-- What is passed, `past`, is no shorter than the mark, unless there is too little ahead. -/
theorem le_past {mark cs : List Char} {k : Nat} (hmark : k ≤ mark.length) (hcs : k ≤ cs.length) :
    k ≤ (past mark cs).length := by
  rw [past]
  cases indexOf? mark cs with
  | none => exact hcs
  | some i =>
    show k ≤ i + mark.length
    omega

theorem past_length_pos {mark cs : List Char} (hcs : cs ≠ []) (hmark : mark ≠ []) :
    0 < (past mark cs).length :=
  le_past (List.length_pos_iff.mpr hmark) (List.length_pos_iff.mpr hcs)

end Text

/-! ### Quoted literals -/

namespace Quoted

theorem bodyFrom_cons (escapes : Bool) (quote : Char) (n : Nat) (c : Char) (cs : List Char) :
    bodyFrom escapes quote n (c :: cs)
      = if c == quote then ⟨n + 1, true⟩
        else if escapes && c == '\\' then
          match cs with
          | [] => ⟨n + 1, false⟩
          | _ :: cs => bodyFrom escapes quote (n + 2) cs
        else bodyFrom escapes quote (n + 1) cs :=
  bodyFrom.eq_def escapes quote n (c :: cs)

theorem bodyFrom_eq (escapes : Bool) (quote : Char) (n : Nat) (cs : List Char) :
    bodyFrom escapes quote n cs
      = ⟨n + (body escapes quote cs).length, (body escapes quote cs).closed⟩ := by
  -- an escape skips two characters, so the induction is on a bound of the length
  have key : ∀ (size : Nat) (cs : List Char) (n : Nat), cs.length ≤ size →
      bodyFrom escapes quote n cs
        = ⟨n + (bodyFrom escapes quote 0 cs).length, (bodyFrom escapes quote 0 cs).closed⟩ := by
    intro size
    induction size with
    | zero =>
      intro cs n hsize
      obtain rfl : cs = [] := List.length_eq_zero_iff.mp (by omega)
      rfl
    | succ size ih =>
      intro cs n hsize
      cases cs with
      | nil => rfl
      | cons c cs =>
        rw [List.length_cons] at hsize
        rw [bodyFrom_cons, bodyFrom_cons]
        split
        · rw [Nat.zero_add]
        · split
          · cases cs with
            | nil => rw [Nat.zero_add]
            | cons d cs =>
              rw [List.length_cons] at hsize
              simp only
              rw [ih cs (n + 2) (by omega), ih cs (0 + 2) (by omega)]
              simp only [Extent.mk.injEq, and_true]
              omega
          · rw [ih cs (n + 1) (by omega), ih cs (0 + 1) (by omega)]
            simp only [Extent.mk.injEq, and_true]
            omega
  exact key cs.length cs n (Nat.le_refl _)

theorem body_cons (escapes : Bool) (quote c : Char) (cs : List Char) :
    body escapes quote (c :: cs)
      = if c == quote then ⟨1, true⟩
        else if escapes && c == '\\' then
          match cs with
          | [] => ⟨1, false⟩
          | _ :: cs => ⟨2 + (body escapes quote cs).length, (body escapes quote cs).closed⟩
        else ⟨1 + (body escapes quote cs).length, (body escapes quote cs).closed⟩ := by
  rw [body, bodyFrom_cons]
  split
  · rfl
  · split
    · cases cs with
      | nil => rfl
      | cons d cs => exact bodyFrom_eq escapes quote _ cs
    · exact bodyFrom_eq escapes quote _ cs

theorem extent_cons (escapes : Bool) (quote : Char) (cs : List Char) :
    extent escapes (quote :: cs)
      = ⟨1 + (body escapes quote cs).length, (body escapes quote cs).closed⟩ :=
  bodyFrom_eq escapes quote 1 cs

theorem extent_length_pos {escapes : Bool} {cs : List Char} (h : cs ≠ []) :
    0 < (extent escapes cs).length := by
  cases cs with
  | nil => exact absurd rfl h
  | cons c cs =>
    rw [extent_cons]
    show 0 < 1 + _
    omega

end Quoted

/-! ### Text and values without quotes -/

namespace Lexeme

theorem textFrom_eq (n : Nat) (cs : List Char) : textFrom n cs = n + textFrom 0 cs := by
  have key : ∀ (cs : List Char) (n : Nat), textFrom n cs = n + textFrom 0 cs := by
    intro cs
    induction cs with
    | nil => intro n; rfl
    | cons c cs ih =>
      intro n
      rw [textFrom, textFrom]
      split
      · rfl
      · rw [ih (n + 1), ih (0 + 1)]
        omega
  exact key cs n

theorem textFrom_cons (c : Char) (cs : List Char) :
    textFrom 0 (c :: cs)
      = if c == '<' || isBlank c || Delimiter.openBraces.isPrefixOf (c :: cs) then 0
        else textFrom 0 cs + 1 := by
  rw [textFrom]
  split
  · rfl
  · rw [textFrom_eq]
    omega

theorem bareValueFrom_eq (n : Nat) (cs : List Char) :
    bareValueFrom n cs = n + bareValueFrom 0 cs := by
  have key : ∀ (cs : List Char) (n : Nat), bareValueFrom n cs = n + bareValueFrom 0 cs := by
    intro cs
    induction cs with
    | nil => intro n; rfl
    | cons c cs ih =>
      intro n
      rw [bareValueFrom, bareValueFrom]
      split
      · rfl
      · rw [ih (n + 1), ih (0 + 1)]
        omega
  exact key cs n

theorem bareValueFrom_cons (c : Char) (cs : List Char) :
    bareValueFrom 0 (c :: cs)
      = if isBlank c || c == '>' || Delimiter.selfClose.isPrefixOf (c :: cs) then 0
        else bareValueFrom 0 cs + 1 := by
  rw [bareValueFrom]
  split
  · rfl
  · rw [bareValueFrom_eq]
    omega

end Lexeme

/-! ### Front-matter code

An item skips any number of characters, so these inductions are on a bound of the length. -/

namespace FrontMatter

theorem itemsFrom_eq (n : Nat) (before : Option Char) (cs : List Char) :
    itemsFrom n before cs = n + itemsFrom 0 before cs := by
  -- an item skips any number of characters, so the induction is on a bound of the length
  have key : ∀ (size : Nat) (cs : List Char) (n : Nat) (before : Option Char), cs.length ≤ size →
      itemsFrom n before cs = n + itemsFrom 0 before cs := by
    intro size
    induction size with
    | zero =>
      intro cs n before hsize
      obtain rfl : cs = [] := List.length_eq_zero_iff.mp (by omega)
      rw [itemsFrom, itemsFrom, Nat.add_zero]
    | succ size ih =>
      intro cs n before hsize
      cases cs with
      | nil => rw [itemsFrom, itemsFrom, Nat.add_zero]
      | cons c cs =>
        rw [List.length_cons] at hsize
        rw [itemsFrom, itemsFrom]
        split
        · rfl
        · have hdrop : (cs.drop (itemTail before c cs)).length ≤ size := by
            rw [List.length_drop]
            omega
          rw [ih _ (n + 1 + itemTail before c cs) _ hdrop,
            ih _ (0 + 1 + itemTail before c cs) _ hdrop]
          omega
  exact key cs.length cs n before (Nat.le_refl _)

theorem itemsFrom_cons (before : Option Char) (c : Char) (cs : List Char) :
    itemsFrom 0 before (c :: cs)
      = if Delimiter.fence.isPrefixOf (c :: cs) then 0
        else 1 + itemTail before c cs
          + itemsFrom 0 ((c :: cs)[itemTail before c cs]?) (cs.drop (itemTail before c cs)) := by
  rw [itemsFrom]
  split
  · rfl
  · rw [itemsFrom_eq]

/-- What may belong to the code, `reach`, starts like the text ahead. -/
theorem reach_leads (cs : List Char) : reach cs <+: cs := by
  unfold reach
  split
  · exact List.take_prefix _ cs
  · exact List.prefix_rfl

theorem reach_ne_nil {cs : List Char} (h : cs ≠ []) : reach cs ≠ [] := by
  unfold reach
  split
  · cases cs with
    | nil => exact absurd rfl h
    | cons c cs => simp
  · exact h

/-- Where no fence stands, there is code (`codeLength`), of one character at least. -/
theorem codeLength_pos {before : Option Char} {cs : List Char} (hcs : cs ≠ [])
    (hfence : ¬ Delimiter.fence.isPrefixOf cs = true) : 0 < codeLength before cs := by
  have hleads := reach_leads cs
  have hnonempty := reach_ne_nil hcs
  rw [codeLength]
  cases hreach : reach cs with
  | nil => exact absurd hreach hnonempty
  | cons c inside =>
    rw [hreach] at hleads
    have hno : ¬ Delimiter.fence.isPrefixOf (c :: inside) = true := by
      intro h
      have h' := (List.isPrefixOf_iff_prefix.mp h).trans hleads
      exact hfence (List.isPrefixOf_iff_prefix.mpr h')
    have htail := itemsFrom_cons before c inside
    rw [if_neg hno] at htail
    omega

end FrontMatter

end RsxInspect
