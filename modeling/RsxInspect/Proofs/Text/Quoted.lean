import RsxInspect.Proofs.Text.Measure

/-!
# Quoted literals that are closed

Two ways to see whether a literal is closed agree. One reads it from its opening quote and stops at
the first quote that is not protected (`Quoted.extent`); the other looks at its end, where the quote
has an even number of backslashes before it (`Quoted.terminated`, by `trailingBackslashes`). A
literal that closes at its end is terminated (`terminated_of_body`), and a terminated literal that
is read as a whole is closed (`closed_of_terminated`).
-/

namespace RsxInspect.Quoted

/-- A backslash and the character that it protects do not change whether a quote behind them is
protected: the parity of `trailingBackslashes` is the same. -/
theorem trailingBackslashes_escape (d : Char) (cs : List Char) :
    trailingBackslashes ('\\' :: d :: cs) % 2 = trailingBackslashes cs % 2 := by
  unfold trailingBackslashes Text.countWhile
  rw [List.reverse_cons, List.reverse_cons, List.append_assoc, List.takeWhile_append]
  split
  · rename_i hall
    rw [List.length_append, ← hall]
    by_cases hd : (d == '\\') = true
    · have hboth : ([d] ++ ['\\']).takeWhile (· == '\\') = [d, '\\'] := by
        rw [beq_iff_eq.mp hd]
        rfl
      rw [hboth]
      show (_ + 2) % 2 = _
      omega
    · have hnone : ([d] ++ ['\\']).takeWhile (· == '\\') = [] :=
        List.takeWhile_cons_of_neg hd
      rw [hnone]
      rfl
  · rfl

theorem trailingBackslashes_cons {c : Char} (hc : ¬ (c == '\\') = true) (cs : List Char) :
    trailingBackslashes (c :: cs) = trailingBackslashes cs := by
  unfold trailingBackslashes Text.countWhile
  rw [List.reverse_cons, List.takeWhile_append]
  split
  · rename_i hall
    have hnone : [c].takeWhile (· == '\\') = [] := List.takeWhile_cons_of_neg hc
    rw [List.length_append, ← hall, hnone]
    rfl
  · rfl

theorem getLast?_cons_of_some {α : Type} {x y : α} {xs : List α} (h : xs.getLast? = some y) :
    (x :: xs).getLast? = some y ∧ (x :: xs).dropLast = x :: xs.dropLast := by
  cases xs with
  | nil => cases h
  | cons z zs => exact ⟨h, rfl⟩

/-- A literal that closes at its end is `terminated`, by induction on the recursion of
`bodyFrom`. -/
theorem terminated_of_bodyFrom {quote : Char} {n : Nat} {cs : List Char}
    (h : bodyFrom true quote n cs = ⟨n + cs.length, true⟩) :
    cs.getLast? = some quote ∧ trailingBackslashes cs.dropLast % 2 = 0 := by
  -- by the recursion of `bodyFrom`; `h` says that nothing stands behind the closing quote
  induction n, cs using bodyFrom.induct true quote with
  | case1 n => cases h
  | case2 n c cs hquote =>
    rw [bodyFrom_cons, if_pos hquote, List.length_cons] at h
    have hlength := congrArg Extent.length h
    obtain rfl : cs = [] := List.length_eq_zero_iff.mp (by simp only at hlength; omega)
    rw [beq_iff_eq.mp hquote]
    exact ⟨rfl, rfl⟩
  | case3 n c hquote hescape =>
    rw [bodyFrom_cons, if_neg hquote, if_pos hescape] at h
    cases h
  | case4 n c hquote hescape d cs ih =>
    rw [bodyFrom_cons, if_neg hquote, if_pos hescape] at h
    -- an escape takes two characters and keeps the parity of the backslashes
    have hbehind : bodyFrom true quote (n + 2) cs = ⟨n + 2 + cs.length, true⟩ := by
      refine h.trans ?_
      rw [List.length_cons, List.length_cons, Nat.add_right_comm n, Nat.add_assoc n]
    obtain ⟨hlast, heven⟩ := ih hbehind
    obtain ⟨hlast, hdrop⟩ := getLast?_cons_of_some (x := d) hlast
    obtain ⟨hlast, hdrop'⟩ := getLast?_cons_of_some (x := c) hlast
    have hc : c = '\\' := by simpa using hescape
    rw [hdrop', hdrop, hc, trailingBackslashes_escape]
    exact ⟨hc ▸ hlast, heven⟩
  | case5 n c cs hquote hescape ih =>
    rw [bodyFrom_cons, if_neg hquote, if_neg hescape] at h
    have hbehind : bodyFrom true quote (n + 1) cs = ⟨n + 1 + cs.length, true⟩ := by
      refine h.trans ?_
      rw [List.length_cons, Nat.add_right_comm n, Nat.add_assoc n]
    obtain ⟨hlast, heven⟩ := ih hbehind
    obtain ⟨hlast, hdrop⟩ := getLast?_cons_of_some (x := c) hlast
    rw [hdrop, trailingBackslashes_cons (by simpa using hescape)]
    exact ⟨hlast, heven⟩

theorem terminated_of_body {quote : Char} {cs : List Char}
    (h : body true quote cs = ⟨cs.length, true⟩) : terminated true (quote :: cs) = true := by
  have hbody : bodyFrom true quote 0 cs = ⟨0 + cs.length, true⟩ := by
    rw [Nat.zero_add]
    exact h
  obtain ⟨hlast, heven⟩ := terminated_of_bodyFrom hbody
  rw [terminated, hlast, heven]
  simp

/-- A literal that is not closed up to its end is not `terminated`, by the same induction. -/
theorem not_terminated_of_bodyFrom {escapes : Bool} {quote : Char} {n : Nat} {cs : List Char}
    (h : (bodyFrom escapes quote n cs).closed = false) :
    ¬ (cs.getLast? = some quote ∧
      (escapes = true → trailingBackslashes cs.dropLast % 2 = 0)) := by
  induction n, cs using bodyFrom.induct escapes quote with
  | case1 n => exact fun hends => nomatch hends.1
  | case2 n c cs hquote =>
    rw [bodyFrom_cons, if_pos hquote] at h
    cases h
  | case3 n c hquote hescape =>
    rintro ⟨hlast, -⟩
    exact hquote (beq_iff_eq.mpr (Option.some.inj hlast))
  | case4 n c hquote hescape d cs ih =>
    rw [bodyFrom_cons, if_neg hquote, if_pos hescape] at h
    obtain ⟨hescapes, hc⟩ := Bool.and_eq_true_iff.mp hescape
    rw [beq_iff_eq.mp hc]
    rintro ⟨hlast, heven⟩
    cases cs with
    | nil =>
      -- the last character is protected
      have hodd : trailingBackslashes ['\\'] % 2 = 0 := heven hescapes
      exact absurd hodd (by decide)
    | cons e cs =>
      refine ih h ⟨hlast, fun hescapes => ?_⟩
      rw [← trailingBackslashes_escape d]
      exact heven hescapes
  | case5 n c cs hquote hescape ih =>
    rw [bodyFrom_cons, if_neg hquote, if_neg hescape] at h
    rintro ⟨hlast, heven⟩
    cases cs with
    | nil => exact hquote (beq_iff_eq.mpr (Option.some.inj hlast))
    | cons e cs =>
      refine ih h ⟨hlast, fun hescapes => ?_⟩
      have hc : ¬ (c == '\\') = true := by
        rw [hescapes, Bool.true_and] at hescape
        exact hescape
      rw [← trailingBackslashes_cons hc]
      exact heven hescapes

/-- A literal that is read as a whole (`extent`) and is `terminated` is closed. -/
theorem closed_of_terminated {escapes : Bool} {cs : List Char}
    (hwhole : (extent escapes cs).length = cs.length) (h : terminated escapes cs = true) :
    extent escapes cs = ⟨cs.length, true⟩ := by
  cases cs with
  | nil => cases h
  | cons quote cs =>
    have hclosed : (extent escapes (quote :: cs)).closed = true := by
      by_contra hopen
      rw [terminated, Bool.and_eq_true, beq_iff_eq, Bool.or_eq_true, Bool.not_eq_true',
        beq_iff_eq] at h
      refine not_terminated_of_bodyFrom (Bool.eq_false_iff.mpr hopen) ⟨h.1, fun hescapes => ?_⟩
      rcases h.2 with hplain | heven
      · rw [hescapes] at hplain
        cases hplain
      · exact heven
    rw [← hwhole, ← hclosed]

end RsxInspect.Quoted
