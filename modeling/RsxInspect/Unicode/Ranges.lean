/-!
# Code point ranges

A property of characters is given by the ascending list of the code point ranges that have it.
`inRanges` looks a code point up; `inRanges_iff` says that it finds exactly the members of the
ranges when these ascend.
-/

namespace RsxInspect.Unicode

/-- Whether `n` lies in one of the ranges. The ranges ascend, so the search ends at the first one
that starts beyond `n`. -/
def inRanges (n : Nat) : List (Nat × Nat) → Bool
  | [] => false
  | (lo, hi) :: ranges => lo ≤ n && (n ≤ hi || inRanges n ranges)

/-- Ranges ascend: each starts no later than it ends, and after every earlier one starts. -/
def Ascending (ranges : List (Nat × Nat)) : Prop :=
  ranges.Pairwise fun a b => a.1 ≤ b.1

theorem inRanges_iff {n : Nat} {ranges : List (Nat × Nat)} (h : Ascending ranges) :
    inRanges n ranges = true ↔ ∃ r ∈ ranges, r.1 ≤ n ∧ n ≤ r.2 := by
  induction ranges with
  | nil => simp [inRanges]
  | cons r ranges ih =>
    obtain ⟨lo, hi⟩ := r
    have hrest : Ascending ranges := List.Pairwise.of_cons h
    have hle : ∀ r ∈ ranges, lo ≤ r.1 := fun r hr => List.rel_of_pairwise_cons h hr
    simp only [inRanges, Bool.and_eq_true, Bool.or_eq_true, decide_eq_true_eq, ih hrest,
      List.mem_cons, exists_eq_or_imp]
    constructor
    · rintro ⟨hlo, hhi | h⟩
      · exact .inl ⟨hlo, hhi⟩
      · exact .inr h
    · rintro (⟨hlo, hhi⟩ | ⟨r, hr, h1, h2⟩)
      · exact ⟨hlo, .inl hhi⟩
      · exact ⟨Nat.le_trans (hle r hr) h1, .inr ⟨r, hr, h1, h2⟩⟩

end RsxInspect.Unicode
