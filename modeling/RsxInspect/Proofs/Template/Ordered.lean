import RsxInspect.Proofs.Template.Grouping

/-!
# Spans in order

`Span.Ordered` is `Spaced` without the source: the spans follow each other between two offsets, and
anything may stand between them. It is what a node says of the nodes in it.

Lists of spans are put together with `append_iff` and `push`, and thinned out with `sublist`. A
group of tokens in a row can be put in as one span (`Spaced.group`), which is how the span of a
piece or a section comes from those of its tokens.
-/

namespace RsxInspect

namespace Span

/-- The spans follow each other between two offsets, and none of them is empty. Each one starts at
the offset or behind it and is the offset of the next. -/
def Ordered : Nat → List Span → Nat → Prop
  | a, [], b => a ≤ b
  | a, s :: spans, b => a ≤ s.start ∧ s.start < s.stop ∧ Ordered s.stop spans b

/-- What starts and stops first is covered together with the other (`Span.cover`) from its start to
the stop of the other. -/
theorem cover_eq {s t : Span} (hstart : s.start ≤ t.start) (hstop : s.stop ≤ t.stop) :
    s.cover t = ⟨s.start, t.stop⟩ := by
  rw [cover, Nat.min_eq_left hstart, Nat.max_eq_right hstop]

namespace Ordered

variable {a b c : Nat} {s : Span} {xs ys : List Span}

theorem append_iff : Ordered a (xs ++ ys) c ↔ ∃ b, Ordered a xs b ∧ Ordered b ys c := by
  induction xs generalizing a with
  | nil =>
    constructor
    · intro h
      exact ⟨a, Nat.le_refl a, h⟩
    · rintro ⟨b, hab, h⟩
      cases ys with
      | nil => exact Nat.le_trans hab h
      | cons y ys => exact ⟨Nat.le_trans hab h.1, h.2⟩
  | cons x xs ih =>
    constructor
    · rintro ⟨hx, hnonempty, hrest⟩
      obtain ⟨b, hxs, hys⟩ := ih.mp hrest
      exact ⟨b, ⟨hx, hnonempty, hxs⟩, hys⟩
    · rintro ⟨b, ⟨hx, hnonempty, hxs⟩, hys⟩
      exact ⟨hx, hnonempty, ih.mpr ⟨b, hxs, hys⟩⟩

theorem tokens_append_iff {ts us : List Token} :
    Ordered a ((ts ++ us).map Token.span) c ↔
      ∃ b, Ordered a (ts.map Token.span) b ∧ Ordered b (us.map Token.span) c := by
  rw [List.map_append]
  exact append_iff

theorem le (h : Ordered a xs b) : a ≤ b := by
  induction xs generalizing a with
  | nil => exact h
  | cons x xs ih => exact Nat.le_trans h.1 (Nat.le_trans (Nat.le_of_lt h.2.1) (ih h.2.2))

theorem mono (h : Ordered a xs b) (hb : b ≤ c) : Ordered a xs c := by
  rw [← List.append_nil xs]
  exact append_iff.mpr ⟨b, h, hb⟩

theorem mono_left (h : Ordered b xs c) (ha : a ≤ b) : Ordered a xs c :=
  (append_iff : Ordered a ([] ++ xs) c ↔ _).mpr ⟨b, ha, h⟩

/-- One more span behind the others, where the last offset was its start. -/
theorem push (h : Ordered a xs s.start) (hs : s.start < s.stop) : Ordered a (xs ++ [s]) s.stop :=
  append_iff.mpr ⟨s.start, h, Nat.le_refl _, hs, Nat.le_refl _⟩

theorem mem (h : Ordered a xs b) (hs : s ∈ xs) : a ≤ s.start ∧ s.start < s.stop ∧ s.stop ≤ b := by
  obtain ⟨before, behind, rfl⟩ := List.append_of_mem hs
  obtain ⟨c, hbefore, hstart, hnonempty, hbehind⟩ := append_iff.mp h
  exact ⟨Nat.le_trans hbefore.le hstart, hnonempty, hbehind.le⟩

/-- Two tokens of an ordered list that share some bytes are the same, by induction on the list:
whatever stands behind the first one shares none with it. -/
theorem eq_of_overlap {ts : List Token} {t u : Token} (h : Ordered a (ts.map Token.span) b)
    (ht : t ∈ ts) (hu : u ∈ ts) (htu : t.span.start < u.span.stop)
    (hut : u.span.start < t.span.stop) : t = u := by
  obtain ⟨before, behind, rfl⟩ := List.append_of_mem ht
  rw [List.map_append, List.map_cons] at h
  obtain ⟨c, hbefore, hstart, -, hbehind⟩ := append_iff.mp h
  rcases List.mem_append.mp hu with hu | hu
  · have := hbefore.mem (List.mem_map_of_mem hu)
    omega
  · rcases List.mem_cons.mp hu with rfl | hu
    · rfl
    · have := hbehind.mem (List.mem_map_of_mem hu)
      omega

theorem sublist (h : Ordered a ys b) (hsub : xs.Sublist ys) : Ordered a xs b := by
  induction hsub generalizing a with
  | slnil => exact h
  | cons y _ ih => exact (ih h.2.2).mono_left (Nat.le_trans h.1 (Nat.le_of_lt h.2.1))
  | cons_cons y _ ih => exact ⟨h.1, h.2.1, ih h.2.2⟩

end Ordered

end Span

namespace Spaced

variable {source : String} {a b : Nat} {spans : List Span}

theorem ordered (h : Spaced source a spans b) : Span.Ordered a spans b := by
  induction h with
  | blank gap => exact gap.le
  | span gap nonempty _ ih => exact ⟨gap.le, nonempty, ih⟩

/-- A token with `k` tokens behind it can be put in as one span, `spanOf`. -/
theorem group {t : Token} {ts : List Token} {k : Nat} (hk : k ≤ ts.length)
    (h : Spaced source a ((t :: ts).map Token.span) b) :
    Spaced source a (spanOf t ts k :: (ts.drop k).map Token.span) b := by
  obtain ⟨first, last, hfirst, hlast, hplace⟩ := place_spanOf t hk
  rw [hplace]
  have hsplit : t :: ts = (t :: ts.take k) ++ ts.drop k := by
    rw [List.cons_append, List.take_append_drop]
  rw [hsplit, List.map_append] at h
  obtain ⟨init, hinit⟩ := List.getLast?_eq_some_iff.mp hlast
  cases init with
  | nil =>
    rw [hinit] at h hfirst
    cases hfirst
    exact h
  | cons u inner =>
    rw [hinit] at h hfirst
    cases hfirst
    rw [List.map_append, List.append_assoc] at h
    exact h.merge

/-- The tokens behind the first one that are put in with it end where the group ends, at `endOf`. -/
theorem ordered_take {t : Token} {ts : List Token} {k : Nat} (hk : k ≤ ts.length)
    (h : Spaced source a ((t :: ts).map Token.span) b) :
    Span.Ordered t.span.stop ((ts.take k).map Token.span) (endOf t ts k) := by
  obtain ⟨first, last, -, hlast, hplace⟩ := place_spanOf t hk
  have hend : endOf t ts k = last.span.stop := (Span.mk.inj hplace).2
  obtain ⟨init, hinit⟩ := List.getLast?_eq_some_iff.mp hlast
  have hsplit : t :: ts = init ++ last :: ts.drop k := by
    rw [List.append_cons, ← hinit, List.cons_append, List.take_append_drop]
  rw [hsplit, List.map_append] at h
  have hupTo : Spaced source a ((t :: ts.take k).map Token.span) last.span.stop := by
    rw [hinit, List.map_append]
    exact h.upTo_last
  rw [hend]
  exact hupTo.ordered.2.2

end Spaced

end RsxInspect
