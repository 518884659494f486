import RsxInspect.Proofs.Text.Boundary

/-!
# Slices

A span fits a source if it can be cut out of it: it ends no sooner than it starts, ends inside the
source, and both of its ends are character boundaries (`Span.Fits`). These are the conditions under
which cutting a span out of a string does not fail.

Covering spans that fit gives a span that fits (`Span.Fits.cover`), and so does going from the start
of one to the end of another one that does not lie in front of it (`Span.Fits.upTo`). `Span.AllFit`
says the same of a list, and is put together along the list.
-/

namespace RsxInspect

open String (utf8Len)

/-! ### Boundaries -/

namespace IsBoundary

variable {source : String} {m n : Nat}

theorem le_size (h : IsBoundary source n) : n ≤ source.utf8ByteSize := by
  obtain ⟨k, rfl⟩ := isBoundary_iff.mp h
  rw [← String.utf8Len_toList]
  exact utf8Len_take_le _ k

theorem zero (source : String) : IsBoundary source 0 := isBoundary_iff.mpr ⟨0, rfl⟩

theorem size (source : String) : IsBoundary source source.utf8ByteSize :=
  isBoundary_iff.mpr ⟨source.toList.length, by rw [List.take_length, String.utf8Len_toList]⟩

theorem min (hm : IsBoundary source m) (hn : IsBoundary source n) : IsBoundary source (min m n) := by
  rcases Nat.le_total m n with h | h
  · rwa [Nat.min_eq_left h]
  · rwa [Nat.min_eq_right h]

theorem max (hm : IsBoundary source m) (hn : IsBoundary source n) : IsBoundary source (max m n) := by
  rcases Nat.le_total m n with h | h
  · rwa [Nat.max_eq_right h]
  · rwa [Nat.max_eq_left h]

end IsBoundary

/-! ### Spans that fit -/

namespace Span

/-- The span can be cut out of the source: it is in order, ends inside, and starts and stops at an
`IsBoundary`. -/
structure Fits (source : String) (s : Span) : Prop where
  le : s.start ≤ s.stop
  stop_le : s.stop ≤ source.utf8ByteSize
  start : IsBoundary source s.start
  stop : IsBoundary source s.stop

namespace Fits

variable {source : String} {s t : Span} {a b : Nat}

theorem of_boundaries (ha : IsBoundary source a) (hb : IsBoundary source b) (hle : a ≤ b) :
    (Span.mk a b).Fits source := ⟨hle, hb.le_size, ha, hb⟩

theorem point (h : IsBoundary source a) : (Span.point a).Fits source :=
  of_boundaries h h (Nat.le_refl a)

theorem cover (hs : s.Fits source) (ht : t.Fits source) : (s.cover t).Fits source := by
  refine of_boundaries (hs.start.min ht.start) (hs.stop.max ht.stop) ?_
  exact Nat.le_trans (Nat.min_le_left _ _) (Nat.le_trans hs.le (Nat.le_max_left _ _))

/-- From the start of one span to the end of another one. -/
theorem upTo (hs : s.Fits source) (ht : t.Fits source) (hle : s.start ≤ t.stop) :
    (Span.mk s.start t.stop).Fits source := of_boundaries hs.start ht.stop hle

/-- What stands between the ends of a beginning and of a longer beginning of the source. -/
theorem of_split {before inside behind : List Char}
    (h : source.toList = before ++ inside ++ behind) :
    (Span.mk (utf8Len before) (utf8Len (before ++ inside))).Fits source := by
  have hbefore : source.toList = before ++ (inside ++ behind) := by rw [h, List.append_assoc]
  refine of_boundaries (isBoundary_of_split hbefore) (isBoundary_of_split h) ?_
  rw [String.utf8Len_append]
  exact Nat.le_add_right _ _

/-- A span that fits (`Fits`) has some characters of the source as its text, which split the source
in three. -/
theorem exists_split (h : s.Fits source) : ∃ before inside behind,
    source.toList = before ++ inside ++ behind ∧ s = ⟨utf8Len before, utf8Len (before ++ inside)⟩ ∧
      s.text source = String.ofList inside := by
  obtain ⟨start, stop⟩ := s
  obtain ⟨j, hstart⟩ : ∃ j, start = utf8Len (source.toList.take j) := isBoundary_iff.mp h.start
  obtain ⟨k, hstop⟩ : ∃ k, stop = utf8Len (source.toList.take k) := isBoundary_iff.mp h.stop
  -- a start that is counted further than the end is the same place
  obtain ⟨i, hik, hi⟩ : ∃ i ≤ k, start = utf8Len (source.toList.take i) := by
    rcases Nat.le_total j k with hjk | hkj
    · exact ⟨j, hjk, hstart⟩
    · have hle : start ≤ stop := h.le
      have hmono := utf8Len_take_mono source.toList hkj
      exact ⟨k, Nat.le_refl k, by omega⟩
  have htake : source.toList.take k = source.toList.take i ++ (source.toList.take k).drop i := by
    conv => lhs; rw [← List.take_append_drop i (source.toList.take k)]
    rw [List.take_take, Nat.min_eq_left hik]
  have hsource : source.toList
      = source.toList.take i ++ (source.toList.take k).drop i ++ source.toList.drop k := by
    rw [← htake, List.take_append_drop]
  have htext := text_of_split _ _ _ hsource
  rw [← String.utf8Len_append, ← htake, ← hi, ← hstop] at htext
  exact ⟨_, _, _, hsource, by rw [← htake, ← hi, ← hstop], htext⟩

end Fits

/-- All of the spans `Fits` the source. -/
def AllFit (source : String) (spans : List Span) : Prop := ∀ s ∈ spans, s.Fits source

namespace AllFit

variable {source : String} {s : Span} {xs ys : List Span}

theorem nil : AllFit source [] := fun _ hs => (nomatch hs)

theorem cons (hs : s.Fits source) (h : AllFit source xs) : AllFit source (s :: xs) := by
  intro t ht
  rcases List.mem_cons.mp ht with rfl | ht
  · exact hs
  · exact h t ht

theorem single (hs : s.Fits source) : AllFit source [s] := cons hs nil

theorem append (hx : AllFit source xs) (hy : AllFit source ys) : AllFit source (xs ++ ys) := by
  intro t ht
  exact (List.mem_append.mp ht).elim (hx t) (hy t)

theorem toList {x : Option Span} (h : ∀ s ∈ x, s.Fits source) : AllFit source x.toList := by
  intro t ht
  exact h t (Option.mem_toList.mp ht)

theorem flatMap {α : Type} {as : List α} {f : α → List Span}
    (h : ∀ a ∈ as, AllFit source (f a)) : AllFit source (as.flatMap f) := by
  intro t ht
  obtain ⟨a, ha, ht⟩ := List.mem_flatMap.mp ht
  exact h a ha t ht

end AllFit

end Span

end RsxInspect
