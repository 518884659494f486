import RsxInspect.Proofs.Lexeme.Progress
import RsxInspect.Proofs.Lexeme.Transition
import RsxInspect.Proofs.Scan.Place

/-!
# Tokens tile the window

Calling `next` again and again on a range of a source gives tokens that follow one another without
gap or overlap and end at character boundaries inside the window (`Scanner.Tiles`). The scan gets to
the end of the window unless it comes to a `$` inside a tag, where it stands still for ever
(`AtDollar`).

The invariant is `InWindow`: the scanner stands behind some characters of the source and sees the
rest of its window. One step keeps it (`InWindow.next`), hence a whole run (`InWindow.after`). What
a step reads is the span that it moves over (`span_next`), so spans without gaps come for free; the
progress is in `offset_next_eq_iff`, and the bound on the number of calls in `offset_after_ge`.
-/

namespace RsxInspect

open String (utf8Len)

namespace Scanner

/-- The scanner stands in the window of `source` that ends at offset `stop`: its cursor splits the
window into what is behind and what is ahead. -/
def InWindow (source : String) (stop : Nat) (s : Scanner) : Prop :=
  ∃ done rest beyond, source.toList = done ++ rest ++ beyond ∧
    utf8Len done + utf8Len rest = stop ∧ s = behind done rest s.state

/-- The scanner stands in front of a `$` inside a tag, before the end `stop` of its window. There it
reads an empty name and does not move. -/
def AtDollar (source : String) (stop : Nat) (s : Scanner) : Prop :=
  (s.state.mode = .tagOpen ∨ s.state.mode = .tagClose) ∧ s.offset < stop ∧
    String.Pos.Raw.get? source ⟨s.offset⟩ = some '$'

theorem inWindow_ofRange (source : String) (start stop : Nat) (state : LexState) :
    (ofRange source start stop state).InWindow source (Cursor.windowEnd source stop) := by
  obtain ⟨done, rest, beyond, hsource, hcursor, -, hstop⟩ :=
    Cursor.ofRange_eq_behind source start stop
  refine ⟨done, rest, beyond, hsource, hstop, ?_⟩
  rw [ofRange, hcursor]
  rfl

/-- The window of a whole file (`InWindow`) ends where the file does. -/
theorem inWindow_ofSource (source : String) :
    (ofSource source).InWindow source source.utf8ByteSize := by
  rw [ofSource_eq_behind]
  refine ⟨[], source.toList, [], ?_, ?_, rfl⟩
  · simp
  · rw [String.utf8Len_nil, Nat.zero_add, String.utf8Len_toList]

/-! ### One step -/

namespace InWindow

variable {source : String} {stop : Nat} {s : Scanner}

theorem offset_le (h : s.InWindow source stop) : s.offset ≤ stop := by
  obtain ⟨done, rest, -, -, hstop, hs⟩ := h
  rw [hs, behind_offset]
  omega

theorem isBoundary_offset (h : s.InWindow source stop) : IsBoundary source s.offset := by
  obtain ⟨done, rest, beyond, hsource, -, hs⟩ := h
  rw [hs, behind_offset]
  exact isBoundary_of_split (by rw [hsource, List.append_assoc])

/-- Nothing is left to see exactly at the end of the window, since no character is empty. -/
theorem rest_eq_nil_iff (h : s.InWindow source stop) :
    s.cursor.rest = [] ↔ s.offset = stop := by
  obtain ⟨done, rest, beyond, -, hstop, hs⟩ := h
  rw [hs, behind_offset, behind_cursor, Cursor.behind_rest]
  constructor
  · rintro rfl
    rw [← hstop, String.utf8Len_nil, Nat.add_zero]
  · intro hend
    exact String.utf8Len_eq_zero.mp (by omega)

/-- What the cursor sees is what stands at its offset in the source (`String.Pos.Raw.get?`). -/
theorem head?_rest (h : s.InWindow source stop) (hlt : s.offset < stop) :
    s.cursor.rest.head? = String.Pos.Raw.get? source ⟨s.offset⟩ := by
  have hrest : s.cursor.rest ≠ [] := fun hnil => by
    have := h.rest_eq_nil_iff.mp hnil
    omega
  obtain ⟨done, rest, beyond, hsource, -, hs⟩ := h
  rw [hs, behind_cursor, Cursor.behind_rest] at hrest ⊢
  rw [behind_offset]
  have hsource' : source = String.ofList (done ++ (rest ++ beyond)) := by
    rw [← List.append_assoc, ← hsource, String.ofList_toList]
  rw [hsource', String.get?_of_valid]
  cases rest with
  | nil => exact absurd rfl hrest
  | cons c rest => rfl

theorem standsStill_iff (h : s.InWindow source stop) :
    s.AtDollar source stop ↔ StandsStill s.state s.cursor.rest := by
  constructor
  · rintro ⟨hmode, hlt, hdollar⟩
    exact ⟨hmode, by rw [h.head?_rest hlt, hdollar]⟩
  · rintro ⟨hmode, hdollar⟩
    have hne : s.offset ≠ stop := fun heq => by
      rw [h.rest_eq_nil_iff.mpr heq] at hdollar
      simp at hdollar
    have hle := h.offset_le
    have hlt : s.offset < stop := by omega
    exact ⟨hmode, hlt, by rw [← h.head?_rest hlt, hdollar]⟩

theorem next (h : s.InWindow source stop) : s.next.2.InWindow source stop := by
  by_cases hend : s.cursor.rest = []
  · rw [next_of_end hend]
    exact h
  · obtain ⟨done, rest, beyond, hsource, hstop, hs⟩ := h
    rw [hs, behind_cursor, Cursor.behind_rest] at hend
    rw [hs, next_behind hend]
    generalize hx : lex s.state done.getLast? rest = x
    refine ⟨done ++ rest.take x.length, rest.drop x.length, beyond, ?_, ?_, rfl⟩
    · rw [List.append_assoc done, List.take_append_drop]
      exact hsource
    · rw [String.utf8Len_append, Nat.add_assoc, utf8Len_take_add_drop]
      exact hstop

/-- A token spans what the scanner moves over: from its `offset` to that behind the call. -/
theorem span_next (h : s.InWindow source stop) :
    s.next.1.span = ⟨s.offset, s.next.2.offset⟩ := by
  by_cases hend : s.cursor.rest = []
  · rw [next_of_end hend]
    rfl
  · obtain ⟨done, rest, beyond, -, -, hs⟩ := h
    rw [hs, behind_cursor, Cursor.behind_rest] at hend
    rw [hs, next_behind hend]
    rfl

theorem kind_eq_eof_iff (h : s.InWindow source stop) :
    s.next.1.kind = .eof ↔ s.offset = stop := by
  rw [← h.rest_eq_nil_iff]
  constructor
  · intro hkind
    by_contra hend
    obtain ⟨done, rest, beyond, -, -, hs⟩ := h
    rw [hs, behind_cursor, Cursor.behind_rest] at hend
    rw [hs, next_behind hend] at hkind
    exact (lex_transition s.state done.getLast? hend).kind_ne_eof hkind
  · intro hend
    rw [next_of_end hend]

/-- The scanner never moves back, in no mode and at no place. -/
theorem offset_le_next (h : s.InWindow source stop) : s.offset ≤ s.next.2.offset := by
  by_cases hend : s.cursor.rest = []
  · rw [next_of_end hend]
  · obtain ⟨done, rest, beyond, -, -, hs⟩ := h
    rw [hs, behind_cursor, Cursor.behind_rest] at hend
    rw [hs, next_behind hend, behind_offset, behind_offset, String.utf8Len_append]
    exact Nat.le_add_right _ _

/-- Before the end of the window the scanner stays in its place exactly where it stands still
(`AtDollar`): everywhere else the lexeme has a character. -/
theorem offset_next_eq_iff (h : s.InWindow source stop) (hlt : s.offset < stop) :
    s.next.2.offset = s.offset ↔ s.AtDollar source stop := by
  rw [h.standsStill_iff]
  have hend : s.cursor.rest ≠ [] := fun hnil => by
    have := h.rest_eq_nil_iff.mp hnil
    omega
  obtain ⟨done, rest, beyond, -, -, hs⟩ := h
  rw [hs, behind_cursor, Cursor.behind_rest] at hend
  rw [hs, next_behind hend, behind_offset, behind_offset, behind_state, behind_cursor,
    Cursor.behind_rest, ← @lex_length_eq_zero_iff _ done.getLast? _ hend,
    String.utf8Len_append]
  -- standing still is reading a lexeme of no length, as there are characters left
  constructor
  · intro hsame
    have htake : rest.take (lex s.state done.getLast? rest).length = [] :=
      String.utf8Len_eq_zero.mp (by omega)
    rcases List.take_eq_nil_iff.mp htake with hzero | hnil
    · exact hzero
    · exact absurd hnil hend
  · intro hzero
    rw [hzero, List.take_zero, String.utf8Len_nil, Nat.add_zero]

/-- A scanner that does not get on has come to the end of its window, or to a `$` in a tag
(`AtDollar`). -/
theorem rest_eq_nil_or_atDollar (h : s.InWindow source stop)
    (hstays : ¬ s.offset < s.next.2.offset) :
    s.cursor.rest = [] ∨ s.AtDollar source stop := by
  by_cases hend : s.offset = stop
  · exact .inl (h.rest_eq_nil_iff.mpr hend)
  · have hlt : s.offset < stop := Nat.lt_of_le_of_ne h.offset_le hend
    have hsame := Nat.le_antisymm (Nat.not_lt.mp hstays) h.offset_le_next
    exact .inr ((h.offset_next_eq_iff hlt).mp hsame)

/-- Where the scanner stands still (`AtDollar`) it does so for ever: neither the place nor the mode
changes. -/
theorem atDollar_next (h : s.InWindow source stop) (hstill : s.AtDollar source stop) :
    s.next.2.AtDollar source stop := by
  have hoffset := (h.offset_next_eq_iff hstill.2.1).mpr hstill
  obtain ⟨hmode, hlt, hdollar⟩ := hstill
  refine ⟨?_, by rw [hoffset]; exact hlt, by rw [hoffset]; exact hdollar⟩
  have hend : s.cursor.rest ≠ [] := fun hnil => by
    have := h.rest_eq_nil_iff.mp hnil
    omega
  have hsee := h.standsStill_iff.mp ⟨hmode, hlt, hdollar⟩
  obtain ⟨done, rest, beyond, -, -, hs⟩ := h
  rw [hs, behind_cursor, Cursor.behind_rest] at hend
  rw [hs, behind_state, behind_cursor, Cursor.behind_rest] at hsee
  rw [hs, next_behind hend]
  show (lex s.state done.getLast? rest).mode = .tagOpen
    ∨ (lex s.state done.getLast? rest).mode = .tagClose
  rw [(lex_of_standsStill hsee).2]
  exact hmode

/-! ### A whole run -/

theorem after (h : s.InWindow source stop) (k : Nat) : (s.after k).InWindow source stop := by
  induction k with
  | zero => exact h
  | succ k ih => exact ih.next

theorem offset_after_mono (h : s.InWindow source stop) (k j : Nat) :
    (s.after k).offset ≤ (s.after (k + j)).offset := by
  induction j with
  | zero => exact Nat.le_refl _
  | succ j ih => exact Nat.le_trans ih (h.after (k + j)).offset_le_next

theorem atDollar_after (h : s.InWindow source stop) {k : Nat}
    (hstill : (s.after k).AtDollar source stop) (j : Nat) :
    (s.after (k + j)).AtDollar source stop := by
  induction j with
  | zero => exact hstill
  | succ j ih => exact (h.after (k + j)).atDollar_next ih

/-- A scan that never stands still (`AtDollar`) takes at least one byte with each call, so it is at
the end after as many calls as there are bytes. -/
theorem offset_after_ge (h : s.InWindow source stop)
    (hnever : ∀ k, ¬ (s.after k).AtDollar source stop) (k : Nat) :
    min stop (s.offset + k) ≤ (s.after k).offset := by
  induction k with
  | zero => exact Nat.min_le_right _ _
  | succ k ih =>
    have hstep := (h.after k).offset_le_next
    rw [after_succ]
    rcases Nat.lt_or_ge (s.after k).offset stop with hlt | hge
    · have hmove : (s.after k).next.2.offset ≠ (s.after k).offset :=
        fun heq => hnever k (((h.after k).offset_next_eq_iff hlt).mp heq)
      omega
    · omega

end InWindow

/-- What the calls of `next` read on a window from offset `start` to offset `stop`. -/
structure Tiles (source : String) (start stop : Nat) (s : Scanner) : Prop where
  /-- `n` calls read the first `n` tokens. -/
  take_eq : ∀ n, s.take n = (((List.range n).map s.tokenAt).toArray, s.after n)
  /-- The first token starts where the window does. -/
  first : (s.tokenAt 0).span.start = start
  /-- Each token starts where the one before it ended. -/
  adjacent : ∀ k, (s.tokenAt (k + 1)).span.start = (s.tokenAt k).span.stop
  /-- A token starts at the offset of the scanner. -/
  start_eq : ∀ k, (s.tokenAt k).span.start = (s.after k).offset
  ordered : ∀ k, (s.tokenAt k).span.start ≤ (s.tokenAt k).span.stop
  /-- Tokens end at character boundaries of the window. -/
  boundary : ∀ k, IsBoundary source (s.tokenAt k).span.stop
  inside : ∀ k, (s.tokenAt k).span.stop ≤ stop
  /-- The end is read exactly there. -/
  eof_iff : ∀ k, (s.tokenAt k).kind = .eof ↔ (s.after k).offset = stop
  /-- The end is an empty token that repeats, and the state stays as it is. -/
  eof_repeats : ∀ k, (s.tokenAt k).kind = .eof → (s.tokenAt k).span.isEmpty = true ∧
    s.tokenAt (k + 1) = s.tokenAt k ∧ (s.after (k + 1)).state = (s.after k).state
  /-- Any other token is empty exactly in front of a `$` inside a tag. -/
  empty_iff : ∀ k, (s.tokenAt k).kind ≠ .eof →
    ((s.tokenAt k).span.isEmpty = true ↔ (s.after k).AtDollar source stop)
  /-- The end is reached exactly if the scan never comes to such a place. -/
  reaches_iff : (∃ k, (s.tokenAt k).kind = .eof) ↔ ∀ k, ¬ (s.after k).AtDollar source stop
  /-- Then it is reached within one call for each byte, and one more. -/
  reaches_within : (∃ k, (s.tokenAt k).kind = .eof) →
    ∃ k < stop - start + 1, (s.tokenAt k).kind = .eof

/-- **Tiling and progress.** On any range of any source and from any state, the tokens tile the
window, and the scan reaches its end unless it comes to a `$` inside a tag. -/
theorem tiles_ofRange (source : String) (start stop : Nat) (state : LexState) :
    (ofRange source start stop state).Tiles source (Cursor.windowStart source start stop)
      (Cursor.windowEnd source stop) := by
  have hstart : (ofRange source start stop state).offset = Cursor.windowStart source start stop := by
    obtain ⟨done, rest, -, -, hcursor, hdone, -⟩ := Cursor.ofRange_eq_behind source start stop
    rw [ofRange, offset, hcursor, Cursor.behind_position, hdone]
  have hwindow := inWindow_ofRange source start stop state
  generalize ofRange source start stop state = s at hstart hwindow
  generalize Cursor.windowEnd source stop = e at hwindow ⊢
  have hspan : ∀ k, (s.tokenAt k).span = ⟨(s.after k).offset, (s.after (k + 1)).offset⟩ :=
    fun k => (hwindow.after k).span_next
  -- `eof` is the token at the end of the window, and the end is where the scanner stays
  have heof : ∀ k, (s.tokenAt k).kind = .eof ↔ (s.after k).offset = e :=
    fun k => (hwindow.after k).kind_eq_eof_iff
  have hstays : ∀ k, (s.tokenAt k).kind = .eof → s.after (k + 1) = s.after k := by
    intro k hk
    have hend := (hwindow.after k).rest_eq_nil_iff.mpr ((heof k).mp hk)
    rw [after_succ, next_of_end hend]
  -- without a `$` each call moves, so the window is used up after as many calls as it is long
  have hreach : (∀ k, ¬ (s.after k).AtDollar source e) →
      ∃ k < e - Cursor.windowStart source start stop + 1, (s.tokenAt k).kind = .eof := by
    intro hnever
    refine ⟨e - s.offset, by rw [hstart]; omega, (heof _).mpr ?_⟩
    have hge := hwindow.offset_after_ge hnever (e - s.offset)
    have hle := (hwindow.after (e - s.offset)).offset_le
    have hfirst := hwindow.offset_le
    omega
  have hnever : (∃ k, (s.tokenAt k).kind = .eof) → ∀ k, ¬ (s.after k).AtDollar source e := by
    -- before the end the scanner would stay at the `$`, and at the end there is none
    rintro ⟨k, hk⟩ j hstill
    have hk := (heof k).mp hk
    rcases Nat.le_total j k with hjk | hkj
    · obtain ⟨d, rfl⟩ := Nat.exists_eq_add_of_le hjk
      have := (hwindow.atDollar_after hstill d).2.1
      omega
    · obtain ⟨d, rfl⟩ := Nat.exists_eq_add_of_le hkj
      have hmono := hwindow.offset_after_mono k d
      have := hstill.2.1
      omega
  exact {
    take_eq := s.take_eq
    first := by rw [hspan]; exact hstart
    adjacent := fun k => by rw [hspan, hspan]
    start_eq := fun k => by rw [hspan]
    ordered := fun k => by rw [hspan]; exact (hwindow.after k).offset_le_next
    boundary := fun k => by rw [hspan]; exact (hwindow.after (k + 1)).isBoundary_offset
    inside := fun k => by rw [hspan]; exact (hwindow.after (k + 1)).offset_le
    eof_iff := heof
    eof_repeats := fun k hk => by
      rw [Span.isEmpty_iff, hspan, tokenAt, tokenAt, hstays k hk]
      exact ⟨rfl, rfl, rfl⟩
    empty_iff := fun k hk => by
      have hlt : (s.after k).offset < e :=
        Nat.lt_of_le_of_ne (hwindow.after k).offset_le fun heq => hk ((heof k).mpr heq)
      rw [Span.isEmpty_iff, hspan, ← (hwindow.after k).offset_next_eq_iff hlt]
      exact eq_comm
    reaches_iff := ⟨hnever, fun h => by
      obtain ⟨k, -, hk⟩ := hreach h
      exact ⟨k, hk⟩⟩
    reaches_within := fun h => hreach (hnever h) }

end Scanner

end RsxInspect
