import RsxInspect.Scanner
import RsxInspect.Proofs.Text.Boundary

/-!
# Places of a scan

Every cursor of a scan stands behind some characters `done` of the source and sees the characters
`rest`: its position and the character behind it follow from `done` (`Cursor.behind`). Moving over
characters takes them from `rest` to `done` (`advance_behind`), and a range of a source starts at
such a place (`ofRange_eq_behind`). `Scanner.next_behind` reads one token in these terms, and
`Scanner.after` is the scanner behind any number of tokens.
-/

namespace RsxInspect

open String (utf8Len)

namespace Cursor

/-- The cursor that has `done` behind it and sees `rest`. -/
def behind (done rest : List Char) : Cursor :=
  ⟨utf8Len done, done.getLast?, rest⟩

@[simp] theorem behind_rest (done rest : List Char) : (behind done rest).rest = rest := rfl

@[simp] theorem behind_before (done rest : List Char) :
    (behind done rest).before = done.getLast? := rfl

@[simp] theorem behind_position (done rest : List Char) :
    (behind done rest).position = utf8Len done := rfl

theorem advance_behind (n : Nat) (done rest : List Char) :
    (behind done rest).advance n = behind (done ++ rest.take n) (rest.drop n) := by
  induction n generalizing done rest with
  | zero => rw [List.take_zero, List.append_nil, List.drop_zero, advance]
  | succ n ih =>
    cases rest with
    | nil => rw [List.take_nil, List.append_nil, List.drop_nil]; rfl
    | cons c rest =>
      have hstep : (⟨(behind done (c :: rest)).position + c.utf8Size, some c, rest⟩ : Cursor)
          = behind (done ++ [c]) rest := by
        simp [behind]
      show advance ⟨(behind done (c :: rest)).position + c.utf8Size, some c, rest⟩ n = _
      rw [hstep, ih, List.take_succ_cons, List.drop_succ_cons, List.append_assoc]
      rfl

/-- The end of the window of a range: the end of the source, or the boundary that the range is cut
to. -/
def windowEnd (source : String) (stop : Nat) : Nat :=
  floorBoundary source (min stop source.utf8ByteSize)

/-- The start of a range in its window, cut to a boundary as well. -/
def windowStart (source : String) (start stop : Nat) : Nat :=
  floorBoundary source (min start (windowEnd source stop))

theorem windowEnd_eq (source : String) (stop : Nat) :
    windowEnd source stop = floorBoundary source stop := floorBoundary_min_size source stop

/-- A range starts and ends at character boundaries of the source, so a scanner of it stands
`behind` some characters. -/
theorem ofRange_eq_behind (source : String) (start stop : Nat) :
    ∃ done rest beyond, source.toList = done ++ rest ++ beyond ∧
      ofRange source start stop = behind done rest ∧
      utf8Len done = windowStart source start stop ∧
      utf8Len done + utf8Len rest = windowEnd source stop := by
  let ahead := source.toList
  let window := ahead.take (Text.fitting stop ahead)
  have hsize : utf8Len window = windowEnd source stop := by
    rw [windowEnd_eq]
    exact utf8Len_take_fitting source stop
  refine ⟨window.take (Text.fitting start window), window.drop (Text.fitting start window),
    ahead.drop (Text.fitting stop ahead), ?_, ?_, ?_, ?_⟩
  · rw [List.take_append_drop, List.take_append_drop]
  · exact advance_behind (Text.fitting start window) [] window
  · refine eq_floorBoundary ?_ ?_ ?_
    · have hsplit : ahead = window.take (Text.fitting start window)
          ++ (window.drop (Text.fitting start window) ++ ahead.drop (Text.fitting stop ahead)) := by
        rw [← List.append_assoc, List.take_append_drop, List.take_append_drop]
      exact isBoundary_of_split hsplit
    · refine Nat.le_min.mpr ⟨Text.utf8Len_take_fitting_le start window, ?_⟩
      rw [← hsize]
      exact utf8Len_take_le window _
    · intro k hk hle
      obtain ⟨j, rfl⟩ := isBoundary_iff.mp hk
      obtain ⟨hstart, hwindow⟩ := Nat.le_min.mp hle
      -- a boundary inside the window is the size of a beginning of the window
      have hinside : ahead.take j = window.take j ∨ utf8Len window ≤ utf8Len (ahead.take j) := by
        rcases Nat.le_total j (Text.fitting stop ahead) with hj | hj
        · left
          rw [List.take_take, Nat.min_eq_left hj]
        · right
          exact utf8Len_take_mono ahead hj
      rcases hinside with hsame | hbig
      · have hstart' : utf8Len (window.take j) ≤ start := hsame ▸ hstart
        show utf8Len (ahead.take j) ≤ _
        rw [hsame]
        exact Text.utf8Len_take_le_of_le hstart'
      · have hwhole : utf8Len window ≤ start := Nat.le_trans hbig hstart
        rw [Text.take_fitting_of_le hwhole, hsize]
        exact hwindow
  · rw [utf8Len_take_add_drop, hsize]

/-- A range (`Cursor.ofRange`) between the sizes of two beginnings of the source sees just what is
between them. -/
theorem ofRange_of_split {source : String} (done rest beyond : List Char)
    (h : source.toList = done ++ rest ++ beyond) :
    ofRange source (utf8Len done) (utf8Len (done ++ rest)) = behind done rest := by
  have hwindow : source.toList.take (Text.fitting (utf8Len (done ++ rest)) source.toList)
      = done ++ rest := by
    rw [h]
    exact Text.fitting_of_split (done ++ rest) beyond
  have hdone := Text.fitting_of_split done rest
  have hrest : (done ++ rest).drop (Text.fitting (utf8Len done) (done ++ rest)) = rest := by
    have hsplit := List.take_append_drop (Text.fitting (utf8Len done) (done ++ rest)) (done ++ rest)
    rw [hdone] at hsplit
    exact List.append_cancel_left hsplit
  show advance (behind [] (source.toList.take _)) (Text.fitting _ (source.toList.take _)) = _
  rw [hwindow, advance_behind, hdone, hrest, List.nil_append]

end Cursor

namespace Scanner

/-- The scanner in state `state` that has `done` behind it and sees `rest`. -/
def behind (done rest : List Char) (state : LexState) : Scanner :=
  ⟨Cursor.behind done rest, state⟩

@[simp] theorem behind_offset (done rest : List Char) (state : LexState) :
    (behind done rest state).offset = utf8Len done := rfl

@[simp] theorem behind_state (done rest : List Char) (state : LexState) :
    (behind done rest state).state = state := rfl

@[simp] theorem behind_cursor (done rest : List Char) (state : LexState) :
    (behind done rest state).cursor = Cursor.behind done rest := rfl

theorem ofSource_eq_behind (source : String) :
    ofSource source = behind [] source.toList .initial := by
  have h := Cursor.ofRange_of_split [] source.toList [] (by rw [List.nil_append, List.append_nil])
  rw [String.utf8Len_nil, List.nil_append, String.utf8Len_toList] at h
  rw [ofSource, ofRange, h, behind]

/-- At the end of the window the next token is `eof`, and the scanner stays where it is. -/
theorem next_of_end {s : Scanner} (h : s.cursor.rest = []) :
    s.next = (⟨.eof, Span.point s.offset⟩, s) := by
  rw [next, h]

/-- Something is ahead of a scanner that gets on, since at the end it stays (`next_of_end`). -/
theorem rest_ne_nil_of_moves {s : Scanner} (h : s.offset < s.next.2.offset) :
    s.cursor.rest ≠ [] := by
  intro hend
  rw [next_of_end hend] at h
  exact Nat.lt_irrefl _ h

/-- Elsewhere the next token is the lexeme ahead, `lex`, and the scanner moves over its
characters. -/
theorem next_behind {done rest : List Char} {state : LexState} (h : rest ≠ []) :
    (behind done rest state).next =
      let x := lex state done.getLast? rest
      (⟨x.kind, ⟨utf8Len done, utf8Len (done ++ rest.take x.length)⟩⟩,
        behind (done ++ rest.take x.length) (rest.drop x.length) (stateAfter state x)) := by
  cases rest with
  | nil => exact absurd rfl h
  | cons c cs =>
    simp only [next, behind_cursor, behind_state, behind_offset, Cursor.behind_rest,
      Cursor.behind_before, Cursor.advance_behind]
    rfl

/-- The scanner behind the next `k` tokens. -/
def after (s : Scanner) : Nat → Scanner
  | 0 => s
  | k + 1 => (s.after k).next.2

/-- The token that call `k` of `next` reads, counted from 0. -/
def tokenAt (s : Scanner) (k : Nat) : Token := (s.after k).next.1

theorem after_succ (s : Scanner) (k : Nat) : s.after (k + 1) = (s.after k).next.2 := rfl

theorem after_next (s : Scanner) (k : Nat) : s.next.2.after k = s.after (k + 1) := by
  induction k with
  | zero => rfl
  | succ k ih => rw [after_succ, ih, ← after_succ]

/-- `take` reads the tokens of the calls one after the other, each of them a `tokenAt`. -/
theorem take_eq (s : Scanner) (n : Nat) :
    s.take n = (((List.range n).map s.tokenAt).toArray, s.after n) := by
  -- over any array of tokens taken already, since the loop pushes onto it
  have key : ∀ (n : Nat) (done : Array Token) (s : Scanner),
      takeFrom done n s = (done ++ ((List.range n).map s.tokenAt).toArray, s.after n) := by
    intro n
    induction n with
    | zero => intro done s; simp [takeFrom, after]
    | succ n ih =>
      intro done s
      have hshift : (fun k => s.next.2.tokenAt k) = fun k => s.tokenAt (k + 1) := by
        funext k
        rw [tokenAt, after_next, tokenAt]
      have hmap : (List.range n).map s.next.2.tokenAt
          = (List.range n).map (s.tokenAt ∘ Nat.succ) := by
        exact congrArg (fun f => (List.range n).map f) hshift
      show takeFrom (done.push s.next.1) n s.next.2 = _
      rw [ih, after_next, hmap, List.range_succ_eq_map, List.map_cons, List.map_map]
      rw [show s.tokenAt 0 = s.next.1 from rfl]
      simp
  rw [take, key]
  simp

end Scanner

end RsxInspect
