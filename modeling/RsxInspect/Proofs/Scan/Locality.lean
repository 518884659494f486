import RsxInspect.Proofs.Expr.Moved
import RsxInspect.Proofs.Scan.Tiling
import RsxInspect.Proofs.Text.CodeWindow

/-!
# What a scan depends on

A scanner reads its tokens off the characters that it sees and its state. Of the characters behind
it, front-matter code looks at the last one, and only where an `r` stands ahead
(`codeLength_congr`); of the last token it matters only whether that opened a tag
(`LexState.Alike`). Two scanners that agree in these things read the same tokens for ever
(`Scanner.Along`), wherever in a source they stand: `Along.next` is one call, `Along.after` any
number of them.

A scan that starts with a file stands in front-matter code only right behind a fence, in front of
one or at the end (`Scanner.CodeStarts`), so there the character behind it tells nothing. Hence a
place of such a scan, given by its offset and its state, is all that is needed to go on from there
(`resumes_locally`).
-/

namespace RsxInspect

open String (utf8Len)

/-! ### The character behind the cursor

The lexemes depend on one character behind the cursor at most, and only in front-matter code: an `r`
starts a raw string there unless it ends a name. -/

namespace FrontMatter

/-- Only an `r` is looked at together with the character in front of it: it starts a raw string
unless it ends a name. -/
theorem itemTail_congr {before before' : Option Char} {c : Char} (cs : List Char)
    (h : c = 'r' → before.any isNamePart = before'.any isNamePart) :
    itemTail before c cs = itemTail before' c cs := by
  unfold itemTail
  by_cases hr : c = 'r'
  · rw [h hr]
  · have hno : (c == 'r') = false := beq_eq_false_iff_ne.mpr hr
    rw [hno, Bool.false_and, Bool.false_and]

theorem codeLength_congr {before before' : Option Char} {cs : List Char}
    (h : cs.head? = some 'r' → before.any isNamePart = before'.any isNamePart) :
    codeLength before cs = codeLength before' cs := by
  have hleads := reach_leads cs
  unfold codeLength
  cases hreach : reach cs with
  | nil => rw [itemsFrom_nil, itemsFrom_nil]
  | cons c inside =>
    -- behind its first item the code looks back at characters of its own
    rw [hreach] at hleads
    obtain ⟨beyond, hcs⟩ := hleads
    have hhead : cs.head? = some c := by rw [← hcs]; rfl
    have htail : itemTail before c inside = itemTail before' c inside := by
      apply itemTail_congr
      intro hr
      apply h
      rw [hhead, hr]
    rw [itemsFrom_cons, itemsFrom_cons, htail]

end FrontMatter

/-! ### States

Two states are `Alike` if they have the same mode, and agree on the last token where a rule looks at
it. So a scan that is resumed in another state may still read on alike. -/

/-- The states are in the same mode, and the last token opened a tag in both or in none. -/
def LexState.Alike (a b : LexState) : Prop :=
  a.mode = b.mode ∧ (a.last = some .tagOpen ↔ b.last = some .tagOpen)

theorem LexState.Alike.refl (a : LexState) : a.Alike a := ⟨rfl, Iff.rfl⟩

namespace Lexeme

theorem inStartTag_congr {last last' : Option TokenKind}
    (h : last = some .tagOpen ↔ last' = some .tagOpen) (cs : List Char) :
    inStartTag last cs = inStartTag last' cs := by
  have hkind : (if last = some .tagOpen then TokenKind.tagName else .attrName)
      = if last' = some .tagOpen then TokenKind.tagName else .attrName := by
    by_cases hlast : last = some .tagOpen
    · rw [if_pos hlast, if_pos (h.mp hlast)]
    · rw [if_neg hlast, if_neg fun hlast' => hlast (h.mpr hlast')]
  unfold inStartTag
  simp only [hkind]

theorem inAttributeValue_congr {last last' : Option TokenKind}
    (h : last = some .tagOpen ↔ last' = some .tagOpen) (cs : List Char) :
    inAttributeValue last cs = inAttributeValue last' cs := by
  unfold inAttributeValue
  simp only [inStartTag_congr h]

end Lexeme

/-- What stands ahead is read in the same way in states that are `Alike`, whatever stands behind, as
long as no front-matter code with an `r` is ahead. -/
theorem lex_congr {a b : LexState} {before before' : Option Char} {cs : List Char}
    (hstate : a.Alike b)
    (hbefore : a.mode = .frontMatter → cs.head? = some 'r' →
      before.any isNamePart = before'.any isNamePart) :
    lex a before cs = lex b before' cs := by
  obtain ⟨mode, last⟩ := a
  obtain ⟨mode', last'⟩ := b
  obtain ⟨hmode, hlast⟩ := hstate
  obtain rfl : mode = mode' := hmode
  cases mode with
  | frontMatter =>
    show Lexeme.inFrontMatter before cs = Lexeme.inFrontMatter before' cs
    unfold Lexeme.inFrontMatter
    rw [FrontMatter.codeLength_congr (hbefore rfl)]
  | tagOpen => exact Lexeme.inStartTag_congr hlast cs
  | tagAttributeValue => exact Lexeme.inAttributeValue_congr hlast cs
  | _ => rfl

/-! ### Moving on

Two scans go `Along` if the same characters are ahead of both and what is behind makes no
difference. Each call keeps this and reads the same lexeme. -/

namespace Cursor

theorem advance_position (n : Nat) (c : Cursor) :
    (c.advance n).position = c.position + utf8Len (c.rest.take n) := by
  induction n generalizing c with
  | zero => simp [advance]
  | succ n ih =>
    obtain ⟨position, before, rest⟩ := c
    cases rest with
    | nil => simp [advance]
    | cons ch rest =>
      rw [advance, ih, List.take_succ_cons, String.utf8Len_cons]
      show position + ch.utf8Size + utf8Len (rest.take n) = position + _
      omega

/-- Behind the cursor (`Cursor.before`) stands the last character that it moved over, or what stood
there before if it did not move. -/
theorem advance_before (n : Nat) (c : Cursor) :
    (c.advance n).before = (c.rest.take n).getLast?.or c.before := by
  induction n generalizing c with
  | zero => simp [advance]
  | succ n ih =>
    obtain ⟨position, before, rest⟩ := c
    cases rest with
    | nil => simp [advance]
    | cons ch rest =>
      rw [advance, ih, List.take_succ_cons, List.getLast?_cons]
      cases (rest.take n).getLast? <;> rfl

end Cursor

namespace Scanner

theorem next_of_rest {s : Scanner} (h : s.cursor.rest ≠ []) :
    s.next =
      let x := lex s.state s.cursor.before s.cursor.rest
      (⟨x.kind, ⟨s.offset, (s.cursor.advance x.length).position⟩⟩,
        ⟨s.cursor.advance x.length, stateAfter s.state x⟩) := by
  obtain ⟨c, cs, hrest⟩ := List.exists_cons_of_ne_nil h
  unfold next
  rw [hrest]

/-- The scanner `s` sees what `t` sees, `d` bytes further on, and nothing that could tell them apart
stands behind them. -/
structure Along (d : Nat) (s t : Scanner) : Prop where
  offset : s.offset = t.offset + d
  rest : s.cursor.rest = t.cursor.rest
  state : s.state.Alike t.state
  before : s.state.mode = .frontMatter → s.cursor.rest.head? = some 'r' →
    s.cursor.before.any isNamePart = t.cursor.before.any isNamePart

namespace Along

variable {d : Nat} {s t : Scanner}

theorem lex_eq (h : s.Along d t) :
    lex s.state s.cursor.before s.cursor.rest = lex t.state t.cursor.before t.cursor.rest := by
  rw [← h.rest]
  exact lex_congr h.state h.before

/-- Both read the same token, `d` bytes apart (`Token.moved`), and still see the same behind it. -/
theorem next (h : s.Along d t) :
    s.next.1 = t.next.1.moved d ∧ s.next.2.Along d t.next.2 := by
  by_cases hend : s.cursor.rest = []
  · rw [next_of_end hend, next_of_end (h.rest ▸ hend)]
    refine ⟨?_, h⟩
    rw [h.offset]
    rfl
  · have hlex := h.lex_eq
    rw [next_of_rest hend, next_of_rest (h.rest ▸ hend), ← hlex]
    generalize hx : lex s.state s.cursor.before s.cursor.rest = x at hlex
    have hposition : (s.cursor.advance x.length).position
        = (t.cursor.advance x.length).position + d := by
      have hoffset : s.cursor.position = t.cursor.position + d := h.offset
      rw [Cursor.advance_position, Cursor.advance_position, h.rest, hoffset]
      omega
    refine ⟨?_, hposition, ?_, ⟨rfl, ?_⟩, ?_⟩
    · simp only [Token.moved, Span.moved, hposition, h.offset]
    · simp only [Cursor.advance_rest, h.rest]
    · -- blanks keep the last token, and any other lexeme is the last one in both
      simp only [stateAfter]
      split
      · exact h.state.2
      · exact Iff.rfl
    · intro hmode _
      have htaken : x.length ≠ 0 := by
        -- a lexeme is empty in tags only
        intro hzero
        rw [← hx] at hzero
        have hstill := (lex_length_eq_zero_iff hend).mp hzero
        have hsame : x.mode = s.state.mode := by
          rw [← hx]
          exact (lex_of_standsStill hstill).2
        have hcode : s.state.mode = .frontMatter := hsame ▸ hmode
        rcases hstill.1 with htag | htag
        · exact absurd (hcode.symm.trans htag) (by decide)
        · exact absurd (hcode.symm.trans htag) (by decide)
      show (s.cursor.advance x.length).before.any isNamePart
        = (t.cursor.advance x.length).before.any isNamePart
      rw [Cursor.advance_before, Cursor.advance_before, ← h.rest]
      cases hlast : (s.cursor.rest.take x.length).getLast? with
      | none =>
        rw [List.getLast?_eq_none_iff, List.take_eq_nil_iff] at hlast
        exact absurd hlast (not_or.mpr ⟨htaken, hend⟩)
      | some c => rfl

theorem state_next (h : s.Along d t) (hstate : s.state = t.state) :
    s.next.2.state = t.next.2.state := by
  by_cases hend : s.cursor.rest = []
  · rw [next_of_end hend, next_of_end (h.rest ▸ hend)]
    exact hstate
  · rw [next_of_rest hend, next_of_rest (h.rest ▸ hend)]
    show stateAfter s.state _ = stateAfter t.state _
    rw [h.lex_eq, hstate]

/-! ### Call by call

What one call keeps, any number of them keep. -/

theorem after (h : s.Along d t) (k : Nat) : (s.after k).Along d (t.after k) := by
  induction k with
  | zero => exact h
  | succ k ih => exact ih.next.2

theorem tokenAt (h : s.Along d t) (k : Nat) : s.tokenAt k = (t.tokenAt k).moved d :=
  (h.after k).next.1

theorem state_after (h : s.Along d t) (hstate : s.state = t.state) (k : Nat) :
    (s.after k).state = (t.after k).state := by
  induction k with
  | zero => exact hstate
  | succ k ih => exact (h.after k).state_next ih

end Along

end Scanner

/-! ### Places of a scan from the start of a file

`CodeStarts` is the invariant: the scan comes to front-matter code behind the fence that opens it
and leaves it in front of the next one, so no name stands right before an `r` that is ahead. -/

/-- Only a fence leads into front matter, and its code ends in front of a fence or at the end, so
code never follows code. -/
theorem lex_into_frontMatter {state : LexState} {before : Option Char} {cs : List Char}
    (hcs : cs ≠ []) (h : (lex state before cs).mode = .frontMatter) :
    (cs.take (lex state before cs).length).getLast? = some '-' ∨
      (cs.drop (lex state before cs).length).head? ≠ some 'r' := by
  have hstep := lex_transition state before hcs
  rw [h] at hstep
  obtain ⟨mode, last⟩ := state
  -- front matter is entered by its fence, which ends in a dash, or kept by its code, which a fence
  -- follows
  have hmode : mode = .initial ∨ mode = .frontMatter := by
    generalize (lex ⟨mode, last⟩ before cs).kind = kind at hstep
    cases hstep with
    | fenceOpen => exact .inl rfl
    | frontMatterCode => exact .inr rfl
  rcases hmode with rfl | rfl
  · left
    have hfence : Delimiter.fence.isPrefixOf cs = true := by
      by_contra hno
      change (Lexeme.betweenSections cs).mode = .frontMatter at h
      unfold Lexeme.betweenSections Lexeme.sectionOpen Lexeme.blanksOr Lexeme.bad at h
      rw [if_neg hno] at h
      repeat' split at h
      all_goals cases h
    show (cs.take (Lexeme.betweenSections cs).length).getLast? = some '-'
    obtain ⟨rest, rfl⟩ := List.isPrefixOf_iff_prefix.mp hfence
    rfl
  · right
    have hfence : ¬ Delimiter.fence.isPrefixOf cs = true := by
      intro hfence
      change (Lexeme.inFrontMatter before cs).mode = .frontMatter at h
      rw [Lexeme.inFrontMatter, if_pos hfence] at h
      cases h
    show (cs.drop (Lexeme.inFrontMatter before cs).length).head? ≠ some 'r'
    rw [Lexeme.inFrontMatter, if_neg hfence]
    rcases Nat.lt_or_ge (FrontMatter.codeLength before cs) cs.length with hlt | hge
    · obtain ⟨rest, hrest⟩ := FrontMatter.fence_behind_code hlt
      simp only [← hrest]
      simp [Delimiter.fence]
    · simp only [List.drop_eq_nil_of_le hge]
      simp

namespace Scanner

/-- If front-matter code that starts with an `r` is ahead, no name stands right before it. This is
an invariant of the scan of a file (`codeStarts_after`). -/
def CodeStarts (s : Scanner) : Prop :=
  s.state.mode = .frontMatter → s.cursor.rest.head? = some 'r' →
    s.cursor.before.any isNamePart = false

theorem CodeStarts.next {s : Scanner} (h : s.CodeStarts) : s.next.2.CodeStarts := by
  by_cases hend : s.cursor.rest = []
  · rw [next_of_end hend]
    exact h
  · rw [next_of_rest hend]
    intro hmode hhead
    have hinto := lex_into_frontMatter hend hmode
    simp only [Cursor.advance_rest] at hhead
    rcases hinto with hdash | hr
    · rw [Cursor.advance_before, hdash]
      exact not_isNamePart_of_markStart (by decide)
    · exact absurd hhead hr

theorem codeStarts_after (source : String) (k : Nat) :
    ((ofSource source).after k).CodeStarts := by
  induction k with
  | zero =>
    intro hmode
    cases hmode
  | succ k ih => exact ih.next

end Scanner

/-! ### Going on from a place -/

namespace Scanner

theorem after_add (s : Scanner) (k j : Nat) : (s.after k).after j = s.after (k + j) := by
  induction j with
  | zero => rfl
  | succ j ih => rw [after_succ, ih, ← after_succ, Nat.add_assoc]

/-- A place of a scan from the start of a file stands between two parts of the file, in its state:
it is `behind` the first. -/
theorem after_eq_behind (source : String) (k : Nat) :
    ∃ done rest, source.toList = done ++ rest ∧
      (ofSource source).after k = behind done rest ((ofSource source).after k).state := by
  obtain ⟨done, rest, beyond, hsource, hstop, hs⟩ := (inWindow_ofSource source).after k
  have hbeyond : beyond = [] := by
    apply String.utf8Len_eq_zero.mp
    have hsize : utf8Len source.toList = source.utf8ByteSize := String.utf8Len_toList source
    rw [hsource, String.utf8Len_append, String.utf8Len_append] at hsize
    omega
  rw [hbeyond, List.append_nil] at hsource
  exact ⟨done, rest, hsource, hs⟩

/-- **Resumption and locality.** Behind any number of tokens of a file the offset and the state are
enough to go on: a scan of the rest of the file from there (`Scanner.ofRange`) reads, call by call,
what the scan itself goes on to read, and a scan up to any boundary reads what it would read in the
text between the two places alone. -/
theorem resumes_locally (source : String) (k : Nat) :
    let s : Scanner := (ofSource source).after k
    (∀ j, let r := ofRange source s.offset source.utf8ByteSize s.state
      r.tokenAt j = (ofSource source).tokenAt (k + j) ∧
        (r.after j).offset = ((ofSource source).after (k + j)).offset ∧
        (r.after j).state = ((ofSource source).after (k + j)).state) ∧
    ∀ stop, IsBoundary source stop → s.offset ≤ stop →
      let r := ofRange source s.offset stop s.state
      let alone := ofRange ((Span.mk s.offset stop).text source) 0 (stop - s.offset) s.state
      ∀ j, r.tokenAt j = (alone.tokenAt j).moved s.offset ∧
        (r.after j).offset = (alone.after j).offset + s.offset ∧
        (r.after j).state = (alone.after j).state := by
  obtain ⟨done, rest, hsource, hs⟩ := after_eq_behind source k
  have hcode := codeStarts_after source k
  generalize ((ofSource source).after k).state = state at hs
  simp only [hs] at hcode ⊢
  have hsize : utf8Len (done ++ rest) = source.utf8ByteSize := by
    rw [← hsource, String.utf8Len_toList]
  refine ⟨fun j => ?_, fun stop hstop hle j => ?_⟩
  · -- the scanner of the range is the scanner itself
    have hsame : ofRange source (utf8Len done) source.utf8ByteSize state
        = (ofSource source).after k := by
      have hall : source.toList = done ++ rest ++ [] := by rw [List.append_nil, hsource]
      have hrange := Cursor.ofRange_of_split done rest [] hall
      rw [hs, ofRange, ← hsize, hrange, behind]
    simp only [behind_offset, behind_state, hsame]
    rw [tokenAt, after_add]
    exact ⟨rfl, rfl, rfl⟩
  · obtain ⟨mid, beyond, rfl, rfl⟩ := exists_split_of_boundary hsource hstop hle
    rw [← List.append_assoc] at hsource
    have hrange := Cursor.ofRange_of_split done mid beyond hsource
    have htext : (Span.mk (utf8Len done) (utf8Len (done ++ mid))).text source
        = String.ofList mid := by
      rw [String.utf8Len_append]
      exact Span.text_of_split done mid beyond hsource
    have hmid : (String.ofList mid).toList = [] ++ mid ++ [] := by simp
    have halone := Cursor.ofRange_of_split [] mid [] hmid
    have hlength : utf8Len (done ++ mid) - utf8Len done = utf8Len ([] ++ mid) := by
      rw [String.utf8Len_append, List.nil_append]
      omega
    rw [String.utf8Len_nil] at halone
    simp only [behind_offset, behind_state, htext, hlength, ofRange, hrange, halone]
    -- nothing behind the window is seen, and what stands before it does not count
    have halong : (behind done mid state).Along (utf8Len done) (behind [] mid state) := by
      refine ⟨?_, rfl, .refl state, fun hmode hhead => ?_⟩
      · rw [behind_offset, behind_offset, String.utf8Len_nil, Nat.zero_add]
      · apply hcode hmode
        rw [behind_cursor, Cursor.behind_rest] at hhead ⊢
        rw [List.head?_append, hhead]
        rfl
    exact ⟨halong.tokenAt j, (halong.after j).offset, halong.state_after rfl j⟩

/-- Behind an opening fence, up to the end of a raw string that holds a fence of its own. -/
theorem resumes_locally_rawString :
    let source := String.ofList ("---r\"a---\"b---".toList)
    let s := (ofSource source).after 1
    IsBoundary source 10 ∧ s.offset ≤ 10 ∧ ∀ j,
      (ofRange source s.offset 10 s.state).tokenAt j
        = ((ofRange ((Span.mk s.offset 10).text source) 0 (10 - s.offset) s.state).tokenAt j).moved
            s.offset := by
  intro source s
  have hsource : source.toList = "---r\"a---\"".toList ++ "b---".toList := by
    rw [String.toList_ofList]
    decide
  have hstop : IsBoundary source 10 := isBoundary_of_split hsource
  have hle : s.offset ≤ 10 := by
    simp only [s, ofSource_eq_behind, source, String.toList_ofList]
    decide +kernel
  exact ⟨hstop, hle, fun j => ((resumes_locally source 1).2 10 hstop hle j).1⟩

end Scanner

end RsxInspect
