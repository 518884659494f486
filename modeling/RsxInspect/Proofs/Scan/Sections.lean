import RsxInspect.Proofs.Lexeme.Append
import RsxInspect.Proofs.Scan.Locality
import RsxInspect.Proofs.Scan.Run

/-!
# Sections are independent

A scan that has read a file to the end, where its last token closes a section, reads the same tokens
when more text follows: all the way every lexeme is decided in front of that closing mark
(`Closes`). The bricks:

* `Closes.of_rest` takes this from the place behind a lexeme to the place in front of it, so that
  `Reads.closes` has it for a whole run, by induction from its end;
* `Scanner.Reads.append` is the run with more text behind it;
* behind the mark the scanner stands as if a file started there (`along_ofSource`), and two scanners
  that go along read the same tokens up to the end (`Along.toEnd`).

So the tokens of two texts put together are those of the first and those of the second, moved
(`tokens_append`).
-/

namespace RsxInspect

open String (utf8Len)

/-- The marks that close a section; a fence also opens one, which the mode in front of it tells
apart. -/
def TokenKind.closesSection : TokenKind → Bool
  | .scriptClose | .styleClose | .templateClose | .frontMatterDelimiter => true
  | _ => false

/-- What leads out of a section has been read inside of it: no other `Transition` to `initial` has
such a kind. -/
theorem Transition.ne_initial {m : Mode} {k : TokenKind} (h : Transition m k .initial)
    (hk : k.closesSection = true) : m ≠ .initial := by
  rintro rfl
  cases h with
  | blankBetween => cases hk
  | badBetween => cases hk

namespace Closes

variable {state : LexState} {before : Option Char} {cs : List Char}

/-- The closing mark alone closes its section (`Closes`), with nothing ahead of it. -/
theorem of_closing (hmode : state.mode ≠ .initial) (hout : (lex state before cs).mode = .initial)
    (hall : cs.drop (lex state before cs).length = []) : Closes state before cs := by
  have hleads := closing_of_initial hmode hout
  obtain ⟨hlong, hends⟩ := state.mode.closing_cases hmode
  have hcs : cs = state.mode.closing := by
    rw [lex_of_closing hmode hleads, List.drop_eq_nil_iff] at hall
    have hstart := List.isPrefixOf_iff_prefix.mp hleads
    exact (hstart.eq_of_length (Nat.le_antisymm hstart.length_le hall)).symm
  refine ⟨hcs ▸ hends, hcs ▸ hlong, hcs ▸ Nat.le_refl _, ?_, ?_⟩
  · intro hinitial
    exact absurd hinitial hmode
  · intro _ hno
    exact absurd hleads hno

/-- If what is behind the lexeme ahead closes its section, so does all: the lexeme ends in front of
the mark, and more text behind the mark does not reach it. -/
theorem of_rest {before' : Option Char} (hcs : cs ≠ [])
    (h : Closes (Scanner.stateAfter state (lex state before cs)) before'
      (cs.drop (lex state before cs).length)) : Closes state before cs := by
  have hstep := lex_transition state before hcs
  generalize hx : lex state before cs = x at h hstep
  obtain ⟨hends, hlong, hholds, -, -⟩ := h
  rw [List.length_drop] at hlong hholds
  have hroom : state.mode ≠ .initial → ¬ state.mode.closing.isPrefixOf cs = true →
      x.length + state.mode.closing.length ≤ cs.length := by
    intro hmode hno
    -- the section is still open behind the lexeme
    have hinside : x.mode ≠ .initial := by
      intro hout
      rw [← hx] at hout
      exact hno (closing_of_initial hmode hout)
    have hholds : x.mode.closing.length ≤ cs.length - x.length := hholds
    rw [hstep.closing_eq hmode hinside] at hholds
    have := (state.mode.closing_cases hmode).1
    omega
  refine ⟨hends.of_drop, by omega, ?_, fun _ => ?_, ?_⟩
  · by_cases hmode : state.mode = .initial
    · rw [hmode]
      exact Nat.zero_le _
    · by_cases hclose : state.mode.closing.isPrefixOf cs = true
      · exact (List.isPrefixOf_iff_prefix.mp hclose).length_le
      · have := hroom hmode hclose
        omega
  · rw [hx]
    omega
  · rw [hx]
    exact hroom

end Closes

namespace Scanner

/-! ### Runs up to the end of a section

A run that ends `BehindSection` shows that the characters it reads close their sections, at each
place on the way. So more text behind them changes no call, by induction on the run. -/

/-- The scanner stands at the end of its window, right behind a section: what it read last closed
one, and it is in the mode `initial`. -/
structure BehindSection (ts : List Token) (s : Scanner) : Prop where
  atEnd : s.cursor.rest = []
  between : s.state.mode = .initial
  closed : ∃ t, ts.getLast? = some t ∧ t.kind.closesSection = true

theorem BehindSection.tail {t u : Token} {ts : List Token} {s : Scanner}
    (h : BehindSection (t :: u :: ts) s) : BehindSection (u :: ts) s :=
  ⟨h.atEnd, h.between, h.closed⟩

/-- One call (`next`) reads the same token, and behind it the same characters in front of the
others. -/
theorem next_append {done cs : List Char} {state : LexState} (more : List Char)
    (h : Closes state done.getLast? cs) :
    (behind done (cs ++ more) state).next =
      let x := lex state done.getLast? cs
      ((behind done cs state).next.1,
        behind (done ++ cs.take x.length) (cs.drop x.length ++ more) (stateAfter state x)) := by
  have hcs : cs ≠ [] := h.ends.ne_nil
  rw [next_behind hcs, next_behind (List.append_ne_nil_of_left_ne_nil hcs more), lex_append more h]
  simp only [List.take_append_of_le_length h.length_le, List.drop_append_of_le_length h.length_le]

namespace Reads

variable {done cs : List Char} {state : LexState} {ts : List Token} {s' : Scanner}

/-- Wherever a run up to the end of a section (`BehindSection`) starts, the characters ahead close
the sections. -/
theorem closes (h : Reads (Scanner.behind done cs state) ts s') (hsection : BehindSection ts s') :
    Closes state done.getLast? cs := by
  induction ts generalizing done cs state with
  | nil =>
    obtain ⟨t, ht, -⟩ := hsection.closed
    cases ht
  | cons t ts ih =>
    obtain ⟨rfl, hmove, hrest⟩ := h.of_cons
    have hcs : cs ≠ [] := rest_ne_nil_of_moves hmove
    rw [next_behind hcs] at hrest hsection
    cases ts with
    | nil =>
      -- the last token, which closes the last section
      obtain rfl := hrest.eq_of_nil
      obtain ⟨u, hu, hclosed⟩ := hsection.closed
      cases hu
      have hstep := lex_transition state done.getLast? hcs
      have hout : (lex state done.getLast? cs).mode = .initial := hsection.between
      rw [hout] at hstep
      exact .of_closing (hstep.ne_initial hclosed) hout hsection.atEnd
    | cons u us => exact .of_rest hcs (ih hrest hsection.tail)

/-- **A run up to the end of a section reads the same tokens when more text follows.** -/
theorem append (h : Reads (Scanner.behind done cs state) ts s') (hsection : BehindSection ts s')
    (more : List Char) :
    Reads (Scanner.behind done (cs ++ more) state) ts
      (Scanner.behind (done ++ cs) more s'.state) := by
  induction ts generalizing done cs state with
  | nil =>
    obtain ⟨t, ht, -⟩ := hsection.closed
    cases ht
  | cons t ts ih =>
    have hcloses := h.closes hsection
    obtain ⟨rfl, hmove, hrest⟩ := h.of_cons
    have hnext := next_append more hcloses
    have htoken : (Scanner.behind done cs state).next.1
        = (Scanner.behind done (cs ++ more) state).next.1 := by rw [hnext]
    rw [htoken]
    rw [next_behind hcloses.ends.ne_nil] at hmove hrest
    refine .step ?_ ?_
    · rw [hnext]
      exact hmove
    rw [hnext]
    cases ts with
    | nil =>
      -- nothing is left in front of the rest
      have hend : cs.drop (lex state done.getLast? cs).length = [] := by
        have := hsection.atEnd
        rw [hrest.eq_of_nil] at this
        exact this
      have hall := List.take_of_length_le (List.drop_eq_nil_iff.mp hend)
      rw [hrest.eq_of_nil]
      simp only [hend, hall, List.nil_append]
      exact .done _
    | cons u us =>
      have hall := ih hrest hsection.tail
      rw [List.append_assoc, List.take_append_drop] at hall
      exact hall

/-- A run leaves behind, as `LexState.last`, what it read last, blanks apart. -/
theorem last_eq {s : Scanner} {t : Token} (h : Reads s ts s') (hlast : ts.getLast? = some t)
    (ht : ¬ t.kind.isTrivia = true) : s'.state.last = some t.kind := by
  induction h with
  | done s => cases hlast
  | step hmove rest ih =>
    rename_i s _ ts
    cases ts with
    | cons u us => exact ih hlast
    | nil =>
      obtain rfl : s.next.1 = t := Option.some.inj hlast
      rw [rest.eq_of_nil]
      rw [next_of_rest (rest_ne_nil_of_moves hmove)] at ht ⊢
      simp only [stateAfter]
      exact if_neg ht

end Reads

/-! ### Going on with another file

From there the scan of the second file goes on as if it were alone, up to its place: the states
agree, and what is behind makes no difference between sections. -/

namespace Along

variable {d : Nat} {s t : Scanner}

theorem atEnd_eq (h : s.Along d t) : s.cursor.atEnd = t.cursor.atEnd := by
  rw [Cursor.atEnd, h.rest, Cursor.atEnd]

theorem moves_iff (h : s.Along d t) :
    s.offset < s.next.2.offset ↔ t.offset < t.next.2.offset := by
  rw [h.offset, h.next.2.offset]
  omega

/-- Where one stands still, so does the other. -/
theorem toEndFrom_of_stays (h : s.Along d t) (hstays : ¬ t.offset < t.next.2.offset)
    (front done : Array Token) :
    (s.toEndFrom (front ++ done.map (Token.moved d))).1
        = front ++ (t.toEndFrom done).1.map (Token.moved d) ∧
      (s.toEndFrom (front ++ done.map (Token.moved d))).2.Along d (t.toEndFrom done).2 := by
  rw [Scanner.toEndFrom_of_stays hstays,
    Scanner.toEndFrom_of_stays (h.moves_iff.not.mpr hstays)]
  exact ⟨rfl, h⟩

/-- Up to the end (`Scanner.toEndFrom`) both read the same tokens. -/
theorem toEndFrom (h : s.Along d t) (front done : Array Token) :
    (s.toEndFrom (front ++ done.map (Token.moved d))).1
        = front ++ (t.toEndFrom done).1.map (Token.moved d) ∧
      (s.toEndFrom (front ++ done.map (Token.moved d))).2.Along d (t.toEndFrom done).2 := by
  induction done, t using Scanner.toEndFrom.induct generalizing s with
  | case1 done t hend =>
    apply h.toEndFrom_of_stays
    intro hmove
    exact rest_ne_nil_of_moves hmove (List.isEmpty_iff.mp hend)
  | case2 done t _ _ hmove _ =>
    rename_i ih
    obtain ⟨htoken, hnext⟩ := h.next
    have hpush : (front ++ done.map (Token.moved d)).push (t.next.1.moved d)
        = front ++ (done.push t.next.1).map (Token.moved d) := by simp
    rw [toEndFrom_of_moves hmove, toEndFrom_of_moves (h.moves_iff.mpr hmove), htoken, hpush]
    exact ih hnext
  | case3 done t _ _ =>
    rename_i hstays
    exact h.toEndFrom_of_stays hstays front done

/-- If one scan reaches the end (`Scanner.toEnd?`), so does the other. -/
theorem toEnd (h : s.Along d t) :
    s.toEnd.1 = t.toEnd.1.map (Token.moved d) ∧ s.toEnd?.isSome = t.toEnd?.isSome := by
  obtain ⟨htokens, hscanners⟩ := h.toEndFrom #[] #[]
  rw [Array.empty_append, Array.map_empty] at htokens hscanners
  rw [Array.empty_append] at htokens
  have hleft : s.toEnd.2.cursor.rest = t.toEnd.2.cursor.rest := hscanners.rest
  refine ⟨htokens, ?_⟩
  rw [isSome_toEnd?, isSome_toEnd?, Cursor.atEnd, Cursor.atEnd, hleft]

end Along

/-- Behind a section a scanner reads what it reads at the start of a file: the mode is `initial`,
and the last token opened no tag. -/
theorem along_ofSource {done : List Char} {state : LexState} (source : String)
    (hmode : state.mode = .initial) (hlast : state.last ≠ some .tagOpen) :
    (behind done source.toList state).Along (utf8Len done) (ofSource source) := by
  rw [ofSource_eq_behind]
  refine ⟨?_, rfl, ⟨hmode, ?_⟩, ?_⟩
  · rw [behind_offset, behind_offset, String.utf8Len_nil, Nat.zero_add]
  · exact ⟨fun h => absurd h hlast, fun h => by cases h⟩
  · intro hcode
    rw [behind_state, hmode] at hcode
    cases hcode

/-- Behind a run the calls go on (`Scanner.tokenAt`): the first of them are the tokens of the run,
the others those of the place behind it. -/
theorem Reads.tokenAt_eq {s s' : Scanner} {ts : List Token} (h : Reads s ts s') (k : Nat) :
    s.tokenAt k = if h : k < ts.length then ts[k] else s'.tokenAt (k - ts.length) := by
  induction h generalizing k with
  | done s => rfl
  | step hmove _ ih =>
    rename_i s s' ts _
    cases k with
    | zero => rfl
    | succ k =>
      have hnext : s.tokenAt (k + 1) = s.next.2.tokenAt k := by
        rw [Scanner.tokenAt, Scanner.tokenAt, after_next]
      simp only [hnext, ih, List.length_cons, Nat.add_lt_add_iff_right, List.getElem_cons_succ,
        Nat.add_sub_add_right]

/-- **Sections are independent.** Where a file has been read to the end and its last token closes a
section, text put behind it changes none of its tokens, and is itself read as if it stood alone:
call by call (`Scanner.tokenAt`), and up to the end if there is one (`Scanner.toEnd?`). -/
theorem tokens_append {a b : String} {ts : Array Token} {s : Scanner}
    (hscan : (ofSource a).toEnd? = some (ts, s)) (hmode : s.state.mode = .initial)
    (hlast : ts.back?.any (·.kind.closesSection) = true) :
    (∀ k, (ofSource (a ++ b)).tokenAt k =
      if h : k < ts.size then ts[k]
      else ((ofSource b).tokenAt (k - ts.size)).moved a.utf8ByteSize) ∧
    tokenize? (a ++ b) =
      (tokenize? b).map fun us => ts ++ us.map (Token.moved a.utf8ByteSize) := by
  obtain ⟨hreads, hend⟩ := toEnd?_eq_some_iff.mp hscan
  rw [Option.any_eq_true] at hlast
  obtain ⟨t, ht, hclosed⟩ := hlast
  rw [← Array.getLast?_toList] at ht
  have hsection : BehindSection ts.toList s := ⟨hend, hmode, t, ht, hclosed⟩
  have hkind : ¬ t.kind.isTrivia = true := by
    intro hblank
    rw [TokenKind.isTrivia, beq_iff_eq] at hblank
    rw [hblank] at hclosed
    cases hclosed
  have hopen : s.state.last ≠ some .tagOpen := by
    rw [hreads.last_eq ht hkind]
    intro htag
    rw [Option.some.inj htag] at hclosed
    cases hclosed
  -- the run over the first file, and the scanner behind it in the second one
  rw [ofSource_eq_behind] at hreads
  have hfirst := hreads.append hsection b.toList
  rw [← String.toList_append, ← ofSource_eq_behind, List.nil_append] at hfirst
  have halong := @along_ofSource a.toList s.state b hmode hopen
  rw [String.utf8Len_toList] at halong
  constructor
  · intro k
    rw [hfirst.tokenAt_eq, halong.tokenAt]
    simp
  · have hrun : (ofSource (a ++ b)).toEnd
        = (behind a.toList b.toList s.state).toEndFrom (ts ++ #[].map (Token.moved a.utf8ByteSize)) := by
      rw [toEnd, hfirst.toEndFrom_eq]
      simp
    obtain ⟨htokens, hbehind⟩ := halong.toEndFrom ts #[]
    rw [← hrun, ← toEnd] at htokens hbehind
    unfold tokenize? toEnd?
    simp only [hbehind.atEnd_eq]
    split
    · simp [htokens, hbehind.next.1]
    · rfl

/-- Behind front matter whose code holds a fence in a raw string, where the text goes on with an open
fence of its own. -/
theorem tokens_append_frontMatter :
    let a := String.ofList "---\nr\"---\"\n---".toList
    let b := String.ofList "\n---\"".toList
    ∃ ts s, (ofSource a).toEnd? = some (ts, s) ∧ s.state.mode = .initial ∧
      ts.back?.any (·.kind.closesSection) = true ∧
      tokenize? (a ++ b) =
        (tokenize? b).map fun us => ts ++ us.map (Token.moved a.utf8ByteSize) := by
  intro a b
  have hsource : ofSource a = behind [] "---\nr\"---\"\n---".toList .initial := by
    rw [ofSource_eq_behind, String.toList_ofList]
  have hrun := reads_takeUntilEnd 3 (ofSource a) (by rw [hsource]; decide +kernel)
  have hscan := toEnd?_eq_some_iff.mpr ⟨hrun, by rw [hsource]; decide +kernel⟩
  have hmode : ((ofSource a).takeUntilEnd 3).2.state.mode = .initial := by
    rw [hsource]
    decide +kernel
  have hlast : ((ofSource a).takeUntilEnd 3).1.back?.any (·.kind.closesSection) = true := by
    rw [hsource]
    decide +kernel
  exact ⟨_, _, hscan, hmode, hlast, (tokens_append hscan hmode hlast).2⟩

end Scanner

end RsxInspect
