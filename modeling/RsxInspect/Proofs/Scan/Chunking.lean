import RsxInspect.Proofs.Lexeme.Window
import RsxInspect.Proofs.Scan.Run

/-!
# Scanning in two parts

A host may stop a scan at a token boundary, keep the offset and the state, and go on from there
later. The first part does not see what lies behind the place where it stops. `resumes_iff` says
when the two parts give the tokens of one scan of the whole source: exactly when the place does not
hide what a rule of the scanner looks for (`HidesAhead`). There are two such places. In front of a
directive keyword the braces before it are taken for those of an expression, and behind the word of
an opening tag that goes on, as in `<scripty`, the word is taken for the opening tag.

The bricks:

* `lex_first_part`: what one lexeme of the first part can be. `Reads.first_part` and
  `Reads.not_atSectionWord` are the two directions for a whole run, both by induction on it.
* `Reads.second_part`: the second part starts in the state that the first one left, which may differ
  from that of the whole scan in front of a directive (`SameState`).
* `Cut` holds a scan, the cut in it and the two runs; `Cut.resumes_iff_reads` and
  `Cut.hidesAhead_iff` turn both sides of the statement into facts on these, and `Cut.reads_iff`
  compares them.
-/

namespace RsxInspect

open String (utf8Len)

namespace Scanner

/-! ### Places where a window may end

Only two rules look further than what they take: the one behind `{{`, and the one for opening tags.
-/

/-- Every place of a run is one where a lexeme starts (`StartsAt`), seen from where the run
started. -/
theorem reads_startsAt {done rest : List Char} {state : LexState} {ts : List Token} {s' : Scanner}
    (h : Reads (behind done rest state) ts s') :
    ∃ m ≤ rest.length, StartsAt state done rest m ∧
      s' = behind (done ++ rest.take m) (rest.drop m) s'.state := by
  generalize hs : behind done rest state = s at h
  induction h generalizing done rest state with
  | done s =>
    refine ⟨0, Nat.zero_le _, .here state done rest, ?_⟩
    rw [List.take_zero, List.append_nil, List.drop_zero, ← hs, behind_state]
  | step hmove _ ih =>
    subst hs
    -- at the end the scanner would not move
    have hend : rest ≠ [] := by
      rintro rfl
      rw [next_of_end rfl] at hmove
      exact Nat.lt_irrefl _ hmove
    generalize hx : lex state done.getLast? rest = x
    have hnext : (behind done rest state).next.2
        = behind (done ++ rest.take x.length) (rest.drop x.length) (stateAfter state x) := by
      rw [next_behind hend, hx]
    have hpos : 0 < x.length := by
      by_contra hzero
      rw [hnext, show x.length = 0 by omega] at hmove
      simp at hmove
    obtain ⟨m, hm, hstarts, hs'⟩ := ih hnext.symm
    rw [List.length_drop] at hm
    -- a lexeme may be longer than the text that is left; the scanner then stands at its end
    rcases Nat.lt_or_ge rest.length x.length with hbeyond | hinside
    · refine ⟨rest.length, Nat.le_refl _, .atEnd state done rest, ?_⟩
      have htake : rest.take x.length = rest := List.take_of_length_le (by omega)
      have hdrop : rest.drop x.length = [] := List.drop_eq_nil_of_le (by omega)
      rw [htake, hdrop, List.take_nil, List.append_nil, List.drop_nil] at hs'
      rw [List.take_length, List.drop_length]
      exact hs'
    · subst hx
      refine ⟨_ + m, by omega, .later hpos hstarts, ?_⟩
      rw [List.take_add, ← List.append_assoc, ← List.drop_drop]
      exact hs'

/-- The place `s` shows the word of an opening tag (`sectionTags`) that goes on, and nothing more up
to where `rest` starts. -/
def AtSectionWord (s : Scanner) (rest : List Char) : Prop :=
  s.state.mode = .initial ∧ s.next.1.kind = .badCharacter ∧
    ∃ word ∈ Lexeme.sectionTags, s.cursor.rest = word ++ rest

/-- The states in which a scan of the whole source and one that stops in front of `rest` come there.
They differ in front of a directive only, which the second one has not seen. -/
def SameState (rest : List Char) (full head : LexState) : Prop :=
  head = full ∨ full = ⟨.directive, some .interpolationOpen⟩ ∧ head = .interpolation ∧
    Lexeme.modeInBraces rest = .directive

end Scanner

namespace Lexeme

theorem prefix_of_modeDirective {cs : List Char} (h : (inTemplate cs).mode = .directive) :
    ∃ rest, cs = Delimiter.openBraces ++ rest ∧ modeInBraces rest = .directive := by
  by_cases hopen : Delimiter.openBraces.isPrefixOf cs = true
  · obtain ⟨rest, rfl⟩ := List.isPrefixOf_iff_prefix.mp hopen
    exact ⟨rest, rfl, h⟩
  · exfalso
    unfold inTemplate templateCloseOr blanksOr at h
    rw [if_neg hopen] at h
    repeat' split at h
    all_goals cases h

theorem exists_of_modeInBraces {rest : List Char} (h : modeInBraces rest = .directive) :
    ∃ d cs, rest = d :: cs ∧ d ∈ directiveStarts := by
  unfold modeInBraces at h
  cases rest with
  | nil => cases h
  | cons d cs =>
    refine ⟨d, cs, rfl, ?_⟩
    rw [List.head?_cons] at h
    split at h
    · rename_i heq
      cases heq
      decide
    · rename_i heq
      cases heq
      decide
    · rename_i heq
      cases heq
      decide
    · cases h

/-- Where no keyword is read, the rule `inDirective` reads what the rule `inExpression` does. -/
theorem inDirective_of_plain {d : Char} {cs : List Char} (hd : d ∈ directiveStarts)
    (h : (inDirective (d :: cs)).kind.isDirective = false) :
    inDirective (d :: cs) = inExpression (d :: cs) := by
  rw [inDirective_of_start hd] at h ⊢
  cases helse : elseIfLength? (d :: cs) with
  | some n =>
    rw [helse] at h
    cases h
  | none =>
    rw [helse] at h
    cases hfind : Vocabulary.directiveKeywords.find? (Text.startsWithWord ·.1 (d :: cs)) with
    | some keyword =>
      rw [hfind] at h
      exact absurd (isDirective_of_keyword hfind) (by rw [Bool.not_eq_true]; exact h)
    | none => rfl

theorem not_whitespace_inDirective {d : Char} {cs : List Char} (hd : d ∈ directiveStarts) :
    (inDirective (d :: cs)).kind ≠ .whitespace := by
  intro h
  have hplain : inDirective (d :: cs) = inExpression (d :: cs) :=
    inDirective_of_plain hd (by rw [h]; rfl)
  rw [hplain] at h
  refine inExpression_kind_ne (not_blanks ?_) h
  simp only [directiveStarts, List.mem_cons, List.not_mem_nil, or_false] at hd
  rcases hd with rfl | rfl | rfl <;> decide

theorem lex_sectionTag {word : List Char} (h : word ∈ sectionTags) (last : Option TokenKind)
    (before : Option Char) : (lex ⟨.initial, last⟩ before word).kind ≠ .badCharacter := by
  simp only [sectionTags, List.mem_cons, List.not_mem_nil, or_false] at h
  show (betweenSections word).kind ≠ .badCharacter
  rcases h with rfl | rfl | rfl <;> decide

end Lexeme

namespace Scanner

/-! ### The first part

It sees `mid` where the scan of the whole source sees `mid ++ rest`. -/

/-- What the first part reads where `mid` is left of it: the lexeme of the whole source, or one of
the two that need more to be seen, braces or the word of an opening tag. -/
theorem lex_first_part {done mid rest : List Char} {state : LexState} (hmid : mid ≠ [])
    (hstarts : StartsAt state done (mid ++ rest) mid.length) :
    lex state done.getLast? mid = lex state done.getLast? (mid ++ rest) ∨
      (behind done (mid ++ rest) state).AtSectionWord rest ∧
        (lex state done.getLast? mid).kind ≠ .badCharacter ∨
      state.mode = .template ∧ mid = Delimiter.openBraces ∧
        Lexeme.modeInBraces rest = .directive := by
  have hnext : (behind done (mid ++ rest) state).next.1.kind
      = (lex state done.getLast? (mid ++ rest)).kind := by
    rw [next_behind (by simp [hmid])]
  -- the two exceptions of `lex_take` are the two that this statement names; in all other cases it
  -- applies
  by_cases hsection : state.mode = .initial ∧
      (lex state done.getLast? (mid ++ rest)).kind = .badCharacter ∧ mid ∈ Lexeme.sectionTags
  · obtain ⟨hmode, hbad, hword⟩ := hsection
    refine .inr (.inl ⟨⟨hmode, hnext.trans hbad, mid, hword, rfl⟩, ?_⟩)
    obtain ⟨mode, last⟩ := state
    obtain rfl : mode = .initial := hmode
    exact Lexeme.lex_sectionTag hword last _
  · by_cases hbraces : state.mode = .template ∧
        (lex state done.getLast? (mid ++ rest)).mode = .directive ∧ mid.length = 2
    · obtain ⟨hmode, hdirective, htwo⟩ := hbraces
      obtain ⟨mode, last⟩ := state
      obtain rfl : mode = .template := hmode
      obtain ⟨rest', hsplit, hahead⟩ := Lexeme.prefix_of_modeDirective hdirective
      obtain ⟨rfl, rfl⟩ := List.append_inj hsplit htwo
      exact .inr (.inr ⟨rfl, rfl, hahead⟩)
    · left
      have hwindow : mid = (mid ++ rest).take mid.length := (List.take_left).symm
      conv_lhs => rw [hwindow]
      refine lex_take hstarts (List.length_pos_iff.mpr hmid) (by simp) ?_ ?_
      · rw [← hwindow]
        exact fun hmode hbad hword => hsection ⟨hmode, hbad, hword⟩
      · exact fun hmode hdirective htwo => hbraces ⟨hmode, hdirective, htwo⟩

/-- Where both parts read the same lexeme (`lex`), they read the same token and come to the same
place of their windows. -/
theorem next_first_part {done mid rest : List Char} {state : LexState} (hmid : mid ≠ [])
    (hlex : lex state done.getLast? mid = lex state done.getLast? (mid ++ rest))
    (hle : (lex state done.getLast? mid).length ≤ mid.length) :
    (behind done (mid ++ rest) state).next.1 = (behind done mid state).next.1 ∧
      ∃ read left after, mid = read ++ left ∧
        (behind done mid state).next.2 = behind (done ++ read) left after ∧
        (behind done (mid ++ rest) state).next.2 = behind (done ++ read) (left ++ rest) after := by
  rw [next_behind hmid, next_behind (by simp [hmid]), ← hlex]
  simp only
  rw [List.take_append_of_le_length hle, List.drop_append_of_le_length hle]
  exact ⟨rfl, _, _, _, (List.take_append_drop _ mid).symm, rfl, rfl⟩

/-- Opening braces, with all of `rest` in sight: `modeInBraces` decides how to go on. -/
theorem next_braces (done rest : List Char) (last : Option TokenKind) :
    (behind done (Delimiter.openBraces ++ rest) ⟨.template, last⟩).next
      = (⟨.interpolationOpen, ⟨utf8Len done, utf8Len (done ++ Delimiter.openBraces)⟩⟩,
          behind (done ++ Delimiter.openBraces) rest
            ⟨Lexeme.modeInBraces rest, some .interpolationOpen⟩) := by
  rw [next_behind (by simp [Delimiter.openBraces])]
  rfl

/-- A run up to where `rest` starts that gets on is one with characters ahead of `rest`, since no
token is empty in front of the end. -/
theorem startsAt_of_reads {done mid rest : List Char} {state state' : LexState} {ts : List Token}
    (h : Reads (behind done (mid ++ rest) state) ts (behind (done ++ mid) rest state')) :
    StartsAt state done (mid ++ rest) mid.length := by
  obtain ⟨m, hm, hstarts, heq⟩ := reads_startsAt h
  have hrest : rest = (mid ++ rest).drop m := congrArg (fun s => s.cursor.rest) heq
  have hlength := congrArg List.length hrest
  rw [List.length_drop, List.length_append] at hlength
  rw [List.length_append] at hm
  rwa [show m = mid.length by omega] at hstarts

/-- A run that reads a token up to where `rest` starts has characters ahead of `rest`. -/
theorem Reads.ne_nil_of_cons {done mid rest : List Char} {state state' : LexState} {t : Token}
    {ts : List Token}
    (h : Reads (Scanner.behind done (mid ++ rest) state) (t :: ts)
      (Scanner.behind (done ++ mid) rest state')) : mid ≠ [] := by
  rintro rfl
  have hlt := h.offset_lt (List.cons_ne_nil t ts)
  rw [List.append_nil] at hlt
  exact Nat.lt_irrefl _ hlt

/-- The lexeme ahead ends no later than `rest` starts, or the next place would lie behind it. -/
theorem length_le_of_startsAt {done mid rest : List Char} {state : LexState}
    (h : StartsAt state done (mid ++ rest) mid.length) (hmid : mid ≠ []) (hrest : rest ≠ []) :
    (lex state done.getLast? (mid ++ rest)).length ≤ mid.length := by
  refine h.not_inside (List.length_pos_iff.mpr hmid) ?_
  have := List.length_pos_iff.mpr hrest
  rw [List.length_append]
  omega

/-- A run up to where `rest` starts, in the first part: the same tokens are read unless there is the
word of an opening tag on the way (`AtSectionWord`). The induction is on the run. -/
theorem Reads.first_part {rest : List Char} {ts : List Token} (hrest : rest ≠ []) :
    ∀ {done mid : List Char} {state state' : LexState},
      Reads (Scanner.behind done (mid ++ rest) state) ts (Scanner.behind (done ++ mid) rest state') →
      (∀ us s, us <+: ts → Reads (Scanner.behind done (mid ++ rest) state) us s →
        ¬ s.AtSectionWord rest) →
      ∃ head, Reads (Scanner.behind done mid state) ts (Scanner.behind (done ++ mid) [] head) ∧
        SameState rest state' head := by
  induction ts with
  | nil =>
    intro done mid state state' h _
    have heq := h.eq_of_nil
    have hmid : rest = mid ++ rest := congrArg (fun s => s.cursor.rest) heq
    obtain rfl : mid = [] := List.append_left_eq_self.mp hmid.symm
    have hstate : state' = state := congrArg Scanner.state heq
    refine ⟨state, ?_, .inl hstate.symm⟩
    rw [List.append_nil]
    exact .done _
  | cons t ts ih =>
    intro done mid state state' h hword
    have hstarts := startsAt_of_reads h
    have hmid := h.ne_nil_of_cons
    have hinside := length_le_of_startsAt hstarts hmid hrest
    obtain ⟨rfl, hmove, hrun⟩ := h.of_cons
    rcases lex_first_part hmid hstarts with hsame | ⟨hcut, -⟩ | ⟨hmode, rfl, hahead⟩
    · obtain ⟨htoken, read, left, after, rfl, hhead, hfull⟩ :=
        next_first_part hmid hsame (hsame ▸ hinside)
      rw [hfull, ← List.append_assoc] at hrun
      obtain ⟨head, hrest, hstate⟩ := ih hrun fun us s hus hreach =>
        hword (_ :: us) s (List.cons_prefix_cons.mpr ⟨rfl, hus⟩)
          (.step hmove (by rw [hfull]; exact hreach))
      refine ⟨head, ?_, hstate⟩
      rw [htoken, ← List.append_assoc]
      refine .step ?_ (by rw [hhead]; exact hrest)
      rw [hfull] at hmove
      rw [hhead]
      exact hmove
    · exact absurd hcut (hword [] _ (List.nil_prefix) (.done _))
    · -- the braces of a directive, at the very end of the first part
      obtain ⟨mode, last⟩ := state
      obtain rfl : mode = .template := hmode
      rw [next_braces, hahead] at hrun
      obtain ⟨rfl, hend⟩ := hrun.eq_of_offset_eq (.done _) rfl
      have hstate : state' = ⟨.directive, some .interpolationOpen⟩ := congrArg Scanner.state hend
      have hopen := next_braces done [] last
      rw [List.append_nil] at hopen
      refine ⟨.interpolation, ?_, .inr ⟨hstate, rfl, hahead⟩⟩
      rw [next_braces] at hmove ⊢
      have hstep := Reads.step (s := Scanner.behind done Delimiter.openBraces ⟨.template, last⟩)
        (by rw [hopen]; exact hmove) (.done _)
      rw [hopen] at hstep
      exact hstep

/-- Where the first part reads the same tokens, there is no word of an opening tag on the way
(`AtSectionWord`): there it would read the tag, and the whole scan does not. -/
theorem Reads.not_atSectionWord {rest : List Char} {us : List Token} (hrest : rest ≠ []) :
    ∀ {done mid : List Char} {state state' : LexState} {ts : List Token} {s head : Scanner},
      Reads (Scanner.behind done (mid ++ rest) state) ts (Scanner.behind (done ++ mid) rest state') →
      Reads (Scanner.behind done mid state) ts head → us <+: ts →
      Reads (Scanner.behind done (mid ++ rest) state) us s → ¬ s.AtSectionWord rest := by
  induction us with
  | nil =>
    intro done mid state state' ts s head hfull hhead _ hs hcut
    obtain rfl := hs.eq_of_nil
    obtain ⟨hmode, hbad, word, hword, hsplit⟩ := hcut
    obtain rfl : mid = word := List.append_cancel_right hsplit
    have hmid : mid ≠ [] := by
      rintro rfl
      exact absurd hword (by decide)
    cases ts with
    | nil =>
      have heq := congrArg (fun s => s.cursor.rest) hfull.eq_of_nil
      exact hmid (List.append_left_eq_self.mp heq.symm)
    | cons t ts =>
      obtain ⟨rfl, -⟩ := hfull.of_cons
      obtain ⟨htoken, -⟩ := hhead.of_cons
      rw [htoken, next_behind hmid] at hbad
      obtain ⟨mode, last⟩ := state
      obtain rfl : mode = .initial := hmode
      exact Lexeme.lex_sectionTag hword last _ hbad
  | cons t us ih =>
    intro done mid state state' ts s head hfull hhead hus hs hcut
    obtain ⟨ts, rfl, hmore⟩ : ∃ more, ts = t :: more ∧ us <+: more := by
      cases ts with
      | nil => simp at hus
      | cons t' ts =>
        obtain ⟨rfl, hmore⟩ := List.cons_prefix_cons.mp hus
        exact ⟨ts, rfl, hmore⟩
    have hstarts := startsAt_of_reads hfull
    have hmid := hfull.ne_nil_of_cons
    have hinside := length_le_of_startsAt hstarts hmid hrest
    obtain ⟨rfl, hmove, hrun⟩ := hfull.of_cons
    obtain ⟨htoken, -, hheadRun⟩ := hhead.of_cons
    obtain ⟨-, -, hreach⟩ := hs.of_cons
    rcases lex_first_part hmid hstarts with hsame | ⟨⟨-, hbad, -⟩, hother⟩ | ⟨hmode, rfl, hahead⟩
    · obtain ⟨-, read, left, after, rfl, hnext, hnextFull⟩ :=
        next_first_part hmid hsame (hsame ▸ hinside)
      rw [hnextFull, ← List.append_assoc] at hrun
      rw [hnextFull] at hreach
      rw [hnext] at hheadRun
      exact ih hrun hheadRun hmore hreach hcut
    · rw [htoken, next_behind hmid] at hbad
      exact hother hbad
    · -- behind the braces the first part ends
      obtain ⟨mode, last⟩ := state
      obtain rfl : mode = .template := hmode
      rw [next_braces] at hrun hreach
      obtain ⟨rfl, -⟩ := hrun.eq_of_offset_eq (.done _) rfl
      obtain rfl := List.prefix_nil.mp hmore
      obtain rfl := hreach.eq_of_nil
      obtain ⟨-, -, word, hword, hsplit⟩ := hcut
      obtain rfl : word = [] := List.append_left_eq_self.mp hsplit.symm
      exact absurd hword (by decide)

/-! ### The second part

The whole scan and the second part see the same characters, and differ at most in their state. -/

/-- A scan is ready for a directive only where the first character of one is seen, as `modeInBraces`
looks for it. -/
def ShowsDirective (s : Scanner) : Prop :=
  s.state.mode = .directive → Lexeme.modeInBraces s.cursor.rest = .directive

theorem ShowsDirective.next {done rest : List Char} {state : LexState} (hend : rest ≠ [])
    (h : (behind done rest state).ShowsDirective) :
    (behind done rest state).next.2.ShowsDirective := by
  rw [next_behind hend]
  intro hmode
  have hstep := lex_transition state done.getLast? hend
  have hmode : (lex state done.getLast? rest).mode = .directive := hmode
  rw [hmode] at hstep
  obtain ⟨mode, last⟩ := state
  show Lexeme.modeInBraces (rest.drop (lex ⟨mode, last⟩ done.getLast? rest).length) = .directive
  generalize hkind : (lex ⟨mode, last⟩ done.getLast? rest).kind = kind at hstep
  cases hstep with
  | directiveBraces =>
    obtain ⟨rest, rfl, hahead⟩ := Lexeme.prefix_of_modeDirective hmode
    exact hahead
  | blankDirective =>
    obtain ⟨d, cs, rfl, hd⟩ := Lexeme.exists_of_modeInBraces (h rfl)
    exact absurd hkind (Lexeme.not_whitespace_inDirective hd)

/-- A scan that has read all of a window is not in the mode `.directive`, since it has not seen the
character. -/
theorem Reads.mode_ne_directive {cs : List Char} {ts : List Token} {s' : Scanner}
    (h : Reads (Scanner.behind [] cs .initial) ts s') (hend : s'.cursor.rest = []) :
    s'.state.mode ≠ .directive := by
  intro hmode
  have hshows := h.preserves (P := ShowsDirective) (fun _ _ _ => ShowsDirective.next)
    (fun hmode => by cases hmode)
  have hahead := hshows hmode
  rw [hend] at hahead
  cases hahead

/-- The second part reads on as the whole scan does, unless a directive keyword stands ahead: behind
any other token the two states are the same. -/
theorem Reads.second_part {done rest : List Char} {full head : LexState} {ts : List Token}
    {s' : Scanner} (hsame : SameState rest full head)
    (hplain : (Scanner.behind done rest full).next.1.kind.isDirective = false)
    (h : Reads (Scanner.behind done rest full) ts s') (hend : s'.cursor.rest = []) :
    Reads (Scanner.behind done rest head) ts s' := by
  rcases hsame with rfl | ⟨rfl, rfl, hahead⟩
  · exact h
  · obtain ⟨d, cs, rfl, hd⟩ := Lexeme.exists_of_modeInBraces hahead
    have hlex : lex ⟨.directive, some .interpolationOpen⟩ done.getLast? (d :: cs)
        = lex .interpolation done.getLast? (d :: cs) := by
      rw [next_behind (List.cons_ne_nil d cs)] at hplain
      exact Lexeme.inDirective_of_plain hd hplain
    have hnext : (Scanner.behind done (d :: cs) ⟨.directive, some .interpolationOpen⟩).next
        = (Scanner.behind done (d :: cs) .interpolation).next := by
      rw [next_behind (List.cons_ne_nil d cs), next_behind (List.cons_ne_nil d cs), hlex]
      rfl
    -- the two states read the same token first, and behind it nothing tells them apart
    cases ts with
    | nil =>
      rw [h.eq_of_nil] at hend
      cases hend
    | cons t ts =>
      obtain ⟨rfl, hmove, hrun⟩ := h.of_cons
      rw [hnext] at hmove hrun ⊢
      exact .step hmove hrun

end Scanner

/-! ### Both parts

A cut at a token boundary splits the source into `mid` and `rest` and the tokens into `us` and `vs`.
-/

/-- The scan of `source` comes to the place `s` after some number of calls. -/
def OnTheWay (source : String) (s : Scanner) : Prop :=
  ∃ ts, (Scanner.ofSource source).Reads ts s

/-- The end of a window at `cut` hides what a rule looks for: a directive keyword starts there, or
the word of an opening tag ends there and does not open a section. -/
def HidesAhead (source : String) (cut : Nat) : Prop :=
  ∃ s, OnTheWay source s ∧
    (s.offset = cut ∧ s.next.1.kind.isDirective = true ∨
      s.state.mode = .initial ∧ s.next.1.kind = .badCharacter ∧
        ((Span.mk s.offset cut).text source).toList ∈ Lexeme.sectionTags)

/-- A scan of `source` that is stopped at `cut` and taken up again there, in the state it was left
in, reads the tokens `all`, the last of which is `eof`. -/
def Resumes (source : String) (cut : Nat) (all : Array Token) : Prop :=
  ∃ head tail, scan? source 0 cut .initial = some head ∧ head.offset = cut ∧
    scan? source head.offset source.utf8ByteSize head.state = some tail ∧
    head.tokens ++ tail.tokens = all.pop

namespace Scanner

/-- A token of a run (`Reads`) starts at a place of the run, so the run can be split there. -/
theorem Reads.split_at {s s' : Scanner} {ts : List Token} {t : Token} (h : Reads s ts s')
    (ht : t ∈ ts) : ∃ us vs place, ts = us ++ vs ∧ Reads s us place ∧ Reads place vs s' ∧
      place.offset = t.span.start := by
  obtain ⟨us, vs, rfl⟩ := List.append_of_mem ht
  obtain ⟨place, hus, hvs⟩ := h.split
  refine ⟨us, t :: vs, place, rfl, hus, hvs, ?_⟩
  rw [hvs.of_cons.1, span_next_start]

end Scanner

/-- A scan of `source` that has come to where `rest` starts, and goes on from there to the end. -/
structure Cut (source : String) (mid rest : List Char) (us vs : List Token) where
  state : LexState
  stop : Scanner
  source_eq : source.toList = mid ++ rest
  before : Scanner.Reads (.behind [] (mid ++ rest) .initial) us (.behind mid rest state)
  behind : Scanner.Reads (.behind mid rest state) vs stop
  ends : stop.cursor.rest = []

namespace Cut

variable {source : String} {mid rest : List Char} {us vs : List Token}

theorem ofSource_eq (c : Cut source mid rest us vs) :
    Scanner.ofSource source = .behind [] (mid ++ rest) .initial := by
  rw [Scanner.ofSource_eq_behind, c.source_eq]

/-- The window of the first part: all of `mid`, and nothing behind it. -/
theorem ofRange_head (c : Cut source mid rest us vs) :
    Scanner.ofRange source 0 (utf8Len mid) .initial = .behind [] mid .initial := by
  have hwindow := Cursor.ofRange_of_split [] mid rest c.source_eq
  rw [String.utf8Len_nil, List.nil_append] at hwindow
  rw [Scanner.ofRange, hwindow, Scanner.behind]

/-- The window of the second part: all of `rest`, with `mid` behind the cursor. -/
theorem ofRange_tail (c : Cut source mid rest us vs) (state : LexState) :
    Scanner.ofRange source (utf8Len mid) source.utf8ByteSize state = .behind mid rest state := by
  have hwindow := Cursor.ofRange_of_split mid rest [] (by rw [c.source_eq, List.append_nil])
  rw [← c.source_eq, String.utf8Len_toList] at hwindow
  rw [Scanner.ofRange, hwindow, Scanner.behind]

/-- Stopping and resuming, as two runs in the windows of `ofRange_head` and `ofRange_tail`. -/
theorem resumes_iff_reads (c : Cut source mid rest us vs) (eof : Token) :
    Resumes source (utf8Len mid) (us ++ vs ++ [eof]).toArray ↔
      ∃ head tail, Scanner.Reads (.behind [] mid .initial) us head ∧ head.cursor.rest = [] ∧
        Scanner.Reads (.behind mid rest head.state) vs tail ∧ tail.cursor.rest = [] := by
  have hpop : (us ++ vs ++ [eof]).toArray.pop = (us ++ vs).toArray := by simp
  unfold Resumes
  rw [hpop]
  constructor
  · rintro ⟨head, tail, hhead, hoffset, htail, htokens⟩
    rw [Scanner.scan?_eq_some_iff, c.ofRange_head] at hhead
    rw [hoffset, Scanner.scan?_eq_some_iff, c.ofRange_tail] at htail
    obtain ⟨sh, hh, hhend, hhstate, hhoffset⟩ := hhead
    obtain ⟨st, ht, htend, -, -⟩ := htail
    have hlist : head.tokens.toList ++ tail.tokens.toList = us ++ vs := by
      rw [← Array.toList_append, htokens]
    -- the whole scan comes to the cut with the tokens of the first part
    have hfull := c.before.trans c.behind
    rw [← hlist] at hfull
    obtain ⟨sx, hx, -⟩ := hfull.split
    have hcut : sx.offset = (Scanner.behind mid rest c.state).offset := by
      rw [hx.offset_eq hh rfl, ← hhoffset, hoffset]
      rfl
    obtain ⟨hsame, -⟩ := hx.eq_of_offset_eq c.before hcut
    rw [hsame] at hlist hh
    rw [List.append_cancel_left hlist, hhstate] at ht
    exact ⟨sh, st, hh, hhend, ht, htend⟩
  · rintro ⟨head, tail, hh, hhend, ht, htend⟩
    have hoffset : head.offset = utf8Len mid := hh.offset_eq c.before rfl
    refine ⟨⟨us.toArray, head.state, head.offset⟩, ⟨vs.toArray, tail.state, tail.offset⟩, ?_, hoffset,
      ?_, by simp⟩
    · rw [Scanner.scan?_eq_some_iff, c.ofRange_head]
      exact ⟨head, by simpa using hh, hhend, rfl, rfl⟩
    · rw [hoffset, Scanner.scan?_eq_some_iff, c.ofRange_tail]
      exact ⟨tail, by simpa using ht, htend, rfl, rfl⟩

/-- The text of a span that ends at the cut is the end of `mid`. -/
theorem text_eq (c : Cut source mid rest us vs) {done word : List Char} (h : mid = done ++ word) :
    ((Span.mk (utf8Len done) (utf8Len mid)).text source).toList = word := by
  have htext := Span.text_of_split done word rest (by rw [c.source_eq, h])
  rw [← String.utf8Len_append, ← h] at htext
  rw [htext, String.toList_ofList]

/-- What the cut hides, read off the run up to it: the next token and the last one tell. -/
theorem hidesAhead_iff (c : Cut source mid rest us vs) :
    HidesAhead source (utf8Len mid) ↔
      (Scanner.behind mid rest c.state).next.1.kind.isDirective = true ∨
        ∃ ts s, ts <+: us ∧ Scanner.Reads (.behind [] (mid ++ rest) .initial) ts s ∧
          s.AtSectionWord rest := by
  unfold HidesAhead OnTheWay
  rw [c.ofSource_eq]
  constructor
  -- the place stands at the cut itself, or in front of the word of an opening tag that ends there
  · rintro ⟨s, ⟨ts, hts⟩, ⟨hoffset, hdirective⟩ | ⟨hmode, hbad, hword⟩⟩
    · left
      obtain ⟨-, rfl⟩ := hts.eq_of_offset_eq c.before hoffset
      exact hdirective
    · right
      -- a word that spans the cut ends behind it, so its scanner stands at or before the cut
      have hle : s.offset ≤ (Scanner.behind mid rest c.state).offset := by
        by_contra hbeyond
        have hle : utf8Len mid ≤ s.offset := Nat.le_of_lt (Nat.lt_of_not_le hbeyond)
        rw [Span.text_of_le source hle] at hword
        exact absurd hword (by decide)
      obtain ⟨more, rfl, hmore⟩ := hts.prefix_of_offset_le c.before hle
      refine ⟨ts, s, List.prefix_append _ _, hts, hmode, hbad, ?_⟩
      obtain ⟨done, ahead, hsplit, hs⟩ := hts.exists_behind
      rw [List.nil_append] at hs
      rw [hs] at hmore hword ⊢
      obtain ⟨word, left, rfl, hend⟩ := hmore.exists_behind
      obtain rfl : rest = left := congrArg (fun s => s.cursor.rest) hend
      -- both spans of the word end at the cut, and its text is what stands between
      have hmid : mid = done ++ word :=
        List.append_cancel_right (hsplit.trans (List.append_assoc done word rest).symm)
      rw [Scanner.behind_offset, c.text_eq hmid] at hword
      exact ⟨word, hword, rfl⟩
  -- back, the scanner at the cut or the one before the word is the witness
  · rintro (hdirective | ⟨ts, s, -, hts, hmode, hbad, word, hword, hahead⟩)
    · exact ⟨_, ⟨us, c.before⟩, .inl ⟨rfl, hdirective⟩⟩
    · refine ⟨s, ⟨ts, hts⟩, .inr ⟨hmode, hbad, ?_⟩⟩
      obtain ⟨done, ahead, hsplit, hs⟩ := hts.exists_behind
      rw [List.nil_append] at hs
      rw [hs] at hahead ⊢
      have hahead : ahead = word ++ rest := hahead
      have hmid : mid = done ++ word := by
        have hwhole : mid ++ rest = done ++ word ++ rest := by
          rw [hsplit, hahead, List.append_assoc]
        exact List.append_cancel_right hwhole
      show ((Span.mk (utf8Len done) (utf8Len mid)).text source).toList ∈ _
      rw [c.text_eq hmid]
      exact hword

/-- The two parts read the tokens of the whole scan exactly if the cut hides nothing, by
`Reads.first_part` and `Reads.second_part`. -/
theorem reads_iff (c : Cut source mid rest us vs) :
    (∃ head tail, Scanner.Reads (.behind [] mid .initial) us head ∧ head.cursor.rest = [] ∧
        Scanner.Reads (.behind mid rest head.state) vs tail ∧ tail.cursor.rest = []) ↔
      ¬ HidesAhead source (utf8Len mid) := by
  rw [c.hidesAhead_iff]
  constructor
  · rintro ⟨head, tail, hh, hhend, ht, htend⟩ (hdirective | ⟨ts, s, hts, hs, hcut⟩)
    · -- the second part reads the keyword, so the first one has seen it
      have hrest : rest ≠ [] := by
        rintro rfl
        rw [Scanner.next_of_end rfl] at hdirective
        cases hdirective
      cases vs with
      | nil =>
        have hstop := c.ends
        rw [c.behind.eq_of_nil] at hstop
        exact hrest hstop
      | cons t vs =>
        obtain ⟨hfull, -⟩ := c.behind.of_cons
        obtain ⟨htoken, -⟩ := ht.of_cons
        rw [← hfull, htoken, Scanner.next_behind hrest] at hdirective
        have hmode := (lex_transition head.state mid.getLast? hrest).eq_directive hdirective
        exact hh.mode_ne_directive hhend hmode
    · by_cases hrest : rest = []
      · subst hrest
        obtain ⟨done, ahead, -, hahead⟩ := hs.exists_behind
        obtain ⟨hmode, hbad, word, hword, hsplit⟩ := hcut
        generalize hstate : s.state = state at hahead hmode
        subst hahead
        obtain rfl : ahead = word := hsplit.trans (List.append_nil word)
        obtain ⟨mode, last⟩ := state
        obtain rfl : mode = .initial := hmode
        rw [Scanner.next_behind (by rintro rfl; exact absurd hword (by decide))] at hbad
        exact Lexeme.lex_sectionTag hword last _ hbad
      · exact Scanner.Reads.not_atSectionWord hrest c.before hh hts hs hcut
  · intro hno
    by_cases hrest : rest = []
    · subst hrest
      have hbefore := c.before
      rw [List.append_nil] at hbefore
      exact ⟨_, c.stop, hbefore, rfl, c.behind, c.ends⟩
    · obtain ⟨head, hhead, hsame⟩ := Scanner.Reads.first_part hrest c.before
        fun ts s hts hs hcut => hno (.inr ⟨ts, s, hts, hs, hcut⟩)
      have hplain : (Scanner.behind mid rest c.state).next.1.kind.isDirective = false := by
        by_contra hdirective
        exact hno (.inl (by simpa using hdirective))
      exact ⟨_, c.stop, hhead, rfl, c.behind.second_part hsame hplain c.ends, c.ends⟩

end Cut

/-- **Stopping and resuming.** A scan that is stopped at a token boundary and resumed with the
returned state reads the tokens of an uninterrupted scan, unless the end of the first part hides
(`HidesAhead`) a directive keyword or the rest of a word that starts like an opening tag. -/
theorem resumes_iff {source : String} {all : Array Token} {cut : Nat}
    (hall : tokenize? source = some all) (hcut : ∃ t ∈ all, t.span.start = cut) :
    Resumes source cut all ↔ ¬ HidesAhead source cut := by
  obtain ⟨ts, s', hrun, hend, rfl⟩ := Scanner.tokenize?_eq_some_iff.mp hall
  -- the place of the cut splits the run, and the source
  obtain ⟨us, vs, place, rfl, hus, hvs, hplace⟩ : ∃ us vs place, ts = us ++ vs ∧
      (Scanner.ofSource source).Reads us place ∧ place.Reads vs s' ∧ place.offset = cut := by
    obtain ⟨t, ht, rfl⟩ := hcut
    rcases List.mem_append.mp (List.mem_toArray.mp ht) with ht | ht
    · exact hrun.split_at ht
    · rw [List.mem_singleton.mp ht]
      exact ⟨ts, [], s', (List.append_nil ts).symm, hrun, .done s', rfl⟩
  rw [Scanner.ofSource_eq_behind] at hus
  obtain ⟨mid, rest, hsource, hbehind⟩ := hus.exists_behind
  rw [List.nil_append] at hbehind
  rw [hbehind] at hus hvs hplace
  rw [hsource] at hus
  let c : Cut source mid rest us vs := ⟨place.state, s', hsource, hus, hvs, hend⟩
  obtain rfl : utf8Len mid = cut := hplace
  rw [c.resumes_iff_reads, c.reads_iff]

/-- A name that starts like a tag, cut behind the start: the first part takes it for the tag. -/
theorem not_resumes_word :
    ∃ all, tokenize? (String.ofList (Delimiter.scriptTag ++ ['y'])) = some all ∧
      ¬ Resumes (String.ofList (Delimiter.scriptTag ++ ['y'])) 7 all := by
  have hsource : Scanner.ofSource (String.ofList (Delimiter.scriptTag ++ ['y']))
      -- `<script` alone may still become a tag; with a `y` behind it, it never does
      = .behind [] (Delimiter.scriptTag ++ ['y']) .initial := by
    rw [Scanner.ofSource_eq_behind, String.toList_ofList]
  have hrun := Scanner.reads_takeUntilEnd 8
    (.behind [] (Delimiter.scriptTag ++ ['y']) .initial) (by decide +kernel)
  rw [← hsource] at hrun
  have hall := Scanner.tokenize?_eq_some_iff.mpr ⟨_, _, hrun, by rw [hsource]; decide +kernel, rfl⟩
  refine ⟨_, hall, fun hresumes => ?_⟩
  refine (resumes_iff hall ⟨⟨.badCharacter, ⟨7, 8⟩⟩, ?_, rfl⟩).mp hresumes
    ⟨_, ⟨[], .done _⟩, .inr ⟨?_, ?_, ?_⟩⟩
  · rw [hsource]
    decide +kernel
  · rfl
  · rw [hsource]
    decide +kernel
  · rw [hsource]
    have htext : (Span.mk 0 7).text (String.ofList (Delimiter.scriptTag ++ ['y']))
        = String.ofList Delimiter.scriptTag :=
      Span.text_of_split [] Delimiter.scriptTag ['y'] String.toList_ofList
    show ((Span.mk 0 7).text _).toList ∈ _
    rw [htext, String.toList_ofList]
    decide

end RsxInspect
