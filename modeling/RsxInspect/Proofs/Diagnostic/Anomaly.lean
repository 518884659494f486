import RsxInspect.Proofs.Template.Value

/-!
# Lexical problems and the scan

The scan looks for the mark that closes a string, a quoted value, a value in braces or a comment,
and forgets whether it found it. The lexical problem of a token is decided from its text alone
(`lexicalProblem?`): from the parity of the backslashes at its end, from the mark it ends with, from
its size. Both agree (`anomaly_iff`): a token has such a problem exactly if its search failed, and
then it ends with the range of the scan.

`Lexeme.Search` is the search made for a token. `Quoted.terminated_extent` and `Text.endsWith_past`
compare it with what the text shows, for quotes and for marks, `Lexeme.problem_taken` is the
agreement for one lexeme, and `Scanner.problem_next` that for one call.
-/

namespace RsxInspect

open String (utf8Len)

/-! ### Quotes

For a quote the text does not show at once where the search ended: a quote at its end may be
escaped. `Quoted.terminated` counts the backslashes in front of it, and `terminated_extent` says
that this is what the search found. -/

namespace Quoted

variable {escapes : Bool} {quote : Char}

/-- A literal without its closing quote takes all that lies ahead, by recursion over it as in
`Quoted.body`. -/
theorem length_body_of_open :
    ∀ {cs : List Char}, (body escapes quote cs).closed = false →
      (body escapes quote cs).length = cs.length
  | [], _ => rfl
  | c :: cs, h => by
    rw [body_cons] at h ⊢
    split at h
    · cases h
    · rename_i hquote
      rw [if_neg hquote]
      -- an escape skips two characters, so the recursion is on what stands behind both of them
      split at h
      · rename_i hescape
        rw [if_pos hescape]
        match cs with
        | [] => simp
        | d :: cs =>
          have hbehind := length_body_of_open h
          simp only [List.length_cons]
          omega
      · rename_i hescape
        have hbehind := length_body_of_open h
        rw [if_neg hescape, List.length_cons]
        simp only
        omega

/-- A closed literal is closed at its end, whatever stands behind it, so `body` of what is taken
finds the same. -/
theorem body_take_self :
    ∀ {cs : List Char}, (body escapes quote cs).closed = true →
      body escapes quote (cs.take (body escapes quote cs).length) = body escapes quote cs
  | [], _ => rfl
  | c :: cs, h => by
    rw [body_cons] at h ⊢
    split at h
    · rename_i hquote
      rw [if_pos hquote, List.take_succ_cons, body_cons, if_pos hquote]
    · rename_i hquote
      rw [if_neg hquote]
      -- the same three branches as `body_cons`; only the prefix kept by `take` has to be re-folded
      split at h
      · rename_i hescape
        rw [if_pos hescape]
        match cs with
        | [] => cases h
        | d :: cs =>
          have hbehind := body_take_self h
          simp only [Nat.add_comm 2, List.take_succ_cons]
          rw [body_cons, if_neg hquote, if_pos hescape]
          simp only [hbehind, Nat.add_comm 2]
      · rename_i hescape
        have hbehind := body_take_self h
        rw [if_neg hescape]
        simp only [Nat.add_comm 1, List.take_succ_cons]
        rw [body_cons, if_neg hquote, if_neg hescape, hbehind, Nat.add_comm 1]

/-- Without escapes a literal that closes at its end has its quote there, and nowhere before. -/
theorem getLast?_of_body :
    ∀ {cs : List Char}, body false quote cs = ⟨cs.length, true⟩ → cs.getLast? = some quote
  | [], h => by cases h
  | c :: cs, h => by
    rw [body_cons] at h
    split at h
    · rename_i hquote
      have hlength : 1 = cs.length + 1 := congrArg Extent.length h
      obtain rfl : cs = [] := List.length_eq_zero_iff.mp (by omega)
      rw [beq_iff_eq.mp hquote]
      simp
    · simp only [Bool.false_and, Bool.false_eq_true, if_false, Extent.mk.injEq,
        List.length_cons] at h
      have hbehind : body false quote cs = ⟨cs.length, true⟩ := by
        rw [← h.2, show cs.length = (body false quote cs).length by omega]
      exact (getLast?_cons_of_some (getLast?_of_body hbehind)).1

theorem terminated_of_whole {cs : List Char} (h : body escapes quote cs = ⟨cs.length, true⟩) :
    terminated escapes (quote :: cs) = true := by
  cases escapes with
  | true => exact terminated_of_body h
  | false => simp [terminated, getLast?_of_body h]

/-- **The two views of a literal agree.** What the scan takes for a literal (`extent`) looks
`terminated` exactly if the scan found the closing quote. -/
theorem terminated_extent {cs : List Char} (hcs : cs ≠ []) :
    terminated escapes (cs.take (extent escapes cs).length) = (extent escapes cs).closed := by
  cases cs with
  | nil => exact absurd rfl hcs
  | cons quote cs =>
    rw [extent_cons, Nat.add_comm, List.take_succ_cons]
    show _ = (body escapes quote cs).closed
    -- closed: the taken prefix ends exactly at the closing quote; open: it runs to the end of the
    -- text, where an ending quote could only be the opening one or an escaped one
    cases hclosed : (body escapes quote cs).closed with
    | true =>
      have hself := body_take_self hclosed
      have hle : (body escapes quote cs).length ≤ cs.length := by
        have hall : (body escapes quote (cs.take cs.length)).length = _ := body_take
        rw [List.take_length] at hall
        omega
      refine terminated_of_whole ?_
      rw [hself, List.length_take_of_le hle, ← hclosed]
    | false =>
      rw [length_body_of_open hclosed, List.take_length, terminated, Bool.eq_false_iff]
      intro hends
      rw [Bool.and_eq_true, beq_iff_eq, Bool.or_eq_true, Bool.not_eq_true', beq_iff_eq] at hends
      refine not_terminated_of_bodyFrom hclosed ⟨hends.1, fun hescapes => ?_⟩
      simpa [hescapes] using hends.2

/-- A literal whose `Quoted.extent` is not closed takes all that lies ahead. -/
theorem length_extent_of_open {cs : List Char} (h : (extent escapes cs).closed = false) :
    (extent escapes cs).length = cs.length := by
  cases cs with
  | nil => rfl
  | cons quote cs =>
    rw [extent_cons] at h ⊢
    rw [length_body_of_open h, List.length_cons, Nat.add_comm]

end Quoted

/-! ### Marks

For a mark it is enough to look at the end: the search stops right behind the first mark, so the
text ends with one exactly if there was one (`endsWith_past`). Only a mark that could overlap with
the opening one needs a look at the size. -/

namespace Text

variable {mark cs : List Char}

/-- What runs past a mark (`Text.past`) ends with it exactly if the mark was found. -/
theorem endsWith_past (hmark : mark ≠ []) :
    endsWith mark (cs.take (past mark cs).length) = (past mark cs).closed := by
  unfold past
  cases hindex : indexOf? mark cs with
  | some k =>
    obtain ⟨hstands, -⟩ := (indexOf?_eq_some_iff hmark).mp hindex
    show endsWith mark (cs.take (k + mark.length)) = true
    rw [endsWith_iff, List.take_add, ← List.prefix_iff_eq_take.mp hstands]
    exact List.suffix_append _ _
  | none =>
    show endsWith mark (cs.take cs.length) = false
    rw [Bool.eq_false_iff, ne_eq, endsWith_iff, List.take_length]
    exact fun hends => not_infix_of_none hmark hindex hends.isInfix

theorem length_past_of_open (h : (past mark cs).closed = false) :
    (past mark cs).length = cs.length := by
  unfold past at h ⊢
  cases hindex : indexOf? mark cs with
  | some k => simp [hindex] at h
  | none => simp

end Text

/-! ### The search for the closing mark

`Search` relates a lexeme to the search that was made for it, and `Due` says which problem a search
that failed should be reported as. The two lemmas at the end, for a mark that was passed and one
that was missed, are what `problem_taken` is put together from. -/

namespace Lexeme

/-- The search `e` that is made on `cs` for the mark which closes a token of the given kind, and the
kind of `problem` if it fails. -/
inductive Search : TokenKind → List Char → DiagnosticKind → Extent → Prop where
  | string (cs : List Char) : Search .string cs .unterminatedString (Quoted.extent true cs)
  | braces {cs : List Char} (h : Delimiter.openBraces <+: cs) :
      Search .attrValue cs .unterminatedInterpolation (Text.past Delimiter.closeBraces cs)
  | quoted {cs : List Char} (h : cs.head?.any isQuote = true) :
      Search .attrValue cs .unterminatedString (Quoted.extent false cs)
  | comment (cs : List Char) :
      Search .comment cs .unterminatedComment
        ⟨4 + (Text.past Delimiter.commentClose (cs.drop 4)).length,
          (Text.past Delimiter.commentClose (cs.drop 4)).closed⟩

variable {cs : List Char} {kind : TokenKind} {problem : DiagnosticKind} {e : Extent}

/-- Braces are no quote. -/
theorem not_quote_of_braces (h : Delimiter.openBraces <+: cs) :
    ¬ cs.head?.any isQuote = true := by
  obtain ⟨rest, rfl⟩ := h
  simp [Delimiter.openBraces, isQuote]

theorem Search.unique {problem' : DiagnosticKind} {e' : Extent} (h : Search kind cs problem e)
    (h' : Search kind cs problem' e') : problem = problem' ∧ e = e' := by
  cases h with
  | string | comment =>
    cases h'
    exact ⟨rfl, rfl⟩
  | braces hbraces =>
    cases h' with
    | braces => exact ⟨rfl, rfl⟩
    | quoted hquote => exact absurd hquote (not_quote_of_braces hbraces)
  | quoted hquote =>
    cases h' with
    | braces hbraces => exact absurd hquote (not_quote_of_braces hbraces)
    | quoted => exact ⟨rfl, rfl⟩

theorem length_of_comment :
    (inTemplate cs).kind = .comment →
      (inTemplate cs).length = 4 + (Text.past Delimiter.commentClose (cs.drop 4)).length := by
  unfold inTemplate templateCloseOr blanksOr
  repeat' split
  all_goals first
    | exact fun _ => rfl
    | (intro h; cases h)

/-- A comment is long enough and ends with its mark exactly if the search for the mark, behind the
opening one, found it: the marks of `<!-->` overlap, and it is not closed. -/
theorem closed_comment (hopen : Delimiter.commentOpen <+: cs) :
    let e := Text.past Delimiter.commentClose (cs.drop 4)
    let chars := cs.take (4 + e.length)
    ((String.ofList chars).utf8ByteSize < 7 || !endsWith Delimiter.commentClose chars)
      = !e.closed := by
  intro e chars
  obtain ⟨rest, rfl⟩ := hopen
  have he : e = Text.past Delimiter.commentClose rest := rfl
  have hchars : chars = Delimiter.commentOpen ++ rest.take e.length := by
    show (Delimiter.commentOpen ++ rest).take (Delimiter.commentOpen.length + e.length) = _
    rw [List.take_length_add_append]
  have hends : endsWith Delimiter.commentClose (rest.take (Text.past _ rest).length) = _ :=
    Text.endsWith_past (by decide)
  rw [← he] at hends
  -- the size test is needed in the open case, where `<!-->` ends with `-->` yet shares its dashes
  cases hclosed : e.closed with
  | true =>
    rw [hclosed, endsWith_iff] at hends
    obtain ⟨inner, hinner⟩ := hends
    have hsize : ¬ (String.ofList chars).utf8ByteSize < 7 := by
      rw [hchars, ← hinner, String.utf8ByteSize_ofList, String.utf8Len_append,
        String.utf8Len_append]
      have hopen : utf8Len Delimiter.commentOpen = 4 := by decide
      have hclose : utf8Len Delimiter.commentClose = 3 := by decide
      omega
    have hlast : endsWith Delimiter.commentClose chars = true := by
      rw [hchars, ← hinner, endsWith_iff, ← List.append_assoc]
      exact List.suffix_append _ _
    simp [hsize, hlast]
  | false =>
    rw [hclosed, Bool.eq_false_iff, ne_eq, endsWith_iff] at hends
    rw [Bool.not_false, Bool.or_eq_true, decide_eq_true_iff, Bool.not_eq_true']
    by_contra hgood
    rw [not_or, Bool.not_eq_false] at hgood
    obtain ⟨hsize, hlast⟩ := hgood
    have hopen : Delimiter.commentOpen <+: chars := hchars ▸ List.prefix_append _ _
    obtain ⟨inner, hinner⟩ := exists_between hopen hlast (seven_le_of_comment hopen hlast hsize)
    rw [hchars, List.append_assoc] at hinner
    exact hends ⟨inner, (List.append_cancel_left hinner).symm⟩

/-- The search that is made for a lexeme delimits it: `Lexeme.length` is what the search took. -/
theorem Search.length_eq {state : LexState} {before : Option Char} (hcs : cs ≠ [])
    (h : Search (lex state before cs).kind cs problem e) :
    (lex state before cs).length = e.length := by
  have htakes := takesLiteral_lex state before hcs
  generalize hkind : (lex state before cs).kind = kind at h
  cases h with
  | string => exact htakes.string hkind
  | braces hbraces => exact length_of_bracedValue hcs hkind hbraces
  | quoted hquote => exact htakes.value hkind hquote
  | comment =>
    -- comments are read in markup only
    have hstep := lex_transition state before hcs
    obtain ⟨mode, last⟩ := state
    rw [hkind] at hstep
    generalize (lex ⟨mode, last⟩ before cs).mode = n at hstep
    cases hstep with
    | comment => exact length_of_comment hkind
    | expression h | plainExpression h | keyword h => exact absurd h (by decide)

/-- A `Search` that fails takes all that lies ahead, so the lexeme ends with the window. -/
theorem Search.length_of_failed (h : Search kind cs problem e)
    (hcomment : kind = .comment → Delimiter.commentOpen <+: cs) (hopen : e.closed = false) :
    e.length = cs.length := by
  cases h with
  | string => exact Quoted.length_extent_of_open hopen
  | braces => exact Text.length_past_of_open hopen
  | quoted => exact Quoted.length_extent_of_open hopen
  | comment =>
    have hroom : 4 ≤ cs.length := (hcomment rfl).length_le
    show 4 + (Text.past _ _).length = _
    rw [Text.length_past_of_open hopen, List.length_drop]
    omega

/-- A problem is due to a bad character or to a failed `Search`. -/
def Due (kind : TokenKind) (cs : List Char) (problem : DiagnosticKind) : Prop :=
  problem = .badCharacter ∧ kind = .badCharacter ∨
    ∃ e, Search kind cs problem e ∧ e.closed = false

/-- Where a `Search` is made, its outcome decides whether a problem is `Due`. -/
theorem due_iff {tested : DiagnosticKind} (h : Search kind cs tested e) :
    Due kind cs problem ↔ problem = tested ∧ e.closed = false := by
  constructor
  · rintro (⟨-, rfl⟩ | ⟨e', hmade, hopen⟩)
    · cases h
    · obtain ⟨rfl, rfl⟩ := hmade.unique h
      exact ⟨rfl, hopen⟩
  · rintro ⟨rfl, hopen⟩
    exact .inr ⟨e, h, hopen⟩

theorem not_due (hkind : kind ≠ .badCharacter) (hnone : ∀ problem e, ¬ Search kind cs problem e) :
    ¬ Due kind cs problem := by
  rintro (⟨-, hbad⟩ | ⟨e, hmade, -⟩)
  · exact hkind hbad
  · exact hnone problem e hmade

theorem due_badCharacter : Due kind cs .badCharacter ↔ kind = .badCharacter := by
  constructor
  · rintro (⟨-, hkind⟩ | ⟨e, hmade, -⟩)
    · exact hkind
    · cases hmade
  · exact fun hkind => .inl ⟨rfl, hkind⟩

theorem due_unterminatedString : Due kind cs .unterminatedString ↔
    kind = .string ∧ (Quoted.extent true cs).closed = false ∨
      kind = .attrValue ∧ cs.head?.any isQuote = true ∧
        (Quoted.extent false cs).closed = false := by
  constructor
  · rintro (⟨hproblem, -⟩ | ⟨e, hmade, hopen⟩)
    · cases hproblem
    · cases hmade with
      | string => exact .inl ⟨rfl, hopen⟩
      | quoted hquote => exact .inr ⟨rfl, hquote, hopen⟩
  · rintro (⟨rfl, hopen⟩ | ⟨rfl, hquote, hopen⟩)
    · exact .inr ⟨_, .string cs, hopen⟩
    · exact .inr ⟨_, .quoted hquote, hopen⟩

theorem due_unterminatedInterpolation : Due kind cs .unterminatedInterpolation ↔
    kind = .attrValue ∧ Delimiter.openBraces.isPrefixOf cs = true ∧
      (Text.past Delimiter.closeBraces cs).closed = false := by
  rw [List.isPrefixOf_iff_prefix]
  constructor
  · rintro (⟨hproblem, -⟩ | ⟨e, hmade, hopen⟩)
    · cases hproblem
    · cases hmade with
      | braces hbraces => exact ⟨rfl, hbraces, hopen⟩
  · rintro ⟨rfl, hbraces, hopen⟩
    exact .inr ⟨_, .braces hbraces, hopen⟩

theorem due_unterminatedComment : Due kind cs .unterminatedComment ↔
    kind = .comment ∧ (Text.past Delimiter.commentClose (cs.drop 4)).closed = false := by
  constructor
  · rintro (⟨hproblem, -⟩ | ⟨e, hmade, hopen⟩)
    · cases hproblem
    · cases hmade with
      | comment => exact ⟨rfl, hopen⟩
  · rintro ⟨rfl, hopen⟩
    exact .inr ⟨_, .comment cs, hopen⟩

/-- There are no other problems that can be `Due`. -/
theorem Due.mem (h : Due kind cs problem) : problem ∈ [DiagnosticKind.badCharacter,
    .unterminatedString, .unterminatedInterpolation, .unterminatedComment] := by
  rcases h with ⟨rfl, -⟩ | ⟨e, hmade, -⟩
  · simp
  · cases hmade <;> simp

theorem kind_of_passed {p : Problem} {b : Bool} :
    (if b = true then none else some p).map Problem.kind = some problem
      ↔ problem = p.kind ∧ b = false := by
  cases b <;> simp [eq_comm]

theorem kind_of_missed {p : Problem} {b : Bool} :
    (if (!b) = true then some p else none).map Problem.kind = some problem
      ↔ problem = p.kind ∧ b = false := by
  cases b <;> simp [eq_comm]

/-- **The text that a search delimits** has a problem exactly if the search fails: `lexicalProblem?`
looks at the text that was taken, and `Due` at the search in what lay ahead. -/
theorem problem_taken {n : Nat} (hcs : cs ≠ [])
    (hcomment : kind = .comment → Delimiter.commentOpen <+: cs)
    (hn : ∀ problem e, Search kind cs problem e → n = e.length) :
    (lexicalProblem? kind (String.ofList (cs.take n))).map Problem.kind = some problem
      ↔ Due kind cs problem := by
  unfold lexicalProblem?
  rw [String.toList_ofList]
  -- one case for each kind that can have a problem; `hn` hands over the length of its search
  cases kind with
  | badCharacter =>
    constructor
    · intro h
      exact .inl ⟨by simpa [Problem.kind, eq_comm] using h, rfl⟩
    · rintro (⟨rfl, -⟩ | ⟨e, hmade, -⟩)
      · simp [Problem.kind]
      · cases hmade
  | string =>
    obtain rfl := hn _ _ (.string cs)
    dsimp only
    rw [Quoted.terminated_extent hcs, kind_of_passed, due_iff (.string cs)]
    simp [Problem.kind]
  | attrValue =>
    dsimp only
    by_cases hbraces : Delimiter.openBraces <+: cs
    · obtain rfl := hn _ _ (.braces hbraces)
      have hroom : 2 ≤ (Text.past Delimiter.closeBraces cs).length :=
        Text.le_past (by decide) hbraces.length_le
      rw [isPrefixOf_take_of_le hroom, if_pos (List.isPrefixOf_iff_prefix.mpr hbraces),
        Text.endsWith_past (by decide), kind_of_passed, due_iff (.braces hbraces)]
      simp [Problem.kind]
    · have hnone : ¬ Delimiter.openBraces.isPrefixOf cs = true := by
        rwa [List.isPrefixOf_iff_prefix]
      rw [if_neg (not_isPrefixOf_take hnone), List.head?_take]
      by_cases hquote : cs.head?.any isQuote = true
      · obtain rfl := hn _ _ (.quoted hquote)
        have hpos : 0 < (Quoted.extent false cs).length := Quoted.extent_length_pos hcs
        rw [if_neg hpos.ne', hquote, Quoted.terminated_extent hcs, Bool.true_and, kind_of_missed,
          due_iff (.quoted hquote)]
        simp [Problem.kind]
      -- neither braces nor a quote: such a value has no end that could be missing
      · have hplain : (if n = 0 then none else cs.head?).any isQuote = false := by
          split <;> simp_all
        rw [hplain]
        refine iff_of_false (by simp) (not_due (by simp) fun problem e hmade => ?_)
        cases hmade <;> contradiction
  | comment =>
    obtain rfl := hn _ _ (.comment cs)
    have htest := closed_comment (hcomment rfl)
    dsimp only at htest ⊢
    rw [htest, kind_of_missed, due_iff (.comment cs)]
    simp [Problem.kind]
  | _ =>
    refine iff_of_false (by simp) (not_due (by simp) fun problem e hmade => ?_)
    cases hmade

end Lexeme

/-! ### Tokens

A range may cut the source, so the scan sees less than what stands ahead; `InWindow` keeps track of
the part that it sees. `problem_next` is the step for one call of the scanner. -/

/-- The search for the end of a comment starts behind its opening mark, where `skipMarkupComment`
puts the cursor. -/
theorem Cursor.skipMarkupComment_behind {done rest : List Char}
    (hopen : Delimiter.commentOpen <+: rest) :
    (behind done rest).skipMarkupComment
      = (behind done rest).over?
        (let e := Text.past Delimiter.commentClose (rest.drop 4); ⟨4 + e.length, e.closed⟩) := by
  have hfour : Text.fitting Delimiter.commentOpen.length rest = 4 := by
    obtain ⟨rest, rfl⟩ := hopen
    have hnone : Text.fitting 0 rest = 0 := by
      cases rest with
      | nil => simp [Text.fitting, Text.fittingFrom]
      | cons c rest =>
        have := c.utf8Size_pos
        rw [Text.fitting_cons, if_neg (by omega)]
    simp only [Delimiter.commentOpen, List.cons_append, List.nil_append, Text.fitting_cons]
    simp [Char.utf8Size, hnone]
  unfold skipMarkupComment skipBytes skipPast over?
  rw [behind_rest, hfour, advance_behind, advance_behind, behind_rest]
  simp only [advance_behind, List.drop_drop]
  rw [List.append_assoc, ← List.take_add]

namespace Scanner

theorem InWindow.skipMarkupComment {source : String} {stop : Nat} {s : Scanner}
    (h : s.InWindow source stop) (hopen : Delimiter.commentOpen <+: s.cursor.rest) :
    s.cursor.skipMarkupComment = s.cursor.over?
      ⟨4 + (Text.past Delimiter.commentClose (s.cursor.rest.drop 4)).length,
        (Text.past Delimiter.commentClose (s.cursor.rest.drop 4)).closed⟩ := by
  obtain ⟨done, rest, -, -, -, hs⟩ := h
  rw [hs] at hopen ⊢
  exact Cursor.skipMarkupComment_behind hopen

/-- The search that is made for the token ahead delimits it, reaches the end of the range if it
fails, and fails exactly if the token has a problem (`Due`). -/
theorem problem_next {source : String} {stop : Nat} {s : Scanner} (h : s.InWindow source stop) :
    let t := s.next.1
    (∀ problem, (t.anomaly? source).map Diagnostic.kind = some problem
        ↔ Lexeme.Due t.kind s.cursor.rest problem) ∧
      (t.kind = .comment → Delimiter.commentOpen <+: s.cursor.rest) ∧
      ∀ problem e, Lexeme.Search t.kind s.cursor.rest problem e →
        s.next.2.cursor = s.cursor.advance e.length ∧ (e.closed = false → t.span.stop = stop) := by
  intro t
  by_cases hend : s.cursor.rest = []
  · have ht : t.kind = .eof := by
      show s.next.1.kind = .eof
      rw [next_of_end hend]
    have hnone : ∀ problem e, ¬ Lexeme.Search t.kind s.cursor.rest problem e := by
      intro problem e hmade
      rw [ht] at hmade
      cases hmade
    refine ⟨fun problem => ?_, by simp [ht], fun problem e hmade => absurd hmade (hnone problem e)⟩
    exact iff_of_false (by simp [Token.anomaly?, ht, lexicalProblem?])
      (Lexeme.not_due (by simp [ht]) hnone)
  · have hspan := h.span_next
    have hnext := h.next
    obtain ⟨done, rest, beyond, hsource, hstop, hs⟩ := h
    generalize s.state = state at hs
    subst hs
    rw [behind_cursor, Cursor.behind_rest] at hend ⊢
    have htext : (behind done rest state).next.1.text source = _ := text_next_behind hsource hend
    have htoken : (behind done rest state).next = _ := next_behind hend
    have hcomment := (Lexeme.takesLiteral_lex state done.getLast? hend).comment
    have hlength : ∀ problem e, Lexeme.Search (lex state done.getLast? rest).kind rest problem e →
        (lex state done.getLast? rest).length = e.length :=
      fun _ _ => Lexeme.Search.length_eq hend
    generalize lex state done.getLast? rest = x at htext htoken hcomment hlength
    have hkind : t.kind = x.kind := by
      show (Scanner.next _).1.kind = x.kind
      rw [htoken]
    have hopens : x.kind = .comment → Delimiter.commentOpen <+: rest := fun hx => (hcomment hx).1
    rw [hkind]
    refine ⟨fun problem => ?_, hopens, fun problem e hmade => ⟨?_, fun hopen => ?_⟩⟩
    · rw [Token.anomaly?, hkind, htext, Option.map_map]
      exact Lexeme.problem_taken hend hopens hlength
    · rw [htoken, ← hlength problem e hmade, Cursor.advance_behind]
      rfl
    · -- nothing is left to see behind the token
      have hall := hmade.length_of_failed hopens hopen
      have hlast : (behind done rest state).next.2.cursor.rest = [] := by
        simp [htoken, hlength problem e hmade, hall]
      show (Scanner.next _).1.span.stop = stop
      rw [hspan]
      exact hnext.rest_eq_nil_iff.mp hlast

/-- **Lexical problems agree with the scan.** Each kind of `anomaly?` is had by exactly the tokens
whose search for the closing mark ended without finding it, and by bad characters; the search is the
one that delimits the token. A token whose search failed ends with the range. -/
theorem anomaly_iff (source : String) (start stop : Nat) (state : LexState) (n : Nat) :
    let s := (ofRange source start stop state).after n
    let t := s.next.1
    let problem := (t.anomaly? source).map Diagnostic.kind
    let quoted := s.cursor.peek.any isQuote = true
    let braced := s.cursor.lookingAt Delimiter.openBraces = true
    (problem = some .badCharacter ↔ t.kind = .badCharacter) ∧
    (problem = some .unterminatedString ↔
      t.kind = .string ∧ (s.cursor.skipQuoted true).1 = false ∨
        t.kind = .attrValue ∧ quoted ∧ (s.cursor.skipQuoted false).1 = false) ∧
    (problem = some .unterminatedInterpolation ↔
      t.kind = .attrValue ∧ braced ∧ (s.cursor.skipPast Delimiter.closeBraces).1 = false) ∧
    (problem = some .unterminatedComment ↔
      t.kind = .comment ∧ s.cursor.skipMarkupComment.1 = false) ∧
    (∀ kind, problem = some kind → kind ∈ [.badCharacter, .unterminatedString,
      .unterminatedInterpolation, .unterminatedComment]) ∧
    (t.kind = .string → s.next.2.cursor = (s.cursor.skipQuoted true).2) ∧
    (t.kind = .attrValue → quoted → s.next.2.cursor = (s.cursor.skipQuoted false).2) ∧
    (t.kind = .attrValue → braced →
      s.next.2.cursor = (s.cursor.skipPast Delimiter.closeBraces).2) ∧
    (t.kind = .comment → s.next.2.cursor = s.cursor.skipMarkupComment.2) ∧
    ∀ d, t.anomaly? source = some d → d.span = t.span ∧
      (d.kind ≠ .badCharacter → t.span.stop = Cursor.windowEnd source stop) := by
  intro s t problem quoted braced
  have hwindow := (inWindow_ofRange source start stop state).after n
  obtain ⟨hdue, hcomment, hsearch⟩ := problem_next hwindow
  -- `hdue` settles the causes; what remains compares the pure searches with the cursor's own
  change ∀ p, problem = some p ↔ Lexeme.Due t.kind s.cursor.rest p at hdue
  have hskip := fun hkind => hwindow.skipMarkupComment (hcomment hkind)
  refine ⟨?_, ?_, ?_, ?_, fun kind hkind => ((hdue kind).mp hkind).mem, fun hkind => ?_,
    fun hkind hquote => ?_, fun hkind hbraces => ?_, fun hkind => ?_, fun d hd => ⟨?_, ?_⟩⟩
  · rw [hdue, Lexeme.due_badCharacter]
  · rw [hdue, Lexeme.due_unterminatedString]
    exact Iff.rfl
  · rw [hdue, Lexeme.due_unterminatedInterpolation]
    exact Iff.rfl
  · rw [hdue, Lexeme.due_unterminatedComment]
    constructor
    · rintro ⟨hkind, hopen⟩
      exact ⟨hkind, by rw [hskip hkind]; exact hopen⟩
    · rintro ⟨hkind, hopen⟩
      rw [hskip hkind] at hopen
      exact ⟨hkind, hopen⟩
  -- the four searches that also say where the token ends
  · refine (hsearch .unterminatedString _ ?_).1
    rw [hkind]
    exact .string _
  · refine (hsearch .unterminatedString _ ?_).1
    rw [hkind]
    exact .quoted hquote
  · refine (hsearch .unterminatedInterpolation _ ?_).1
    rw [hkind]
    exact .braces (List.isPrefixOf_iff_prefix.mp hbraces)
  · rw [hskip hkind]
    refine (hsearch .unterminatedComment _ ?_).1
    rw [hkind]
    exact .comment _
  · obtain ⟨cause, -, rfl⟩ := Option.map_eq_some_iff.mp hd
    rfl
  · intro hgood
    have hproblem : problem = some d.kind := congrArg (Option.map Diagnostic.kind) hd
    rcases (hdue d.kind).mp hproblem with ⟨hbad, -⟩ | ⟨e, hmade, hopen⟩
    · exact absurd hbad hgood
    · exact (hsearch d.kind e hmade).2 hopen

end Scanner

end RsxInspect
