import RsxInspect.Proofs.Diagnostic.Anomaly
import RsxInspect.Proofs.Lexeme.Append
import RsxInspect.Proofs.Lexeme.Window
import RsxInspect.Proofs.Scan.Spelling

/-!
# The closing tag of a template

In every mode inside a template its closing tag is looked for first. So the tag is found wherever a
token starts, and it is missed only where a token runs over its start. The bricks:

* `Lexeme.Delimited` says how far each rule runs: only comments, values and literals
  (`TokenKind.runsOver`) take in a `<` behind their first character. There is one lemma
  `delimited_…` for each rule, put together from `of_single`, `of_forall`, `of_quoted` and their
  like.
* `Delimited.over_close`: a lexeme that takes in the `<` of a closing tag takes the whole tag, but
  for values without quotes, which leave its `>`.
* `Token.Swallows`: what this means for a token and an offset of the source.

`Scanner.Reads.swallows` says the same of all that a scan reads inside a template.
-/

namespace RsxInspect

open String (utf8Len)

/-- Tokens that run on over markup: comments, values of attributes and strings. All others stop in
front of a `<`. -/
def TokenKind.runsOver : TokenKind → Bool
  | comment | attrValue | string => true
  | _ => false

namespace Lexeme

/-! ### How far a lexeme runs

One lemma for each way in which the rules measure a lexeme. -/

/-- Where a lexeme in a template ends. Most take no `<` behind their first character. Those that run
over markup (`runsOver`) end with all that is ahead, or with a mark of their own, or in front of the
end of the tag, if they are values without quotes. -/
inductive Delimited (cs : List Char) (x : Lexeme) : Prop where
  | solid (hkind : x.kind.runsOver = false) (hno : '<' ∉ (cs.take x.length).tail)
  | unclosed (hkind : x.kind.runsOver = true) (hall : cs.length ≤ x.length)
  | closed (hkind : x.kind.runsOver = true) {c : Char}
      (hlast : (cs.take x.length).getLast? = some c) (hc : c ∉ Delimiter.templateClose.dropLast)
  | bare (hkind : x.kind = .attrValue) {c : Char} {rest : List Char}
      (hbehind : cs.drop x.length = c :: rest)
      (hend : isBlank c = true ∨ c = '>' ∨ Delimiter.selfClose <+: c :: rest)

namespace Delimited

variable {cs mark : List Char} {x other : Lexeme} {m : Mode} {k : TokenKind} {n : Nat}

theorem of_single (hkind : k.runsOver = false) : Delimited cs ⟨k, 1, m⟩ := by
  apply solid hkind
  cases cs <;> simp

theorem of_mark (hkind : k.runsOver = false) (hmark : mark <+: cs) (hno : '<' ∉ mark.tail) :
    Delimited cs ⟨k, mark.length, m⟩ := by
  apply solid hkind
  rw [← List.prefix_iff_eq_take.mp hmark]
  exact hno

/-- All that is taken satisfies a condition `p` that a `<` does not. -/
theorem of_forall {p : Char → Bool} (hkind : k.runsOver = false)
    (hall : ∀ c ∈ cs.take n, p c = true) (hp : p '<' = false) : Delimited cs ⟨k, n, m⟩ := by
  apply solid hkind
  intro hmem
  have hlt := hall '<' (List.mem_of_mem_tail hmem)
  rw [hp] at hlt
  cases hlt

theorem of_countWhile {p : Char → Bool} (hkind : k.runsOver = false) (hp : p '<' = false) :
    Delimited cs ⟨k, Text.countWhile p cs, m⟩ := by
  apply of_forall hkind _ hp
  intro c hc
  rw [Text.take_countWhile] at hc
  exact List.mem_takeWhile_imp hc

theorem templateCloseOr (h : Delimited cs other) :
    Delimited cs (Lexeme.templateCloseOr cs other) := by
  unfold Lexeme.templateCloseOr
  split
  · rename_i hclose
    exact of_mark rfl (List.isPrefixOf_iff_prefix.mp hclose) (by decide)
  · exact h

theorem blanksOr (h : Delimited cs other) : Delimited cs (Lexeme.blanksOr m cs other) := by
  unfold Lexeme.blanksOr
  split
  · exact of_countWhile rfl (by decide)
  · exact h

/-- A literal (`Quoted.extent`) ends with its quote or with all that is ahead, whether quotes can be
escaped in it or not. -/
theorem of_quoted {escapes : Bool} {quote : Char} (hkind : k.runsOver = true)
    (hquote : isQuote quote = true) :
    Delimited (quote :: cs) ⟨k, (Quoted.extent escapes (quote :: cs)).length, m⟩ := by
  have hends : Quoted.terminated escapes ((quote :: cs).take (Quoted.extent escapes (quote :: cs)).length)
      = (Quoted.extent escapes (quote :: cs)).closed :=
    Quoted.terminated_extent (List.cons_ne_nil quote cs)
  cases hclosed : (Quoted.extent escapes (quote :: cs)).closed with
  | false => exact unclosed hkind (Nat.le_of_eq (Quoted.length_extent_of_open hclosed).symm)
  | true =>
    rw [hclosed] at hends
    have hlast : ((quote :: cs).take (Quoted.extent escapes (quote :: cs)).length).getLast?
        = some quote := by
      rw [Quoted.extent_cons, Nat.add_comm, List.take_succ_cons] at hends ⊢
      rw [Quoted.terminated, Bool.and_eq_true, beq_iff_eq] at hends
      exact (Quoted.getLast?_cons_of_some hends.1).1
    apply closed hkind hlast
    simp only [isQuote, Bool.or_eq_true, beq_iff_eq] at hquote
    rcases hquote with rfl | rfl <;> decide

/-- What runs past a mark (`Text.past`), maybe from behind some characters, ends with the mark or
with all that is ahead. The last character of the mark is all that matters here. -/
theorem of_past {c : Char} (hkind : k.runsOver = true) (hmark : mark.getLast? = some c)
    (hc : c ∉ Delimiter.templateClose.dropLast) (hn : n ≤ cs.length) :
    Delimited cs ⟨k, n + (Text.past mark (cs.drop n)).length, m⟩ := by
  have hne : mark ≠ [] := by
    rintro rfl
    cases hmark
  have hends : endsWith mark ((cs.drop n).take (Text.past mark (cs.drop n)).length)
      = (Text.past mark (cs.drop n)).closed := Text.endsWith_past hne
  -- open, the token runs to the end of the text; closed, its last character is that of the mark
  cases hclosed : (Text.past mark (cs.drop n)).closed with
  | false =>
    apply unclosed hkind
    show cs.length ≤ n + (Text.past mark (cs.drop n)).length
    rw [Text.length_past_of_open hclosed, List.length_drop]
    omega
  | true =>
    rw [hclosed, endsWith_iff] at hends
    obtain ⟨inner, hinner⟩ := hends
    apply closed hkind (c := c) _ hc
    rw [List.take_add, ← hinner, List.getLast?_append, List.getLast?_append, hmark]
    rfl

/-- A value without quotes ends in front of a blank or the end of the tag (`bareValueFrom`). -/
theorem of_bareValue : Delimited cs ⟨.attrValue, bareValueFrom 0 cs, m⟩ := by
  have hstop : ∀ cs : List Char, cs.length ≤ bareValueFrom 0 cs ∨ ∃ c rest,
      cs.drop (bareValueFrom 0 cs) = c :: rest ∧
        (isBlank c = true ∨ c = '>' ∨ Delimiter.selfClose <+: c :: rest) := by
    intro cs
    induction cs with
    | nil => exact .inl (Nat.zero_le _)
    | cons c cs ih =>
      rw [bareValueFrom_cons]
      split
      · rename_i hend
        right
        simp only [Bool.or_eq_true, beq_iff_eq, List.isPrefixOf_iff_prefix, or_assoc] at hend
        exact ⟨c, cs, rfl, hend⟩
      · rw [List.length_cons, List.drop_succ_cons]
        exact ih.imp_left Nat.succ_le_succ
  rcases hstop cs with hall | ⟨c, rest, hbehind, hend⟩
  · exact unclosed rfl hall
  · exact bare rfl hbehind hend

end Delimited

/-! ### The rules of a template

Each rule is followed branch by branch, in the order in which the rule tries them. -/

variable {cs : List Char}

theorem isNamePart_lt : isNamePart '<' = false := not_isNamePart_of_markStart (by decide)

theorem isTagNamePart_lt : isTagNamePart '<' = false := by decide +kernel

theorem not_mem_textFrom (cs : List Char) : ∀ c ∈ cs.take (textFrom 0 cs), (c != '<') = true := by
  induction cs with
  | nil => simp
  | cons c cs ih =>
    rw [textFrom_cons]
    split
    · simp
    · rename_i hplain
      simp only [Bool.or_eq_true, beq_iff_eq, not_or] at hplain
      rw [List.take_succ_cons]
      exact List.forall_mem_cons.mpr ⟨bne_iff_ne.mpr hplain.1.1, ih⟩

theorem delimited_inTemplate (cs : List Char) : Delimited cs (inTemplate cs) := by
  apply Delimited.templateCloseOr
  split
  · rename_i hopen
    apply Delimited.of_past rfl (c := '>') rfl (by decide)
    exact (List.isPrefixOf_iff_prefix.mp hopen).length_le
  · split
    · rename_i hmark
      exact .of_mark rfl (List.isPrefixOf_iff_prefix.mp hmark) (by decide)
    · split
      · exact .of_single rfl
      · split
        · rename_i hmark
          exact .of_mark rfl (List.isPrefixOf_iff_prefix.mp hmark) (by decide)
        · apply Delimited.blanksOr
          exact .of_forall rfl (not_mem_textFrom cs) (by decide)

theorem delimited_inStartTag (last : Option TokenKind) (cs : List Char) :
    Delimited cs (inStartTag last cs) := by
  apply Delimited.templateCloseOr
  apply Delimited.blanksOr
  -- marks and names hold no `<`, and a loose value ends with its quote
  split
  · rename_i hmark
    exact .of_mark rfl (List.isPrefixOf_iff_prefix.mp hmark) (by decide)
  · cases cs with
    | nil => exact .of_single rfl
    | cons c cs =>
      dsimp only
      split
      · exact .of_single rfl
      · split
        · exact .of_single rfl
        · split
          · rename_i hquote
            exact .of_quoted rfl hquote
          · split
            · apply Delimited.of_countWhile _ isTagNamePart_lt
              split <;> rfl
            · exact .of_single rfl

theorem delimited_inAttributeValue (last : Option TokenKind) (cs : List Char) :
    Delimited cs (inAttributeValue last cs) := by
  apply Delimited.templateCloseOr
  apply Delimited.blanksOr
  cases cs with
  | nil => exact .of_single rfl
  | cons c cs =>
    dsimp only
    -- in quotes, in braces, none at all (then the rule for tags reads), or bare
    split
    · rename_i hquote
      exact .of_quoted rfl hquote
    · split
      · have hpast : Delimited (c :: cs) ⟨.attrValue,
            0 + (Text.past Delimiter.closeBraces ((c :: cs).drop 0)).length, .tagOpen⟩ :=
          .of_past (c := '\x7d') rfl rfl (by decide) (Nat.zero_le _)
        rw [Nat.zero_add] at hpast
        exact hpast
      · split
        · exact delimited_inStartTag last (c :: cs)
        · exact .of_bareValue

theorem delimited_inEndTag (cs : List Char) : Delimited cs (inEndTag cs) := by
  apply Delimited.templateCloseOr
  apply Delimited.blanksOr
  cases cs with
  | nil => exact .of_single rfl
  | cons c cs =>
    dsimp only
    split
    · exact .of_single rfl
    · split
      · exact .of_countWhile rfl isTagNamePart_lt
      · exact .of_single rfl

/-- A number is made of digits and a point, by `numberLength`. -/
theorem forall_mem_number (cs : List Char) :
    ∀ c ∈ cs.take (numberLength cs), (c.isDigit || c == '.') = true := by
  -- digits before and behind the point, if there is one
  have hdigits : ∀ (n : Nat) (ds : List Char), n = Text.countWhile Char.isDigit ds →
      ∀ c ∈ ds.take n, (c.isDigit || c == '.') = true := by
    rintro n ds rfl c hc
    rw [Text.take_countWhile] at hc
    rw [List.mem_takeWhile_imp hc]
    rfl
  rw [numberLength_eq]
  rcases numberEnd_cases (Text.countWhile Char.isDigit cs)
    (cs.drop (Text.countWhile Char.isDigit cs)) with hwhole | ⟨d, fraction, hbehind, hdigit⟩
  · rw [hwhole]
    exact hdigits _ cs rfl
  · rw [hbehind, numberEnd_fraction hdigit, Nat.add_assoc, List.take_add, hbehind, Nat.add_comm 2,
      List.take_succ_cons, List.take_succ_cons]
    intro c hc
    simp only [List.mem_append, List.mem_cons] at hc
    rcases hc with hc | rfl | rfl | hc
    · exact hdigits _ cs rfl c hc
    · rfl
    · rw [hdigit]
      rfl
    · exact hdigits _ fraction rfl c hc

theorem delimited_inExpression (cs : List Char) : Delimited cs (inExpression cs) := by
  have hoperators : ∀ p ∈ Vocabulary.operators, p.2.runsOver = false ∧ '<' ∉ p.1.tail := by decide
  have hwords : ∀ word, ((Vocabulary.expressionKeyword? word).getD .identifier).runsOver = false := by
    intro word
    unfold Vocabulary.expressionKeyword?
    repeat' split
    all_goals rfl
  apply Delimited.templateCloseOr
  apply Delimited.blanksOr
  -- a string runs to its quote; nothing else in an expression holds a `<` behind its front
  split
  · rename_i hmark
    exact .of_mark rfl (List.isPrefixOf_iff_prefix.mp hmark) (by decide)
  · split
    · rename_i op kind hfind
      obtain ⟨hkind, hno⟩ := hoperators _ (List.mem_of_find?_eq_some hfind)
      have hmark := List.find?_some hfind
      exact .of_mark hkind (List.isPrefixOf_iff_prefix.mp hmark) hno
    · cases cs with
      | nil => exact .of_single rfl
      | cons c cs =>
        dsimp only
        split
        · rename_i hquote
          exact .of_quoted rfl hquote
        · split
          · exact .of_forall rfl (forall_mem_number (c :: cs)) (by decide)
          · split
            · exact .of_countWhile (hwords _) isNamePart_lt
            · exact .of_single rfl

/-- The words `:else if` have no `<` in them, however many blanks stand between them. -/
theorem forall_mem_elseIf {n : Nat} (h : elseIfLength? cs = some n) :
    ∀ c ∈ cs.take n, (c != '<') = true := by
  obtain ⟨rfl, -, helse, hif⟩ := elseIfLength?_eq_some_iff.mp h
  -- the three parts of `else if`: the word, the blanks, and the second word
  have hfront : cs.take 5 = [':', 'e', 'l', 's', 'e'] :=
    (List.prefix_iff_eq_take.mp (List.isPrefixOf_iff_prefix.mp helse)).symm
  have hword : (cs.drop (5 + Text.blanks (cs.drop 5))).take 2 = ['i', 'f'] := by
    unfold Text.startsWithWord at hif
    rw [Bool.and_eq_true] at hif
    exact (List.prefix_iff_eq_take.mp (List.isPrefixOf_iff_prefix.mp hif.1)).symm
  intro c hc
  rw [show 7 + Text.blanks (cs.drop 5) = 5 + Text.blanks (cs.drop 5) + 2 by omega, List.take_add,
    List.take_add, hfront, hword] at hc
  simp only [List.mem_append] at hc
  rcases hc with (hc | hc) | hc
  · have helse : [':', 'e', 'l', 's', 'e'].all (· != '<') = true := by decide
    exact List.all_eq_true.mp helse c hc
  · rw [Text.blanks, Text.take_countWhile] at hc
    have hblank := List.mem_takeWhile_imp hc
    rw [bne_iff_ne]
    rintro rfl
    revert hblank
    decide
  · have hif : ['i', 'f'].all (· != '<') = true := by decide
    exact List.all_eq_true.mp hif c hc

theorem delimited_inDirective (cs : List Char) : Delimited cs (inDirective cs) := by
  have hkeywords : ∀ p ∈ Vocabulary.directiveKeywords, p.2.runsOver = false ∧ '<' ∉ p.1.tail := by
    decide
  apply Delimited.templateCloseOr
  apply Delimited.blanksOr
  split
  · rename_i hmark
    exact .of_mark rfl (List.isPrefixOf_iff_prefix.mp hmark) (by decide)
  · split
    · rename_i n hlength
      exact .of_forall rfl (forall_mem_elseIf hlength) (by decide)
    · split
      · rename_i keyword kind hfind
        obtain ⟨hkind, hno⟩ := hkeywords _ (List.mem_of_find?_eq_some hfind)
        have hword := List.find?_some hfind
        unfold Text.startsWithWord at hword
        rw [Bool.and_eq_true] at hword
        exact .of_mark hkind (List.isPrefixOf_iff_prefix.mp hword.1) hno
      · exact delimited_inExpression cs

/-! ### The closing tag ahead

`Resyncs` holds of the modes that look for the closing tag before anything else. -/

/-- Inside of the closing tag no value without quotes ends, save in front of the `>`: none of its
other characters is a blank, a `>` or a `/>`. -/
theorem not_ends_in_close {i : Nat} (hpos : 0 < i) (hi : i < 10) {c : Char} {rest back : List Char}
    (hbehind : Delimiter.templateClose.drop i ++ back = c :: rest) :
    ¬ (isBlank c = true ∨ c = '>' ∨ Delimiter.selfClose <+: c :: rest) := by
  -- at every place inside `</template>`, checked one by one: no blank, no `>` and no `/>` starts
  -- there
  have hinside : ∀ i < 10, 0 < i →
      (Delimiter.templateClose.drop i).head?.all (fun d => !isBlank d && d != '>') = true ∧
        ¬ Delimiter.selfClose <+: Delimiter.templateClose.drop i := by
    decide
  obtain ⟨hplain, hself⟩ := hinside i hi hpos
  have hlength : (Delimiter.templateClose.drop i).length = 11 - i := by
    rw [List.length_drop]
    rfl
  have hhead : (Delimiter.templateClose.drop i).head? = some c := by
    have hhead := congrArg List.head? hbehind
    rw [List.head?_append] at hhead
    cases hdrop : Delimiter.templateClose.drop i with
    | nil =>
      rw [hdrop, List.length_nil] at hlength
      omega
    | cons d ds =>
      rw [hdrop] at hhead
      exact hhead
  rw [hhead] at hplain
  simp only [Option.all_some, Bool.and_eq_true, Bool.not_eq_true', bne_iff_ne] at hplain
  rintro (hblank | hend | hprefix)
  · rw [hplain.1] at hblank
    cases hblank
  · exact hplain.2 hend
  · apply hself
    rw [← hbehind] at hprefix
    apply List.prefix_of_prefix_length_le hprefix (List.prefix_append _ _)
    rw [hlength]
    show 2 ≤ 11 - i
    omega

/-- A lexeme that goes on over the start of a closing tag runs over markup. It takes all of the tag,
or all but its `>`. -/
theorem Delimited.over_close {front back : List Char} {x : Lexeme}
    (h : Delimited (front ++ (Delimiter.templateClose ++ back)) x) (hfront : front ≠ [])
    (hover : front.length < x.length) :
    x.kind.runsOver = true ∧ (front.length + 11 ≤ x.length ∨
      x.kind = .attrValue ∧ x.length = front.length + 10) := by
  obtain ⟨i, hi⟩ : ∃ i, x.length = front.length + (i + 1) := ⟨x.length - front.length - 1, by omega⟩
  have htake : (front ++ (Delimiter.templateClose ++ back)).take x.length
      = front ++ (Delimiter.templateClose ++ back).take (i + 1) := by
    rw [hi, List.take_length_add_append]
  cases h with
  | solid hkind hno =>
    exfalso
    apply hno
    obtain ⟨c, front, rfl⟩ := List.exists_cons_of_ne_nil hfront
    rw [htake]
    simp [Delimiter.templateClose]
  | unclosed hkind hall =>
    refine ⟨hkind, .inl ?_⟩
    rw [List.length_append, List.length_append] at hall
    have : Delimiter.templateClose.length = 11 := rfl
    omega
  | closed hkind hlast hc =>
    refine ⟨hkind, .inl ?_⟩
    by_contra hinside
    apply hc
    -- the last character would be one of the tag
    have hsub : (Delimiter.templateClose.take (i + 1)).Sublist Delimiter.templateClose.dropLast :=
      List.take_sublist_take_left (show i + 1 ≤ 10 by omega)
    apply hsub.subset
    apply List.mem_of_getLast?
    have hlength : Delimiter.templateClose.length = 11 := rfl
    rw [htake, List.take_append_of_le_length (by omega), List.getLast?_append] at hlast
    cases htag : (Delimiter.templateClose.take (i + 1)).getLast? with
    | none => simp [Delimiter.templateClose] at htag
    | some d =>
      rw [htag] at hlast
      exact hlast
  | @bare hkind c rest hbehind hend =>
    refine ⟨by rw [hkind]; rfl, ?_⟩
    by_contra hinside
    simp only [not_or, not_and, hkind, true_implies] at hinside
    have hlength : Delimiter.templateClose.length = 11 := rfl
    rw [hi, List.drop_length_add_append, List.drop_append_of_le_length (by omega)] at hbehind
    exact not_ends_in_close (Nat.succ_pos i) (by omega) hbehind hend

end Lexeme

section Lex

variable {state : LexState} {before : Option Char} {cs : List Char}

open Lexeme (Resyncs Delimited)

/-- Inside a template every lexeme is `Delimited` by its rule. -/
theorem delimited_lex (before : Option Char) (cs : List Char) (h : Resyncs state.mode) :
    Delimited cs (lex state before cs) := by
  obtain ⟨mode, last⟩ := state
  cases mode with
  | initial | frontMatter | script | style => nomatch h
  | template => exact Lexeme.delimited_inTemplate cs
  | tagOpen => exact Lexeme.delimited_inStartTag last cs
  | tagAttributeValue => exact Lexeme.delimited_inAttributeValue last cs
  | tagClose => exact Lexeme.delimited_inEndTag cs
  | interpolation => exact Lexeme.delimited_inExpression cs
  | directive => exact Lexeme.delimited_inDirective cs

/-- The closing tag is read wherever it stands ahead, in each mode that `Resyncs`. -/
theorem lex_of_templateClose (h : Resyncs state.mode) (hclose : Delimiter.templateClose <+: cs) :
    lex state before cs = ⟨.templateClose, 11, .initial⟩ := by
  have hleads := List.isPrefixOf_iff_prefix.mpr hclose
  obtain ⟨mode, last⟩ := state
  cases mode with
  | initial | frontMatter | script | style => nomatch h
  | _ => exact if_pos hleads

/-- Nothing else than `</template>` is read as the closing tag (`Delimiter.templateClose`). -/
theorem templateClose_prefix (hcs : cs ≠ []) (hkind : (lex state before cs).kind = .templateClose) :
    Delimiter.templateClose <+: cs := by
  have hstep := lex_transition state before hcs
  rw [hkind] at hstep
  have hinitial := hstep.eq_initial
  rw [hinitial] at hstep
  have hmode : state.mode ≠ .initial := by
    intro hmode
    rw [hmode] at hstep
    cases hstep
  have hclosing : state.mode.closing = Delimiter.templateClose := by
    generalize state.mode = m at hstep
    cases hstep <;> rfl
  rw [← hclosing]
  exact List.isPrefixOf_iff_prefix.mp (closing_of_initial hmode hinitial)

/-- Only the closing tag leads out of a template, so the modes that resync are left by nothing
else. -/
theorem Transition.resyncs {m n : Mode} {k : TokenKind} (h : Transition m k n) (hm : Resyncs m)
    (hk : k ≠ .templateClose) : Resyncs n := by
  cases h with
  | expression | keyword | plainExpression => exact .expressionResync
  | _ => first | exact absurd rfl hk | (cases hm; done) | constructor

end Lex

/-! ### Closing tags that are not read

From here on offsets of the source take the place of what is ahead. -/

/-- The closing tag of a template stands at the offset, whatever it is a part of. -/
def ClosingTagAt (source : String) (p : Nat) : Prop := Stands source p Delimiter.templateClose

/-- A closing tag at the offset is lost in the token: it starts strictly inside of it, and the token
takes in all of the tag, or is a value without quotes and leaves its `>`. -/
structure Token.Swallows (t : Token) (p : Nat) : Prop where
  kind : t.kind.runsOver = true
  start : t.span.start < p
  stop : p < t.span.stop
  extent : p + 11 ≤ t.span.stop ∨ t.kind = .attrValue ∧ t.span.stop = p + 10

namespace Scanner

variable {source : String} {done rest : List Char} {state : LexState} {p : Nat}

/-- What `Stands` at an offset that is not behind the scanner stands ahead of it. -/
theorem exists_ahead {cs : List Char} (hsource : source.toList = done ++ rest)
    (h : Stands source p cs) (hp : utf8Len done ≤ p) :
    ∃ front back, rest = front ++ (cs ++ back) ∧ p = utf8Len (done ++ front) := by
  obtain ⟨before, back, hsplit, rfl⟩ := h
  rw [hsource, List.append_assoc] at hsplit
  rcases List.append_eq_append_iff.mp hsplit with ⟨front, rfl, hrest⟩ | ⟨more, hdone, hrest⟩
  · exact ⟨front, back, hrest, rfl⟩
  · have hnil : more = [] := by
      by_contra hne
      have hpos := utf8Len_pos hne
      rw [hdone, String.utf8Len_append] at hp
      omega
    subst hnil
    rw [List.append_nil] at hdone
    exact ⟨[], back, hrest.symm, by rw [hdone, List.append_nil]⟩

/-- A token of a template that takes in the start of a closing tag swallows the tag
(`Token.Swallows`), unless it is the tag. -/
theorem swallows_next (hsource : source.toList = done ++ rest) (hmode : Lexeme.Resyncs state.mode)
    (hp : ClosingTagAt source p) (hstart : utf8Len done ≤ p)
    (hstop : p < (behind done rest state).next.2.offset)
    (hkind : (behind done rest state).next.1.kind ≠ .templateClose) :
    (behind done rest state).next.1.Swallows p := by
  obtain ⟨front, back, rfl, rfl⟩ := exists_ahead hsource hp hstart
  have hahead : front ++ (Delimiter.templateClose ++ back) ≠ [] := by
    simp [Delimiter.templateClose]
  have hdelimited := delimited_lex done.getLast? (front ++ (Delimiter.templateClose ++ back)) hmode
  rw [next_behind hahead] at hstop hkind ⊢
  have hfront : front ≠ [] := by
    rintro rfl
    rw [List.nil_append, lex_of_templateClose hmode
      (List.prefix_append Delimiter.templateClose back)] at hkind
    exact hkind rfl
  generalize lex state done.getLast? (front ++ (Delimiter.templateClose ++ back)) = x at *
  -- the token ends behind the start of the tag
  have hover : front.length < x.length := by
    by_contra hle
    have htake : (front ++ (Delimiter.templateClose ++ back)).take x.length = front.take x.length :=
      List.take_append_of_le_length (by omega)
    have hlt : utf8Len (done ++ front)
        < utf8Len (done ++ (front ++ (Delimiter.templateClose ++ back)).take x.length) := hstop
    have hpart := utf8Len_take_le front x.length
    rw [htake, String.utf8Len_append, String.utf8Len_append] at hlt
    omega
  obtain ⟨hkind, hextent⟩ := hdelimited.over_close hfront hover
  refine ⟨hkind, ?_, hstop, ?_⟩
  · have hpos := utf8Len_pos hfront
    show utf8Len done < utf8Len (done ++ front)
    rw [String.utf8Len_append]
    omega
  · show _ ≤ utf8Len (done ++ _) ∨ _ ∧ utf8Len (done ++ _) = _
    obtain ⟨i, hi⟩ : ∃ i, x.length = front.length + i := ⟨x.length - front.length, by omega⟩
    rw [hi, List.take_length_add_append, ← List.append_assoc done, String.utf8Len_append (done ++ front)]
    rcases hextent with hwhole | ⟨hvalue, hbare⟩
    · left
      have htag : (Delimiter.templateClose ++ back).take i
          = Delimiter.templateClose ++ back.take (i - 11) := by
        rw [List.take_append, List.take_of_length_le (by show 11 ≤ i; omega)]
        rfl
      have hsize : utf8Len Delimiter.templateClose = 11 := by decide
      rw [htag, String.utf8Len_append Delimiter.templateClose, hsize]
      omega
    · right
      have hten : i = 10 := by omega
      have hsize : utf8Len ((Delimiter.templateClose ++ back).take 10) = 10 := by
        rw [List.take_append_of_le_length (by decide)]
        decide
      rw [hten, hsize]
      exact ⟨hvalue, rfl⟩

/-- **Resynchronisation.** Of all closing tags that start where a scan of a template goes over, each
one (`ClosingTagAt`) is swallowed by a token, if none is read. The induction is on the run: a tag
starts in the next token or behind it. -/
theorem Reads.swallows {us : List Token} {s' : Scanner} (h : Reads (behind done rest state) us s')
    (hsource : source.toList = done ++ rest) (hmode : Lexeme.Resyncs state.mode)
    (hus : ∀ t ∈ us, t.kind ≠ .templateClose) (hp : ClosingTagAt source p)
    (hstart : utf8Len done ≤ p) (hstop : p < s'.offset) : ∃ t ∈ us, t.Swallows p := by
  generalize hs : behind done rest state = s at h
  -- the token that swallows the tag is the first that ends behind `p`; those before it lead to
  -- modes that resync
  induction h generalizing done rest state with
  | done s =>
    subst hs
    exact absurd (Nat.lt_of_le_of_lt hstart hstop) (Nat.lt_irrefl _)
  | @step s s' us hmove hrun ih =>
    subst hs
    obtain ⟨hkind, hus⟩ := List.forall_mem_cons.mp hus
    by_cases hhere : p < (behind done rest state).next.2.offset
    · exact ⟨_, List.mem_cons_self .., swallows_next hsource hmode hp hstart hhere hkind⟩
    · have hahead : rest ≠ [] := rest_ne_nil_of_moves hmove
      have hstep := transition_next hmove
      have hnext : (behind done rest state).next = _ := next_behind hahead
      have hmode' := hstep.resyncs hmode hkind
      rw [hnext] at hmode' ih hhere
      obtain ⟨t, ht, hswallows⟩ := ih (by rw [List.append_assoc, List.take_append_drop, hsource])
        hmode' hus (Nat.le_of_not_lt hhere) hstop rfl
      exact ⟨t, List.mem_cons_of_mem _ ht, hswallows⟩

end Scanner

end RsxInspect
