import RsxInspect.Diagnostic.Findings
import RsxInspect.Proofs.Scan.Tiling
import RsxInspect.Proofs.Scan.Trace
import RsxInspect.Proofs.Text.Quoted
import RsxInspect.Proofs.Text.Window

/-!
# Literals that are closed

Strings, attribute values and comments run to the mark that closes them, or to the end of what is
scanned if there is none. The lexical problem of such a token is decided from its text alone
(`Token.anomaly?`); `Token.terminated_of_anomaly?` shows that a token without one is closed by its
mark, since the scan takes no more and no less than the literal (`takesLiteral_lex`).

The rest is about the text. A mark at its start and one at its end might overlap, so
`exists_between` and the lemmas on lengths show that they do not in a token that is reported as
closed.
-/

namespace RsxInspect

namespace Lexeme

variable {cs : List Char}

/-- A comment starts with its mark (`Delimiter.commentOpen`), and takes at least that. -/
theorem inTemplate_of_comment :
    (inTemplate cs).kind = .comment → Delimiter.commentOpen <+: cs ∧ 4 ≤ (inTemplate cs).length := by
  unfold inTemplate templateCloseOr blanksOr
  repeat' split
  all_goals first
    | exact fun _ => ⟨List.isPrefixOf_iff_prefix.mp ‹_›, Nat.le_add_right 4 _⟩
    | (intro h; cases h)

/-- A value in a start tag without an equals sign is quoted, and runs as far as `Quoted.extent`
says. -/
theorem inStartTag_of_attrValue {last : Option TokenKind} :
    (inStartTag last cs).kind = .attrValue →
      (inStartTag last cs).length = (Quoted.extent false cs).length := by
  unfold inStartTag templateCloseOr blanksOr
  repeat' split
  all_goals first
    | exact fun _ => rfl
    | (intro h; cases h)

/-- A quoted value behind an equals sign runs as far as the quotes say (`Quoted.extent`). -/
theorem inAttributeValue_of_attrValue {last : Option TokenKind} (hquote : cs.head?.any isQuote = true) :
    (inAttributeValue last cs).kind = .attrValue →
      (inAttributeValue last cs).length = (Quoted.extent false cs).length := by
  cases cs with
  | nil => cases hquote
  | cons c cs =>
    have hquote : isQuote c = true := hquote
    unfold inAttributeValue templateCloseOr blanksOr
    dsimp only
    rw [if_pos hquote]
    repeat' split
    all_goals first
      | exact fun _ => rfl
      | (intro h; cases h)

theorem inExpression_of_string :
    (inExpression cs).kind = .string →
      (inExpression cs).length = (Quoted.extent true cs).length := by
  -- neither an operator nor a word is a string
  have hoperator : ∀ p ∈ Vocabulary.operators, p.2 ≠ .string := by decide
  have hword : ∀ word, (Vocabulary.expressionKeyword? word).getD .identifier ≠ .string := by
    intro word
    unfold Vocabulary.expressionKeyword?
    repeat' split
    all_goals decide
  unfold inExpression templateCloseOr blanksOr
  repeat' split
  all_goals first
    | exact fun _ => rfl
    | exact fun h => absurd h (hoperator _ (List.mem_of_find?_eq_some ‹_›))
    | exact fun h => absurd h (hword _)
    | (intro h; cases h)

theorem inDirective_of_string :
    (inDirective cs).kind = .string →
      (inDirective cs).length = (Quoted.extent true cs).length := by
  have hkeyword : ∀ p ∈ Vocabulary.directiveKeywords, p.2 ≠ .string := by decide
  unfold inDirective templateCloseOr blanksOr
  repeat' split
  all_goals first
    | exact inExpression_of_string
    | exact fun h => absurd h (hkeyword _ (List.mem_of_find?_eq_some ‹_›))
    | (intro h; cases h)

/-- The lexeme takes exactly the literal that lies ahead, if it is one: a string or a quoted value
by `Quoted.extent`, a value in braces and a comment by `Text.past`. -/
structure TakesLiteral (cs : List Char) (x : Lexeme) : Prop where
  string : x.kind = .string → x.length = (Quoted.extent true cs).length
  value : x.kind = .attrValue → cs.head?.any isQuote = true →
    x.length = (Quoted.extent false cs).length
  comment : x.kind = .comment → Delimiter.commentOpen <+: cs ∧ 4 ≤ x.length

/-- **Literals are taken whole.** Each kind of literal is read in its own modes only, and each of
these has a lemma above. -/
theorem takesLiteral_lex (state : LexState) (before : Option Char) {cs : List Char} (h : cs ≠ []) :
    TakesLiteral cs (lex state before cs) := by
  have hstep := lex_transition state before h
  obtain ⟨mode, last⟩ := state
  refine ⟨fun hkind => ?_, fun hkind hquote => ?_, fun hkind => ?_⟩
  -- the table names the rules that can make a token of the kind
  · rw [hkind] at hstep
    generalize (lex ⟨mode, last⟩ before cs).mode = n at hstep
    cases hstep with
    | expression => exact inExpression_of_string hkind
    | plainExpression => exact inDirective_of_string hkind
    | keyword h => exact absurd h (by decide)
  · rw [hkind] at hstep
    generalize (lex ⟨mode, last⟩ before cs).mode = n at hstep
    cases hstep with
    | looseValue => exact inStartTag_of_attrValue hkind
    | value => exact inAttributeValue_of_attrValue hquote hkind
    | expression h => exact absurd h (by decide)
    | plainExpression h => exact absurd h (by decide)
    | keyword h => exact absurd h (by decide)
  · rw [hkind] at hstep
    generalize (lex ⟨mode, last⟩ before cs).mode = n at hstep
    cases hstep with
    | comment => exact inTemplate_of_comment hkind
    | expression h => exact absurd h (by decide)
    | plainExpression h => exact absurd h (by decide)
    | keyword h => exact absurd h (by decide)

end Lexeme

/-! ### Tokens

A token that is closed ends with its mark, which is found again in the text that it was read from.
`exists_between` is the same for what stands between two marks. -/

/-- A literal is closed by the mark that belongs to it: a string or a quoted value by the first
quote that is not protected, a value in braces and a comment by their marks. -/
def Token.Terminated (t : Token) (source : String) : Prop :=
  let chars := (t.text source).toList
  match t.kind with
  | .string => Quoted.extent true chars = ⟨chars.length, true⟩
  | .attrValue =>
    (chars.head?.any isQuote = true → Quoted.extent false chars = ⟨chars.length, true⟩) ∧
      (Delimiter.openBraces <+: chars →
        ∃ inner, chars = Delimiter.openBraces ++ inner ++ Delimiter.closeBraces)
  | .comment => ∃ inner, chars = Delimiter.commentOpen ++ inner ++ Delimiter.commentClose
  | _ => True

/-- The text of the next token is what the lexeme ahead (`lex`) takes. -/
theorem Scanner.text_next_behind {source : String} {done rest beyond : List Char}
    {state : LexState} (hsource : source.toList = done ++ rest ++ beyond) (hrest : rest ≠ []) :
    (behind done rest state).next.1.text source
      = String.ofList (rest.take (lex state done.getLast? rest).length) := by
  rw [next_behind hrest]
  generalize lex state done.getLast? rest = x
  show (Span.mk _ _).text source = _
  rw [String.utf8Len_append]
  refine Span.text_of_split done (rest.take x.length) (rest.drop x.length ++ beyond) ?_
  rw [hsource, List.append_assoc, List.append_assoc, ← List.append_assoc (rest.take _),
    List.take_append_drop]

/-- Every token of a file is the lexeme that lies ahead where it starts, in the state of that
place. -/
theorem exists_lexeme {source : String} {t : Token}
    (ht : t ∈ (Scanner.ofSource source).toEnd.1.toList) :
    ∃ state before cs, cs ≠ [] ∧ t.kind = (lex state before cs).kind ∧
      t.text source = String.ofList (cs.take (lex state before cs).length) := by
  obtain ⟨k, htoken, hstep⟩ := (Scanner.ofSource source).reads_toEnd.exists_tokenAt ht
  have hwindow := (Scanner.inWindow_ofRange source 0 source.utf8ByteSize .initial).after k
  obtain ⟨done, rest, beyond, hsource, -, hs⟩ := hwindow
  have hs : (Scanner.ofSource source).after k = .behind done rest _ := hs
  generalize ((Scanner.ofRange source 0 source.utf8ByteSize .initial).after k).state = state at hs
  have hrest : rest ≠ [] := by
    rintro rfl
    rw [Scanner.tokenAt, hs, Scanner.next_of_end rfl] at htoken
    rw [← htoken] at hstep
    exact hstep.kind_ne_eof rfl
  rw [Scanner.tokenAt, hs] at htoken
  refine ⟨state, done.getLast?, rest, hrest, ?_, ?_⟩
  · rw [← htoken, Scanner.next_behind hrest]
  · rw [← htoken, Scanner.text_next_behind hsource hrest]

/-- A text that starts with one mark and ends with another has something in between, if the marks
cannot overlap. -/
theorem exists_between {front back chars : List Char} (hfront : front <+: chars)
    (hback : endsWith back chars = true) (hlength : front.length + back.length ≤ chars.length) :
    ∃ inner, chars = front ++ inner ++ back := by
  obtain ⟨rest, rfl⟩ := hfront
  obtain ⟨before, hbefore⟩ : back <:+ front ++ rest :=
    List.reverse_prefix.mp (List.isPrefixOf_iff_prefix.mp hback)
  rw [List.length_append] at hlength
  have hle : back.length ≤ rest.length := by omega
  obtain ⟨inner, hinner⟩ : back <:+ rest :=
    List.suffix_of_suffix_length_le ⟨before, hbefore⟩ (List.suffix_append front rest) hle
  exact ⟨inner, by rw [List.append_assoc, hinner]⟩

theorem four_le_of_braces {chars : List Char} (hopen : Delimiter.openBraces <+: chars)
    (hclose : endsWith Delimiter.closeBraces chars = true) : 4 ≤ chars.length := by
  obtain ⟨rest, rfl⟩ := hopen
  match rest with
  | [] => exact absurd hclose (by decide)
  | [c] =>
    simp [endsWith, Delimiter.openBraces, Delimiter.closeBraces] at hclose
  | c :: d :: rest =>
    simp only [Delimiter.openBraces, List.length_append, List.length_cons]
    omega

/-- Shorter comments whose marks overlap have less than seven bytes. -/
theorem seven_le_of_comment {chars : List Char} (hopen : Delimiter.commentOpen <+: chars)
    (hclose : endsWith Delimiter.commentClose chars = true)
    (hsize : ¬ (String.ofList chars).utf8ByteSize < 7) : 7 ≤ chars.length := by
  obtain ⟨rest, rfl⟩ := hopen
  rw [String.utf8ByteSize_ofList] at hsize
  match rest with
  | [] => exact absurd hclose (by decide)
  | [c] =>
    simp [endsWith, Delimiter.commentOpen, Delimiter.commentClose] at hclose
    rw [← hclose] at hsize
    exact absurd (by decide) hsize
  | [c, d] =>
    simp [endsWith, Delimiter.commentOpen, Delimiter.commentClose] at hclose
    rw [← hclose.1, ← hclose.2] at hsize
    exact absurd (by decide) hsize
  | c :: d :: e :: rest =>
    simp only [Delimiter.commentOpen, List.length_append, List.length_cons]
    omega

/-- A literal that is cut off where its `Quoted.extent` ends is read as a whole, so the text of a
token tells as much as what lay ahead. -/
theorem Quoted.extent_take_self (escapes : Bool) {cs : List Char} (h : cs ≠ []) :
    (extent escapes (cs.take (extent escapes cs).length)).length
      = (cs.take (extent escapes cs).length).length := by
  have hpos : (extent escapes cs).length ≠ 0 := (extent_length_pos h).ne'
  have hle : (extent escapes cs).length ≤ cs.length := by
    have hall : (extent escapes (cs.take cs.length)).length
        = min cs.length (extent escapes cs).length :=
      extent_take (List.length_pos_iff.mpr h).ne'
    rw [List.take_length] at hall
    omega
  rw [extent_take hpos, Nat.min_self, List.length_take_of_le hle]

/-- **Literals without a problem are closed.** What `anomaly?` looks for at the end of the text is
what the scan looked for. -/
theorem Token.terminated_of_anomaly? {source : String} {t : Token}
    (ht : t ∈ (Scanner.ofSource source).toEnd.1.toList) (h : t.anomaly? source = none) :
    t.Terminated source := by
  obtain ⟨state, before, cs, hcs, hkind, htext⟩ := exists_lexeme ht
  obtain ⟨hstring, hvalue, hcomment⟩ := Lexeme.takesLiteral_lex state before hcs
  have hproblem : lexicalProblem? t.kind (t.text source) = none := Option.map_eq_none_iff.mp h
  rw [← hkind] at hstring hvalue hcomment
  rw [htext] at hproblem
  unfold Terminated
  rw [htext, String.toList_ofList]
  generalize (lex state before cs).length = n at *
  unfold lexicalProblem? at hproblem
  rw [String.toList_ofList] at hproblem
  cases hcase : t.kind with
  | string =>
    rw [hcase] at hproblem
    obtain rfl := hstring hcase
    refine Quoted.closed_of_terminated (Quoted.extent_take_self true hcs) ?_
    by_contra hopen
    dsimp only at hproblem
    rw [if_neg hopen] at hproblem
    cases hproblem
  | attrValue =>
    rw [hcase] at hproblem
    dsimp only at hproblem
    refine ⟨fun hquote => ?_, fun hopen => ?_⟩
    · -- a quote is no brace
      have hbraces : ¬ Delimiter.openBraces.isPrefixOf (cs.take n) = true := by
        intro hopen
        obtain ⟨rest, hrest⟩ := List.isPrefixOf_iff_prefix.mp hopen
        rw [← hrest] at hquote
        have hbrace : isQuote '\x7b' = true := hquote
        exact absurd hbrace (by decide)
      have hahead : cs.head?.any isQuote = true := by
        rw [List.head?_take] at hquote
        split at hquote
        · cases hquote
        · exact hquote
      obtain rfl := hvalue hcase hahead
      refine Quoted.closed_of_terminated (Quoted.extent_take_self false hcs) ?_
      by_contra hnot
      rw [if_neg hbraces, hquote, Bool.eq_false_iff.mpr hnot] at hproblem
      cases hproblem
    · rw [if_pos (List.isPrefixOf_iff_prefix.mpr hopen)] at hproblem
      have hclose : endsWith Delimiter.closeBraces (cs.take n) = true := by
        by_contra hnot
        rw [if_neg hnot] at hproblem
        cases hproblem
      exact exists_between hopen hclose (four_le_of_braces hopen hclose)
  | comment =>
    rw [hcase] at hproblem
    dsimp only at hproblem
    obtain ⟨hopen, hn⟩ := hcomment hcase
    have hopen : Delimiter.commentOpen <+: cs.take n := List.prefix_take_iff.mpr ⟨hopen, hn⟩
    split at hproblem
    · cases hproblem
    · rename_i hgood
      rw [Bool.or_eq_true, not_or, decide_eq_true_iff, Bool.not_eq_true', Bool.not_eq_false] at hgood
      exact exists_between hopen hgood.2 (seven_le_of_comment hopen hgood.2 hgood.1)
  | _ => trivial

end RsxInspect
