import RsxInspect.Proofs.Lexeme.Window
import RsxInspect.Proofs.Markup.PhraseRead
import RsxInspect.Proofs.Markup.PhraseScan
import RsxInspect.Proofs.Text.Items

/-!
# Expressions written out

A lexeme of an expression is told from its characters alone (`Word.IsLexeme`): a word, a number, a
literal that its own quote closes, or an operator of the table. Lexemes are written out with one
space between any two of them (`Word.joined`). `scan?_joined` reads them back: a scan between braces
finds these lexemes in their order, each where it was written, and one blank in each gap.
-/

namespace RsxInspect

open String (utf8Len)
open FrontMatter (Literal)

namespace Word

/-! ### Lexemes -/

/-- The words that stand for something else than a name. -/
def reserved : List (List Char) :=
  [['t', 'r', 'u', 'e'], ['f', 'a', 'l', 's', 'e'], ['a', 's']]

/-- A lexeme of an expression: its characters and the kind that they give it. -/
inductive IsLexeme : Word → Prop where
  | truth : IsLexeme ⟨.boolean, ['t', 'r', 'u', 'e']⟩
  | falsity : IsLexeme ⟨.boolean, ['f', 'a', 'l', 's', 'e']⟩
  | as : IsLexeme ⟨.asWord, ['a', 's']⟩
  | name {c : Char} {cs : List Char} (start : isNameStart c = true)
      (parts : ∀ d ∈ cs, isNamePart d = true) (free : c :: cs ∉ reserved) :
      IsLexeme ⟨.identifier, c :: cs⟩
  | whole {digits : List Char} (nonempty : digits ≠ []) (all : ∀ c ∈ digits, c.isDigit = true) :
      IsLexeme ⟨.number, digits⟩
  | decimal {digits fraction : List Char} (nonempty : digits ≠ [])
      (all : ∀ c ∈ digits, c.isDigit = true) (nonempty' : fraction ≠ [])
      (all' : ∀ c ∈ fraction, c.isDigit = true) :
      IsLexeme ⟨.number, digits ++ '.' :: fraction⟩
  | string {quote : Char} {cs : List Char} (isQuote : quote = '"' ∨ quote = '\'')
      (closed : Literal quote cs) : IsLexeme ⟨.string, quote :: cs⟩
  | operator {op : List Char} {kind : TokenKind} (h : (op, kind) ∈ Vocabulary.operators) :
      IsLexeme ⟨kind, op⟩

theorem expressionKeyword?_eq_none {word : List Char} (h : word ∉ reserved) :
    Vocabulary.expressionKeyword? word = none := by
  simp only [reserved, List.mem_cons, List.not_mem_nil, or_false, not_or] at h
  simp [Vocabulary.expressionKeyword?, h]

/-- The kind of a lexeme (`IsLexeme`) is the one that the scan gives to its characters. -/
theorem IsLexeme.isExpression {w : Word} (h : w.IsLexeme) : w.IsExpression := by
  cases h with
  | truth =>
    have hparts : ['r', 'u', 'e'].all isNamePart = true := by decide +kernel
    exact @IsExpression.name 't' _ (by decide +kernel) (List.all_eq_true.mp hparts)
  | falsity =>
    have hparts : ['a', 'l', 's', 'e'].all isNamePart = true := by decide +kernel
    exact @IsExpression.name 'f' _ (by decide +kernel) (List.all_eq_true.mp hparts)
  | as =>
    have hparts : ['s'].all isNamePart = true := by decide +kernel
    exact @IsExpression.name 'a' _ (by decide +kernel) (List.all_eq_true.mp hparts)
  | @name c cs start parts free =>
    -- a name that is no keyword gets the kind of an identifier
    have hname := IsExpression.name start parts
    rw [expressionKeyword?_eq_none free] at hname
    exact hname
  | whole nonempty all => exact .whole nonempty all
  | decimal nonempty all nonempty' all' => exact .decimal nonempty all nonempty' all'
  | @string quote cs isQuote closed =>
    refine .string ?_ (closed.body_eq ?_)
    · rcases isQuote with rfl | rfl <;> rfl
    · rcases isQuote with rfl | rfl <;> decide
  | operator h => exact .operator h

/-! ### Lexemes in a row -/

/-- The characters of lexemes with a single space between any two of them. -/
def joined (ws : List Word) : List Char := [' '].intercalate (ws.map chars)

/-- The tokens of lexemes that are written from an offset on with a single space in between. -/
def tokensApart (offset : Nat) : List Word → List Token
  | [] => []
  | w :: ws =>
    ⟨w.kind, ⟨offset, offset + utf8Len w.chars⟩⟩ :: tokensApart (offset + utf8Len w.chars + 1) ws

theorem text_spaced (ws : List Word) : text (spaced ws) = joined ws := by
  induction ws with
  | nil => rfl
  | cons w ws ih =>
    cases ws with
    | nil => simp [spaced, joined, List.intercalate]
    | cons v ws =>
      rw [spaced_cons_cons, text_cons, text_cons, ih]
      simp [joined, List.intercalate, blank]

theorem significantFrom_spaced {ws : List Word} (h : ∀ w ∈ ws, w.kind ≠ .whitespace)
    (offset : Nat) : significantFrom offset (spaced ws) = tokensApart offset ws := by
  induction ws generalizing offset with
  | nil => rfl
  | cons w ws ih =>
    have hw : w.kind ≠ .whitespace := h w (List.mem_cons_self ..)
    have hmore := ih fun v hv => h v (List.mem_cons_of_mem w hv)
    cases ws with
    | nil => exact significantFrom_cons offset [] hw
    | cons v ws =>
      rw [spaced_cons_cons, significantFrom_cons offset _ hw, significantFrom_blank _ _ rfl, hmore]
      rfl

end Word

/-! ### Reading lexemes back

A space ends every lexeme, so each is read as it is read alone. At the end of the source there is
none, but nothing follows there either (`Lexeme.inExpression_last`). -/

/-- A word with nothing behind it is read as in front of a space. -/
theorem Lexeme.inExpression_last {w : Word} (hw : w.IsExpression) :
    inExpression w.chars = ⟨w.kind, w.chars.length, .interpolation⟩ := by
  have hspace : inExpression (w.chars ++ [' ']) = ⟨w.kind, w.chars.length, .interpolation⟩ :=
    inExpression_word hw ⟨' ', [], rfl, .inl rfl⟩
  have hpos := List.length_pos_iff.mpr hw.ne_nil
  have hcut : inExpression ((w.chars ++ [' ']).take w.chars.length) = inExpression (w.chars ++ [' ']) :=
    inExpression_take hpos (by simp [hspace])
  rw [List.take_left, hspace] at hcut
  exact hcut

/-- Words of an expression with a space between any two of them (`Word.spaced`) and nothing behind
are scanned one by one, in braces all along. -/
theorem Lexes.spaced_whole {ws : List Word} (hws : ∀ w ∈ ws, w.IsExpression)
    (last : Option TokenKind) : Lexes .interpolation last (Word.spaced ws) [] .interpolation := by
  induction ws generalizing last with
  | nil => exact .nil ..
  | cons w ws ih =>
    have hw := hws w (List.mem_cons_self ..)
    have hmore : ∀ u ∈ ws, u.IsExpression := fun u hu => hws u (List.mem_cons_of_mem w hu)
    cases ws with
    | nil =>
      refine .singleton hw.ne_nil fun before => ?_
      rw [List.append_nil]
      exact Lexeme.inExpression_last hw
    | cons v ws =>
      rw [Word.spaced_cons_cons]
      apply Lexes.word hw ⟨' ', _, rfl, .inl rfl⟩
      intro _
      apply Lexes.space
      · exact Word.head_spaced hmore (List.cons_ne_nil v ws) []
      · exact ih hmore

/-- **Lexemes survive being written out.** Between braces a scan (`scan?`) of lexemes
(`Word.IsLexeme`) with a single space in between reads each of them where it was written, with its
kind and its characters, and one blank in each gap. It ends behind the last one, still between
braces. -/
theorem scan?_joined {source : String} {before after : List Char} {ws : List Word}
    (hws : ∀ w ∈ ws, w.IsLexeme) (hsource : source.toList = before ++ Word.joined ws ++ after) :
    ∃ b, scan? source (utf8Len before) (utf8Len (before ++ Word.joined ws)) .interpolation = some b ∧
      significant b.tokens.toList = Word.tokensApart (utf8Len before) ws ∧
      (significant b.tokens.toList).map (fun t => (⟨t.kind, (t.text source).toList⟩ : Word)) = ws ∧
      b.tokens.toList = Word.tokensFrom (utf8Len before) (Word.spaced ws) ∧
      b.state.mode = .interpolation ∧ b.offset = utf8Len (before ++ Word.joined ws) := by
  have hexpression : ∀ w ∈ ws, w.IsExpression := fun w hw => (hws w hw).isExpression
  have htrivia : ∀ w ∈ ws, w.kind.isTrivia = false := fun w hw => (hexpression w hw).not_trivia
  have hkinds : ∀ w ∈ ws, w.kind ≠ .whitespace := by
    intro w hw hblank
    have := htrivia w hw
    rw [hblank] at this
    cases this
  have htext := Word.text_spaced ws
  -- the run behind the characters in front
  obtain ⟨last, hreads⟩ := (Lexes.spaced_whole hexpression (some .interpolationOpen)).reads before
  rw [List.append_nil, htext] at hreads
  have hwindow := Cursor.ofRange_of_split before (Word.joined ws) after hsource
  let b : Batch := ⟨(Word.tokensFrom (utf8Len before) (Word.spaced ws)).toArray,
    ⟨.interpolation, last⟩, utf8Len (before ++ Word.joined ws)⟩
  have hscan : scan? source (utf8Len before) (utf8Len (before ++ Word.joined ws)) .interpolation
      = some b := by
    apply Scanner.scan?_eq_some_iff.mpr
    refine ⟨.behind (before ++ Word.joined ws) [] ⟨.interpolation, last⟩, ?_, rfl, rfl, rfl⟩
    rw [Scanner.ofRange, hwindow]
    exact hreads
  have hstands : Stands source (utf8Len before) (Word.text (Word.spaced ws)) := by
    rw [htext]
    exact ⟨before, after, hsource, rfl⟩
  refine ⟨b, hscan, ?_, ?_, rfl, rfl, rfl⟩
  · exact Word.significantFrom_spaced hkinds _
  · exact hstands.words.trans (Word.filter_spaced hexpression)

/-- The marks of a closing tag one by one, and one inside a literal behind a protected quote. -/
theorem scan?_joined_closing_marks :
    let ws : List Word := [⟨.lt, ['<']⟩, ⟨.slash, ['/']⟩, ⟨.identifier, "template".toList⟩,
      ⟨.gt, ['>']⟩, ⟨.string, "\"\\\"</template>\"".toList⟩, ⟨.number, "1.5".toList⟩, ⟨.asWord, "as".toList⟩]
    let source := String.ofList "(< / template > \"\\\"</template>\" 1.5 as)".toList
    ∃ b, scan? source 1 38 .interpolation = some b ∧
      significant b.tokens.toList = [⟨.lt, ⟨1, 2⟩⟩, ⟨.slash, ⟨3, 4⟩⟩, ⟨.identifier, ⟨5, 13⟩⟩,
        ⟨.gt, ⟨14, 15⟩⟩, ⟨.string, ⟨16, 31⟩⟩, ⟨.number, ⟨32, 35⟩⟩, ⟨.asWord, ⟨36, 38⟩⟩] ∧
      (significant b.tokens.toList).map (fun t => (⟨t.kind, (t.text source).toList⟩ : Word)) = ws ∧
      b.state.mode = .interpolation := by
  intro ws source
  have hws : ∀ w ∈ ws, w.IsLexeme := by
    intro w hw
    simp only [ws, List.mem_cons, List.not_mem_nil, or_false] at hw
    rcases hw with rfl | rfl | rfl | rfl | rfl | rfl | rfl
    · exact .operator (by decide)
    · exact .operator (by decide)
    · have hparts : "emplate".toList.all isNamePart = true := by decide +kernel
      exact .name (by decide +kernel) (List.all_eq_true.mp hparts) (by decide)
    · exact .operator (by decide)
    · apply Word.IsLexeme.string (.inl rfl)
      apply Literal.escape '"'
      have hplain : ∀ c ∈ "</template>".toList, c ≠ '"' ∧ c ≠ '\\' := by simp
      exact .of_plain hplain
    · exact @Word.IsLexeme.decimal ['1'] ['5'] (by decide) (by simp) (by decide) (by simp)
    · exact .as
  have hsource : source.toList = ['('] ++ Word.joined ws ++ [')'] := by decide +kernel
  obtain ⟨b, hscan, hwhere, hwords, -, hmode, -⟩ := scan?_joined hws hsource
  exact ⟨b, hscan, hwhere, hwords, hmode⟩

end RsxInspect
