import Mathlib.Data.List.Find
import RsxInspect.Proofs.Expr.Taken
import RsxInspect.Proofs.Lexeme.Progress
import RsxInspect.Proofs.Lexeme.Reading
import RsxInspect.Proofs.Markup.Words

/-!
# Scanning between braces

Each word of an expression is read for itself if a space or the closing braces stand behind it
(`inExpression_word`). There is one lemma for each sort of word: names, numbers, strings and
operators, which are tried in the order of the rules of `inExpression`.

From this follow, one by one, the heads of interpolations, branches and loops
(`Lexes.interpolation`, `Lexes.ifHead`, `Lexes.eachHead` and their like): behind the opening braces
the words of the head are scanned as they were written, and the closing braces lead back to markup.
-/

namespace RsxInspect

namespace Lexeme

/-- A space or a closing brace comes next, so no word goes on. -/
def WordEnds (rest : List Char) : Prop := ∃ c cs, rest = c :: cs ∧ (c = ' ' ∨ c = '\x7d')

theorem isNamePart_space : isNamePart ' ' = false := not_isNamePart_of_isBlank (by decide)

theorem isNamePart_brace : isNamePart '\x7d' = false := not_isNamePart_of_markStart (by decide)

theorem WordEnds.not_namePart {rest : List Char} (h : WordEnds rest) :
    rest.head?.all (!isNamePart ·) = true := by
  obtain ⟨c, cs, rfl, rfl | rfl⟩ := h
  · rw [List.head?_cons, Option.all_some, isNamePart_space]
    rfl
  · rw [List.head?_cons, Option.all_some, isNamePart_brace]
    rfl

/-! ### Single words

A word is taken whole if what is behind it does not go on with it (`WordEnds`), and a space or the
closing braces never do. -/

/-- A mark that a character does not occur in stands in front of the character or nowhere, so it is
looked for in the word alone. -/
theorem isPrefixOf_append_cons {mark cs : List Char} {c : Char} (h : c ∉ mark) (rest : List Char) :
    mark.isPrefixOf (cs ++ c :: rest) = mark.isPrefixOf cs := by
  induction cs generalizing mark with
  | nil =>
    cases mark with
    | nil => rfl
    | cons d mark =>
      have hd : (d == c) = false := by
        rw [beq_eq_false_iff_ne]
        rintro rfl
        exact h (List.mem_cons_self ..)
      rw [List.nil_append, List.isPrefixOf_cons_cons, hd]
      rfl
  | cons e cs ih =>
    cases mark with
    | nil => rfl
    | cons d mark =>
      rw [List.cons_append, List.isPrefixOf_cons_cons, List.isPrefixOf_cons_cons,
        ih fun hmem => h (List.mem_cons_of_mem d hmem)]

/-- A name in an expression, where none of its characters (`isNamePart`) follow. -/
theorem inExpression_name {c : Char} {cs rest : List Char} (start : isNameStart c = true)
    (parts : ∀ c ∈ cs, isNamePart c = true) (hrest : rest.head?.all (!isNamePart ·) = true) :
    inExpression (c :: cs ++ rest)
      = ⟨(Vocabulary.expressionKeyword? (c :: cs)).getD .identifier, (c :: cs).length,
          .interpolation⟩ := by
  have hall : ∀ d ∈ c :: cs, isNamePart d = true := by
    intro d hd
    rcases List.mem_cons.mp hd with rfl | hd'
    · exact isNamePart_of_isNameStart start
    · exact parts d hd'
  have hcount : Text.countWhile isNamePart (c :: cs ++ rest) = (c :: cs).length :=
    Text.countWhile_append hall hrest
  have hword : (c :: cs ++ rest).takeWhile isNamePart = c :: cs := by
    rw [← Text.take_countWhile, hcount]
    exact List.take_left
  rw [List.cons_append] at hcount hword ⊢
  rw [inExpression_of_isNameStart start, hword, hcount]

theorem isNamePart_of_isDigit {c : Char} (h : c.isDigit = true) : isNamePart c = true := by
  simp [isNamePart, isAlphanumeric, isNumeric, h]

/-- Behind a digit that starts a word, a number is measured by `numberLength`. -/
theorem inExpression_digit {c : Char} {cs : List Char} (h : c.isDigit = true) :
    inExpression (c :: cs) = ⟨.number, numberLength (c :: cs), .interpolation⟩ := by
  have hpart := isNamePart_of_isDigit h
  have hquote : ¬ isQuote c = true := by
    intro hquote
    have hmark : c ∈ markStarts := by
      simp only [isQuote, Bool.or_eq_true, beq_iff_eq] at hquote
      rcases hquote with rfl | rfl <;> decide
    rw [not_isNamePart_of_markStart hmark] at hpart
    cases hpart
  unfold inExpression templateCloseOr blanksOr
  rw [if_neg (not_isPrefixOf_of_isNamePart (by decide) hpart),
    if_neg (not_blanks_of_isNamePart hpart),
    if_neg (not_isPrefixOf_of_isNamePart (by decide) hpart), find?_operator_of_isNamePart hpart]
  simp only
  rw [if_neg hquote, if_pos h]

theorem WordEnds.not_digit {rest : List Char} (h : WordEnds rest) :
    rest.head?.all (!Char.isDigit ·) = true := by
  obtain ⟨c, cs, rfl, rfl | rfl⟩ := h <;> rfl

theorem numberLength_whole {digits rest : List Char} (all : ∀ c ∈ digits, c.isDigit = true)
    (hrest : WordEnds rest) : numberLength (digits ++ rest) = digits.length := by
  have hcount := Text.countWhile_append all hrest.not_digit
  unfold numberLength
  simp only [hcount, List.drop_left]
  obtain ⟨c, cs, rfl, rfl | rfl⟩ := hrest <;> rfl

theorem numberLength_decimal {digits fraction rest : List Char}
    (all : ∀ c ∈ digits, c.isDigit = true) (nonempty : fraction ≠ [])
    (all' : ∀ c ∈ fraction, c.isDigit = true) (hrest : WordEnds rest) :
    numberLength (digits ++ '.' :: fraction ++ rest) = (digits ++ '.' :: fraction).length := by
  obtain ⟨d, ds, rfl⟩ := List.exists_cons_of_ne_nil nonempty
  have hcount : Text.countWhile Char.isDigit (digits ++ '.' :: (d :: ds ++ rest)) = digits.length :=
    Text.countWhile_append all rfl
  have hcount' := Text.countWhile_append all' hrest.not_digit
  rw [List.append_assoc, List.cons_append]
  unfold numberLength
  simp only [hcount, List.drop_left]
  show (if d.isDigit then digits.length + 1 + Text.countWhile Char.isDigit (d :: ds ++ rest)
    else digits.length) = _
  rw [if_pos (all' d (List.mem_cons_self ..)), hcount']
  simp only [List.length_append, List.length_cons]
  omega

theorem Quoted.bodyFrom_append {escapes : Bool} {quote : Char} {n : Nat} {cs : List Char}
    (rest : List Char) (h : (Quoted.bodyFrom escapes quote n cs).closed = true) :
    Quoted.bodyFrom escapes quote n (cs ++ rest) = Quoted.bodyFrom escapes quote n cs := by
  -- an escape that is the last character leaves the string open, against `h`; the rest is the
  -- recursion
  induction n, cs using Quoted.bodyFrom.induct escapes quote with
  | case1 n => cases h
  | case2 n c cs hquote =>
    rw [List.cons_append, Quoted.bodyFrom_cons, Quoted.bodyFrom_cons, if_pos hquote, if_pos hquote]
  | case3 n c hquote hescape =>
    rw [Quoted.bodyFrom_cons, if_neg hquote, if_pos hescape] at h
    cases h
  | case4 n c hquote hescape d cs ih =>
    rw [Quoted.bodyFrom_cons, if_neg hquote, if_pos hescape] at h
    rw [List.cons_append, List.cons_append, Quoted.bodyFrom_cons, if_neg hquote, if_pos hescape,
      Quoted.bodyFrom_cons, if_neg hquote, if_pos hescape]
    exact ih h
  | case5 n c cs hquote hescape ih =>
    rw [Quoted.bodyFrom_cons, if_neg hquote, if_neg hescape] at h
    rw [List.cons_append, Quoted.bodyFrom_cons, Quoted.bodyFrom_cons, if_neg hquote,
      if_neg hescape, if_neg hquote, if_neg hescape]
    exact ih h

theorem inExpression_string {quote : Char} {cs rest : List Char} (hquote : isQuote quote = true)
    (ends : Quoted.body true quote cs = ⟨cs.length, true⟩) :
    inExpression (quote :: cs ++ rest)
      = ⟨.string, (quote :: cs).length, .interpolation⟩ := by
  have hbody : Quoted.body true quote (cs ++ rest) = ⟨cs.length, true⟩ := by
    rw [← ends]
    exact Quoted.bodyFrom_append rest (by rw [← Quoted.body, ends])
  have hread : inExpression (quote :: (cs ++ rest))
      = ⟨.string, (Quoted.extent true (quote :: (cs ++ rest))).length, .interpolation⟩ := by
    simp only [isQuote, Bool.or_eq_true, beq_iff_eq] at hquote
    rcases hquote with rfl | rfl <;> rfl
  rw [List.cons_append, hread, Quoted.extent_cons, hbody, List.length_cons, Nat.add_comm]

theorem inExpression_operator {op rest : List Char} {kind : TokenKind}
    (h : (op, kind) ∈ Vocabulary.operators) (hrest : WordEnds rest) :
    inExpression (op ++ rest) = ⟨kind, op.length, .interpolation⟩ := by
  obtain ⟨c, cs, rfl, hc⟩ := hrest
  -- neither a space nor a brace occurs in any mark that could hide the operator
  have hclose : Delimiter.templateClose.isPrefixOf (op ++ c :: cs) = false := by
    have hall : ∀ p ∈ Vocabulary.operators, Delimiter.templateClose.isPrefixOf p.1 = false := by
      decide
    rw [isPrefixOf_append_cons (by rcases hc with rfl | rfl <;> decide)]
    exact hall _ h
  have hbraces : Delimiter.closeBraces.isPrefixOf (op ++ c :: cs) = false := by
    have hall : ∀ p ∈ Vocabulary.operators,
        p.1.head?.any (fun d => d != '\x7d' && !isBlank d) = true := by decide
    have hhead := hall _ h
    cases op with
    | nil => cases hhead
    | cons d op =>
      simp only [List.head?_cons, Option.any_some, Bool.and_eq_true, bne_iff_ne] at hhead
      have hne : ('\x7d' == d) = false := by
        rw [beq_eq_false_iff_ne]
        exact fun heq => hhead.1 heq.symm
      rw [List.cons_append, Delimiter.closeBraces, List.isPrefixOf_cons_cons, hne]
      rfl
  have hblank : ¬ Text.blanks (op ++ c :: cs) > 0 := by
    have hall : ∀ p ∈ Vocabulary.operators, p.1.head?.any (fun d => !isBlank d) = true := by decide
    have hhead := hall _ h
    cases op with
    | nil => cases hhead
    | cons d op => exact not_blanks (by simpa using hhead)
  have hfind : Vocabulary.operators.find? (·.1.isPrefixOf (op ++ c :: cs)) = some (op, kind) := by
    have hmarks : ∀ p ∈ Vocabulary.operators, c ∉ p.1 := by
      rcases hc with rfl | rfl <;> decide
    have hsame : Vocabulary.operators.find? (·.1.isPrefixOf (op ++ c :: cs))
        = Vocabulary.operators.find? (·.1.isPrefixOf op) := by
      refine List.find?_congr fun p hp => ?_
      exact isPrefixOf_append_cons (hmarks p hp) cs
    have hall : ∀ p ∈ Vocabulary.operators,
        Vocabulary.operators.find? (·.1.isPrefixOf p.1) = some p := by decide
    rw [hsame]
    exact hall _ h
  unfold inExpression templateCloseOr blanksOr
  rw [if_neg (by rw [hclose]; decide), if_neg hblank, if_neg (by rw [hbraces]; decide), hfind]

/-- **Words of expressions.** In front of a space or a closing brace a word is read as it is. The
cases are those of `Word.IsExpression`. -/
theorem inExpression_word {w : Word} (hw : w.IsExpression) {rest : List Char}
    (hrest : WordEnds rest) :
    inExpression (w.chars ++ rest) = ⟨w.kind, w.chars.length, .interpolation⟩ := by
  -- each shape of word is read by its own rule, up to the end that `WordEnds` sets
  cases hw with
  | name start parts => exact inExpression_name start parts hrest.not_namePart
  | @whole digits nonempty all =>
    obtain ⟨c, cs, rfl⟩ := List.exists_cons_of_ne_nil nonempty
    have hlength := numberLength_whole all hrest
    rw [List.cons_append] at hlength
    show inExpression (c :: (cs ++ rest)) = _
    rw [inExpression_digit (all c (List.mem_cons_self ..)), hlength]
  | @decimal digits fraction nonempty all nonempty' all' =>
    obtain ⟨c, cs, rfl⟩ := List.exists_cons_of_ne_nil nonempty
    have hlength := numberLength_decimal all nonempty' all' hrest
    rw [List.cons_append, List.cons_append] at hlength
    show inExpression (c :: (cs ++ _ ++ rest)) = _
    rw [inExpression_digit (all c (List.mem_cons_self ..)), hlength]
    rfl
  | string isQuote ends => exact inExpression_string isQuote ends
  | operator h => exact inExpression_operator h hrest

end Lexeme

/-! ### Words in a row

Words in a row are scanned with a space between them. The spaces are lexemes as well, but blank
ones, so nothing of them is left in the tokens. -/

open Lexeme (WordEnds)

theorem any_head?_append {p : Char → Bool} {cs : List Char} (h : cs.head?.any p = true)
    (rest : List Char) : (cs ++ rest).head?.any p = true := by
  cases cs with
  | nil => cases h
  | cons c cs => exact h

namespace Word

theorem IsExpression.head {w : Word} (hw : w.IsExpression) :
    w.chars.head?.any (!isBlank ·) = true := by
  have hpart : ∀ {c : Char}, isNamePart c = true → (!isBlank c) = true := by
    intro c hc
    rw [Bool.not_eq_true']
    by_contra hblank
    rw [Bool.not_eq_false] at hblank
    rw [not_isNamePart_of_isBlank hblank] at hc
    cases hc
  -- letters, digits, quotes and operators: none of them is a blank
  cases hw with
  | name start _ => exact hpart (isNamePart_of_isNameStart start)
  | @whole digits nonempty all =>
    obtain ⟨c, cs, rfl⟩ := List.exists_cons_of_ne_nil nonempty
    exact hpart (Lexeme.isNamePart_of_isDigit (all c (List.mem_cons_self ..)))
  | @decimal digits fraction nonempty all nonempty' all' =>
    obtain ⟨c, cs, rfl⟩ := List.exists_cons_of_ne_nil nonempty
    exact hpart (Lexeme.isNamePart_of_isDigit (all c (List.mem_cons_self ..)))
  | @string quote cs isQuote ends =>
    simp only [RsxInspect.isQuote, Bool.or_eq_true, beq_iff_eq] at isQuote
    show (!isBlank quote) = true
    rcases isQuote with rfl | rfl <;> decide
  | operator h =>
    have hall : ∀ p ∈ Vocabulary.operators, p.1.head?.any (!isBlank ·) = true := by decide
    exact hall _ h

theorem IsExpression.ne_nil {w : Word} (hw : w.IsExpression) : w.chars ≠ [] := by
  intro hnil
  have hhead := hw.head
  rw [hnil] at hhead
  cases hhead

theorem spaced_cons_cons (w v : Word) (ws : List Word) :
    spaced (w :: v :: ws) = w :: blank :: spaced (v :: ws) := rfl

theorem exists_spaced_cons (v : Word) (ws : List Word) : ∃ us, spaced (v :: ws) = v :: us := by
  cases ws with
  | nil => exact ⟨[], rfl⟩
  | cons u ws => exact ⟨blank :: spaced (u :: ws), rfl⟩

/-- The words of an expression start with no blank. -/
theorem head_spaced {ws : List Word} (hws : ∀ w ∈ ws, w.IsExpression) (hne : ws ≠ [])
    (rest : List Char) : (text (spaced ws) ++ rest).head?.any (!isBlank ·) = true := by
  obtain ⟨v, ws, rfl⟩ := List.exists_cons_of_ne_nil hne
  obtain ⟨us, hus⟩ := exists_spaced_cons v ws
  rw [hus, text_cons, List.append_assoc]
  exact any_head?_append (hws v (List.mem_cons_self ..)).head _

end Word

/-- One space in front of what is no blank is a word of its own (`Word.blank`), in braces and in
tags. -/
theorem lex_space {m : Mode} {last : Option TokenKind} {before : Option Char} {cs : List Char}
    (hm : m = .interpolation ∨ m = .tagOpen) (hcs : cs.head?.any (!isBlank ·) = true) :
    lex ⟨m, last⟩ before (' ' :: cs) = ⟨.whitespace, 1, m⟩ := by
  have hlength : Text.blanks (' ' :: cs) = 1 := by
    have hcount : Text.countWhile isBlank cs = 0 := by
      cases cs with
      | nil => rfl
      | cons c cs =>
        have hc : ¬ isBlank c = true := by simpa using hcs
        rw [Text.countWhile_cons, if_neg hc]
    rw [Text.blanks, Text.countWhile_cons, hcount]
    rfl
  have hclose : ¬ Delimiter.templateClose.isPrefixOf (' ' :: cs) = true :=
    Lexeme.not_isPrefixOf_of_head (by decide) (by decide)
  -- the two modes differ in which rule stands before the one for blanks
  rcases hm with rfl | rfl
  · show Lexeme.inExpression (' ' :: cs) = _
    rw [Lexeme.inExpression_of_isBlank (by decide), hlength]
  · show Lexeme.inStartTag last (' ' :: cs) = _
    unfold Lexeme.inStartTag Lexeme.templateCloseOr Lexeme.blanksOr
    rw [if_neg hclose, if_pos (by rw [hlength]; decide), hlength]

namespace Lexes

variable {last : Option TokenKind} {rest : List Char}

/-- A space between two words of an expression. -/
theorem space {ws : List Word} {n : Mode}
    (hhead : (Word.text ws ++ rest).head?.any (!isBlank ·) = true)
    (more : ∀ last, Lexes .interpolation last ws rest n) :
    Lexes .interpolation last (Word.blank :: ws) rest n :=
  .cons (by decide) (fun _ => lex_space (.inl rfl) hhead) (more _)

/-- A word of an expression (`Word.IsExpression`) in front of a space or a closing brace. -/
theorem word {w : Word} {ws : List Word} {n : Mode} (hw : w.IsExpression)
    (hends : WordEnds (Word.text ws ++ rest))
    (more : ∀ last, Lexes .interpolation last ws rest n) :
    Lexes .interpolation last (w :: ws) rest n :=
  .cons hw.ne_nil (fun _ => Lexeme.inExpression_word hw hends) (more _)

/-- The words of an expression with a space between any two of them (`Word.spaced`), by recursion
over the words. -/
theorem spaced {ws : List Word} (hws : ∀ w ∈ ws, w.IsExpression) (hends : WordEnds rest) :
    Lexes .interpolation last (Word.spaced ws) rest .interpolation := by
  induction ws generalizing last with
  | nil => exact .nil ..
  | cons w ws ih =>
    have hw := hws w (List.mem_cons_self ..)
    cases ws with
    | nil => exact word hw hends fun _ => .nil ..
    | cons v ws =>
      have hmore := fun last => @ih last fun u hu => hws u (List.mem_cons_of_mem w hu)
      rw [Word.spaced_cons_cons]
      refine word hw ⟨' ', _, rfl, .inl rfl⟩ fun _ => space ?_ hmore
      exact Word.head_spaced (fun u hu => hws u (List.mem_cons_of_mem w hu))
        (List.cons_ne_nil v ws) rest

/-- The closing braces, which lead back to the mode `.template`. -/
theorem closeBraces :
    Lexes .interpolation last [⟨.interpolationClose, Delimiter.closeBraces⟩] rest .template :=
  .singleton (by decide) fun _ => rfl

end Lexes

/-! ### Directives

Behind the braces the keyword is read in a mode of its own, and behind the keyword an expression. An
`else` and the `if` behind it are one keyword. -/

namespace Lexeme

/-- A word ends in front of a character that goes on with no name. -/
theorem startsWithWord_append {word cs : List Char} {c : Char} (hword : c ∉ word)
    (hc : isNamePart c = false) (rest : List Char) :
    Text.startsWithWord word (cs ++ c :: rest) = Text.startsWithWord word cs := by
  unfold Text.startsWithWord
  rw [isPrefixOf_append_cons hword]
  by_cases hleads : word.isPrefixOf cs = true
  · obtain ⟨tail, rfl⟩ := List.isPrefixOf_iff_prefix.mp hleads
    rw [List.append_assoc, List.drop_left, List.drop_left]
    cases tail with
    | nil =>
      rw [List.nil_append, List.head?_cons, Option.any_some, hc]
      rfl
    | cons d tail => rfl
  · rw [Bool.not_eq_true] at hleads
    rw [hleads, Bool.false_and, Bool.false_and]

/-- A directive keyword in front of a space or a closing brace: no other one of
`Vocabulary.directiveKeywords` is a beginning of it that ends there. -/
theorem inDirective_keyword {keyword rest : List Char} {kind : TokenKind}
    (h : (keyword, kind) ∈ Vocabulary.directiveKeywords) (hrest : WordEnds rest)
    (helse : elseIfLength? (keyword ++ rest) = none) :
    inDirective (keyword ++ rest) = ⟨kind, keyword.length, .interpolation⟩ := by
  -- no keyword reaches over the end of the word, so it is found as if it stood alone
  have hfind : Vocabulary.directiveKeywords.find? (Text.startsWithWord ·.1 (keyword ++ rest))
      = some (keyword, kind) := by
    have hpart := hrest.not_namePart
    obtain ⟨c, cs, rfl, hc⟩ := hrest
    have hmarks : ∀ p ∈ Vocabulary.directiveKeywords, c ∉ p.1 := by
      rcases hc with rfl | rfl <;> decide
    have hsame : Vocabulary.directiveKeywords.find? (Text.startsWithWord ·.1 (keyword ++ c :: cs))
        = Vocabulary.directiveKeywords.find? (Text.startsWithWord ·.1 keyword) := by
      refine List.find?_congr fun p hp => ?_
      exact startsWithWord_append (hmarks p hp) (by simpa using hpart) cs
    have hall : ∀ p ∈ Vocabulary.directiveKeywords,
        Vocabulary.directiveKeywords.find? (Text.startsWithWord ·.1 p.1) = some p := by
      decide +kernel
    rw [hsame]
    exact hall _ h
  obtain ⟨d, c, word, rfl, hd, -, -⟩ := keyword_eq h
  rw [List.cons_append] at helse hfind ⊢
  rw [inDirective_of_start hd, helse, hfind]

/-- The words `:else if` in front of a space or a closing brace. -/
theorem inDirective_elseIf {rest : List Char} (hrest : WordEnds rest) :
    inDirective ([':', 'e', 'l', 's', 'e', ' ', 'i', 'f'] ++ rest) = ⟨.elseIf, 8, .interpolation⟩ := by
  have hpart := hrest.not_namePart
  obtain ⟨c, cs, rfl, hc⟩ := hrest
  have hword : Text.startsWithWord ['i', 'f'] (['i', 'f'] ++ c :: cs) = true := by
    rw [startsWithWord_append (by rcases hc with rfl | rfl <;> decide) (by simpa using hpart)]
    rfl
  have hlength : elseIfLength? (':' :: (['e', 'l', 's', 'e', ' ', 'i', 'f'] ++ c :: cs)) = some 8 := by
    show (if true && decide (1 > 0) && Text.startsWithWord ['i', 'f'] (['i', 'f'] ++ c :: cs)
      then some 8 else none) = some 8
    rw [hword]
    rfl
  rw [List.cons_append, inDirective_of_start (by decide), hlength]

end Lexeme

namespace Lexes

variable {last : Option TokenKind} {rest : List Char}

/-- Opening braces: what stands behind them decides on the mode (`Lexeme.modeInBraces`). -/
theorem openBraces {ws : List Word} {m n : Mode}
    (hmode : Lexeme.modeInBraces (Word.text ws ++ rest) = m)
    (more : ∀ last, Lexes m last ws rest n) :
    Lexes .template last (⟨.interpolationOpen, Delimiter.openBraces⟩ :: ws) rest n := by
  refine .cons (by decide) (fun before => ?_) (more _)
  show (⟨.interpolationOpen, 2, Lexeme.modeInBraces (Word.text ws ++ rest)⟩ : Lexeme) = _
  rw [hmode]
  rfl

/-- A directive keyword right behind the opening braces, where the mode is `.directive`. -/
theorem keyword {w : Word} {ws : List Word} {n : Mode} (hne : w.chars ≠ [])
    (hw : Lexeme.inDirective (w.chars ++ (Word.text ws ++ rest))
      = ⟨w.kind, w.chars.length, .interpolation⟩)
    (hmode : Lexeme.modeInBraces (w.chars ++ (Word.text ws ++ rest)) = .directive)
    (more : ∀ last, Lexes .interpolation last ws rest n) :
    Lexes .template last (⟨.interpolationOpen, Delimiter.openBraces⟩ :: w :: ws) rest n := by
  have hdirective : ∀ last, Lexes .directive last (w :: ws) rest n :=
    fun _ => .cons hne (fun _ => hw) (more _)
  refine openBraces ?_ hdirective
  rw [Word.text_cons, List.append_assoc]
  exact hmode

/-- Braces with a keyword and a run of words (`headWords`): opening braces, keyword, space, run,
space, closing braces. -/
theorem head {w : Word} {run : List Word} (hne : w.chars ≠ [])
    (hw : ∀ rest, WordEnds rest → Lexeme.inDirective (w.chars ++ rest)
      = ⟨w.kind, w.chars.length, .interpolation⟩)
    (hmode : ∀ rest, Lexeme.modeInBraces (w.chars ++ rest) = .directive)
    (hhead : ∀ rest, (Word.text run ++ rest).head?.any (!isBlank ·) = true)
    (hrun : ∀ last, Lexes .interpolation last run (Delimiter.closeBraces ++ rest) .interpolation) :
    Lexes .template last (Markup.headWords w run) rest .template := by
  refine keyword hne (hw _ ⟨' ', _, rfl, .inl rfl⟩) (hmode _) fun _ => ?_
  refine space ?_ fun _ => append (hrun _) fun _ => closeBraces
  show (Word.text (run ++ [_]) ++ rest).head?.any _ = true
  rw [Word.text_append, List.append_assoc]
  exact hhead _

/-- Braces with a keyword that stands alone (`braceWords`). -/
theorem alone {w : Word} (hne : w.chars ≠ [])
    (hw : ∀ rest, Lexeme.inDirective (w.chars ++ (Delimiter.closeBraces ++ rest))
      = ⟨w.kind, w.chars.length, .interpolation⟩)
    (hmode : ∀ rest, Lexeme.modeInBraces (w.chars ++ rest) = .directive) :
    Lexes .template last (Markup.braceWords [w]) rest .template :=
  keyword hne (hw rest) (hmode _) fun _ => closeBraces

end Lexes

/-! ### Heads

Each head is put together from braces, a keyword, the words of an expression, and braces again. -/

theorem Phrase.words_ne_nil (e : Phrase) : e.words ≠ [] := by
  intro hnil
  have haccepted := e.accepted
  rw [hnil] at haccepted
  exact Expr.parse_ne_nil haccepted rfl

namespace Lexes

open Markup

variable {last : Option TokenKind} {rest : List Char}

/-- The words of a `Phrase`, with a space between any two of them. -/
theorem phrase (e : Phrase) (hends : WordEnds rest) :
    Lexes .interpolation last (Word.spaced e.words) rest .interpolation :=
  spaced e.areExpression hends

theorem head_phrase (e : Phrase) (rest : List Char) :
    (Word.text (Word.spaced e.words) ++ rest).head?.any (!isBlank ·) = true :=
  Word.head_spaced e.areExpression e.words_ne_nil rest

/-- The closing braces end a word. -/
theorem wordEnds_closeBraces (rest : List Char) : WordEnds (Delimiter.closeBraces ++ rest) :=
  ⟨'\x7d', '\x7d' :: rest, rfl, .inr rfl⟩

/-- An interpolation with a space on either side of the expression, so its first character starts no
directive. -/
theorem interpolation (e : Phrase) :
    Lexes .template last (braceWords (Word.blank :: (Word.spaced e.words ++ [Word.blank]))) rest
      .template := by
  refine openBraces rfl fun _ => ?_
  rw [List.cons_append, List.append_assoc]
  refine space ?_ fun _ => append (phrase e ⟨' ', _, rfl, .inl rfl⟩) fun _ => ?_
  · rw [Word.text_append, List.append_assoc]
    exact head_phrase e _
  · exact space rfl fun _ => closeBraces

theorem htmlHead (e : Phrase) :
    Lexes .template last (headWords htmlWord (Word.spaced e.words)) rest .template :=
  head (by decide) (fun _ h => Lexeme.inDirective_keyword (by decide) h rfl) (fun _ => rfl)
    (head_phrase e) fun _ => phrase e (wordEnds_closeBraces rest)

theorem ifHead (e : Phrase) :
    Lexes .template last (headWords ifWord (Word.spaced e.words)) rest .template :=
  head (by decide) (fun _ h => Lexeme.inDirective_keyword (by decide) h rfl) (fun _ => rfl)
    (head_phrase e) fun _ => phrase e (wordEnds_closeBraces rest)

theorem elseIfHead (e : Phrase) :
    Lexes .template last (headWords elseIfWord (Word.spaced e.words)) rest .template :=
  head (by decide) (fun _ => Lexeme.inDirective_elseIf) (fun _ => rfl)
    (head_phrase e) fun _ => phrase e (wordEnds_closeBraces rest)

theorem elseHead : Lexes .template last (braceWords [elseWord]) rest .template :=
  alone (by decide)
    (fun rest => Lexeme.inDirective_keyword (by decide) (wordEnds_closeBraces rest) rfl)
    fun _ => rfl

theorem endIf : Lexes .template last (braceWords [endIfWord]) rest .template :=
  alone (by decide)
    (fun rest => Lexeme.inDirective_keyword (by decide) (wordEnds_closeBraces rest) rfl)
    fun _ => rfl

theorem endEach : Lexes .template last (braceWords [endEachWord]) rest .template :=
  alone (by decide)
    (fun rest => Lexeme.inDirective_keyword (by decide) (wordEnds_closeBraces rest) rfl)
    fun _ => rfl

theorem isExpression_asWord : asWord.IsExpression := by
  have hparts : ∀ c ∈ ['s'], isNamePart c = true := by
    intro c hc
    rw [List.mem_singleton.mp hc]
    decide
  exact Word.IsExpression.name (c := 'a') (by decide) hparts

/-- A name that is bound, where no name goes on behind it: a comma or a blank does. -/
theorem binder (b : Binder) {ws : List Word} {n : Mode}
    (hrest : (Word.text ws ++ rest).head?.all (!isNamePart ·) = true)
    (more : ∀ last, Lexes .interpolation last ws rest n) :
    Lexes .interpolation last (⟨.identifier, b.chars⟩ :: ws) rest n := by
  obtain ⟨chars, start, parts, notKeyword⟩ := b
  cases chars with
  | nil => cases start
  | cons c cs =>
    refine .cons (List.cons_ne_nil c cs) (fun _ => ?_) (more _)
    show Lexeme.inExpression (c :: cs ++ (Word.text ws ++ rest)) = _
    rw [Lexeme.inExpression_name start (fun d hd => parts d (List.mem_cons_of_mem c hd)) hrest,
      notKeyword]
    rfl

theorem head_binder (b : Binder) (rest : List Char) :
    (b.chars ++ rest).head?.any (!isBlank ·) = true := by
  refine any_head?_append ?_ rest
  obtain ⟨chars, start, parts, notKeyword⟩ := b
  cases chars with
  | nil => cases start
  | cons c cs =>
    exact (Word.IsExpression.name start fun d hd => parts d (List.mem_cons_of_mem c hd)).head

/-- The names that a loop binds (`bindingWords`): the item, and the index behind a comma if there is
one. -/
theorem binding (item : Binder) (index : Option Binder) (hends : WordEnds rest) :
    Lexes .interpolation last (bindingWords item index) rest .interpolation := by
  cases index with
  | none => exact binder item hends.not_namePart fun _ => .nil ..
  | some index =>
    refine binder item (by rfl) fun _ => ?_
    refine word (.operator (by decide)) ⟨' ', _, rfl, .inl rfl⟩ fun _ => ?_
    refine space ?_ fun _ => binder index hends.not_namePart fun _ => .nil ..
    show (index.chars ++ [] ++ rest).head?.any _ = true
    rw [List.append_nil]
    exact head_binder index rest

theorem eachHead (list : Phrase) (item : Binder) (index : Option Binder) :
    Lexes .template last (headWords eachWord (loopWords list item index)) rest .template := by
  refine head (by decide) (fun _ h => Lexeme.inDirective_keyword (by decide) h rfl) (fun _ => rfl)
    (fun rest => ?_) fun _ => ?_
  · rw [loopWords, Word.text_append, List.append_assoc]
    exact head_phrase list _
  · refine append (phrase list ⟨' ', _, rfl, .inl rfl⟩) fun _ => ?_
    refine space rfl fun _ => ?_
    refine word isExpression_asWord ⟨' ', _, rfl, .inl rfl⟩ fun _ => ?_
    refine space ?_ fun _ => binding item index (wordEnds_closeBraces rest)
    rw [bindingWords, Word.text_cons, List.append_assoc]
    exact head_binder item _

end Lexes

end RsxInspect
