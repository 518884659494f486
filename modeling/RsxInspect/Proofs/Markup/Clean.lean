import RsxInspect.Proofs.Lexeme.Transition
import RsxInspect.Proofs.Markup.Words
import RsxInspect.Proofs.Text.Quoted

/-!
# The words of markup have nothing wrong with them

A tree is written in four sorts of words (`Word.Written`): those whose kind can have no lexical
problem, the words of its expressions, quoted values and comments. `Markup.writtenAll_wordsAll` goes
through the tree once, and what holds of each sort holds of the tree: no word carries a lexical problem
by itself, since strings, quoted values and comments are all closed where they end (`WrittenAll.clean`),
and no value starts with braces (`Written.not_braced`), so none is scanned again.
-/

namespace RsxInspect

/-! ### Words

Only literals, comments and bad characters can have lexical problems, so of most words there is
nothing to show (`clean_of_kind`). -/

/-- The word has no lexical problem (`lexicalProblem?`). -/
def Word.Clean (w : Word) : Prop := lexicalProblem? w.kind (String.ofList w.chars) = none

namespace Word

/-- The kinds that can have lexical problems: literals, comments and bad characters. -/
def delicate : List TokenKind := [.badCharacter, .string, .attrValue, .comment]

theorem clean_of_kind {k : TokenKind} (h : k ∉ delicate) (cs : List Char) : Clean ⟨k, cs⟩ := by
  cases k <;> first | rfl | exact absurd (by decide) h

theorem IsExpression.clean {w : Word} (hw : w.IsExpression) : w.Clean := by
  cases hw with
  | @name c cs start parts =>
    refine clean_of_kind ?_ (c :: cs)
    unfold Vocabulary.expressionKeyword?
    repeat' split
    all_goals decide
  | whole | decimal => exact clean_of_kind (by decide) _
  | @string quote cs isQuote ends =>
    unfold Clean lexicalProblem?
    rw [String.toList_ofList]
    dsimp only
    rw [if_pos (Quoted.terminated_of_body ends)]
  | @operator op kind h =>
    have hall : ∀ p ∈ Vocabulary.operators, p.2 ∉ delicate := by decide
    exact clean_of_kind (hall _ h) op

end Word

namespace Markup

/-- A quoted value starts with its quote. -/
theorem not_braced_render (v : QuotedValue) : ¬ Delimiter.openBraces.isPrefixOf v.render = true := by
  obtain ⟨quote, chars, isQuote, fits⟩ := v
  show ¬ Delimiter.openBraces.isPrefixOf (quote :: (chars ++ [quote])) = true
  rw [Delimiter.openBraces, List.isPrefixOf_cons_cons]
  intro h
  rw [Bool.and_eq_true, beq_iff_eq] at h
  rw [← h.1] at isQuote
  exact absurd isQuote (by decide)

theorem clean_value (v : QuotedValue) : Word.Clean ⟨.attrValue, v.render⟩ := by
  have hbraces := not_braced_render v
  obtain ⟨quote, chars, isQuote, fits⟩ := v
  have hterminated : Quoted.terminated false (quote :: (chars ++ [quote])) = true := by
    rw [Quoted.terminated, List.getLast?_concat]
    simp
  unfold Word.Clean lexicalProblem?
  rw [String.toList_ofList]
  dsimp only
  rw [if_neg hbraces, QuotedValue.render, hterminated, Bool.not_true, Bool.and_false, if_neg (by decide)]

theorem clean_comment (c : CommentText) :
    Word.Clean ⟨.comment, ['<', '!', '-', '-'] ++ c.chars ++ ['-', '-', '>']⟩ := by
  have hends : endsWith Delimiter.commentClose
      (['<', '!', '-', '-'] ++ c.chars ++ ['-', '-', '>']) = true := by
    rw [endsWith, List.reverse_append]
    exact List.isPrefixOf_iff_prefix.mpr (List.prefix_append ..)
  have hsize : ¬ (String.ofList (['<', '!', '-', '-'] ++ c.chars ++ ['-', '-', '>'])).utf8ByteSize
      < 7 := by
    rw [String.utf8ByteSize_ofList, String.utf8Len_append, String.utf8Len_append]
    show ¬ 4 + String.utf8Len c.chars + 3 < 7
    omega
  unfold Word.Clean lexicalProblem?
  rw [String.toList_ofList]
  dsimp only
  rw [hends, decide_eq_false hsize]
  rfl

/-- Words in a row without lexical problems: what `lexicalProblem?` says of each of them is
nothing. -/
def CleanAll (ws : List Word) : Prop := ∀ w ∈ ws, w.Clean

end Markup

/-- The words that a tree is written in, by what there is to check in them. -/
inductive Word.Written : Word → Prop where
  /-- A word whose kind can have no lexical problem. -/
  | plain {k : TokenKind} (hk : k ∉ delicate) (cs : List Char) : Written ⟨k, cs⟩
  | expression {w : Word} (hw : w.IsExpression) : Written w
  | value (v : QuotedValue) : Written ⟨.attrValue, v.render⟩
  | comment (c : CommentText) :
      Written ⟨.comment, ['<', '!', '-', '-'] ++ c.chars ++ ['-', '-', '>']⟩

namespace Word

theorem Written.clean {w : Word} (h : w.Written) : w.Clean := by
  cases h with
  | plain hk cs => exact clean_of_kind hk cs
  | expression hw => exact hw.clean
  | value v => exact Markup.clean_value v
  | comment c => exact Markup.clean_comment c

/-- No word of an expression is the value of an attribute. -/
theorem IsExpression.kind_ne_attrValue {w : Word} (hw : w.IsExpression) : w.kind ≠ .attrValue := by
  have hkind : w.kind.isExpression = true := by
    cases hw with
    | name => exact Lexeme.isExpression_of_word _
    | whole | decimal | string => rfl
    | @operator op kind h =>
      have hall : ∀ p ∈ Vocabulary.operators, p.2.isExpression = true := by decide
      exact hall _ h
  intro hvalue
  rw [hvalue] at hkind
  cases hkind

/-- Values are written in quotes, never between braces, so `valuesEnd` asks for no scan of them. -/
theorem Written.not_braced {w : Word} (h : w.Written) (hkind : w.kind = .attrValue) :
    ¬ Delimiter.openBraces.isPrefixOf w.chars = true := by
  cases h with
  | plain hk cs =>
    obtain rfl := hkind
    exact absurd (by decide) hk
  | expression hw => exact absurd hkind hw.kind_ne_attrValue
  | value v => exact Markup.not_braced_render v
  | comment c => cases hkind

end Word

namespace Markup

/-! ### The words of a tree

The words of a tree are `Written`, which follows its syntax; that they are clean is then one lemma
about words. -/

/-- Words in a row that a tree can be written in (`Word.Written`). -/
def WrittenAll (ws : List Word) : Prop := ∀ w ∈ ws, w.Written

theorem WrittenAll.clean {ws : List Word} (h : WrittenAll ws) : CleanAll ws :=
  fun w hw => (h w hw).clean

theorem WrittenAll.append {ws vs : List Word} (h : WrittenAll ws) (h' : WrittenAll vs) :
    WrittenAll (ws ++ vs) :=
  List.forall_mem_append.mpr ⟨h, h'⟩

theorem WrittenAll.cons {w : Word} {ws : List Word} (h : w.Written) (h' : WrittenAll ws) :
    WrittenAll (w :: ws) :=
  List.forall_mem_cons.mpr ⟨h, h'⟩

theorem writtenAll_nil : WrittenAll [] := nofun

theorem WrittenAll.plain {k : TokenKind} {cs : List Char} {ws : List Word} (h : WrittenAll ws)
    (hk : k ∉ Word.delicate) : WrittenAll (⟨k, cs⟩ :: ws) :=
  .cons (.plain hk cs) h

theorem writtenAll_spaced {ws : List Word} (hws : ∀ w ∈ ws, w.IsExpression) :
    WrittenAll (Word.spaced ws) := by
  induction ws with
  | nil => exact writtenAll_nil
  | cons w ws ih =>
    have hw := Word.Written.expression (hws w (List.mem_cons_self ..))
    have hmore := ih fun v hv => hws v (List.mem_cons_of_mem w hv)
    cases ws with
    | nil => exact .cons hw writtenAll_nil
    | cons v ws => exact .cons hw (.plain hmore (by decide))

theorem writtenAll_braceWords {ws : List Word} (h : WrittenAll ws) : WrittenAll (braceWords ws) :=
  .plain (.append h (.plain writtenAll_nil (by decide))) (by decide)

theorem writtenAll_headWords {k : TokenKind} {cs : List Char} {run : List Word}
    (hk : k ∉ Word.delicate) (h : WrittenAll run) : WrittenAll (headWords ⟨k, cs⟩ run) :=
  writtenAll_braceWords (.plain (.plain h (by decide)) hk)

theorem writtenAll_loopWords (list : Phrase) (item : Binder) (index : Option Binder) :
    WrittenAll (loopWords list item index) := by
  refine .append (writtenAll_spaced list.areExpression) ?_
  refine .plain (.plain (.plain (.plain ?_ (by decide)) (by decide)) (by decide)) (by decide)
  cases index with
  | none => exact writtenAll_nil
  | some index =>
    exact .plain (.plain (.plain writtenAll_nil (by decide)) (by decide)) (by decide)

theorem writtenAll_tagWords (name : MarkupName) (as : List MarkupAttribute) :
    WrittenAll (tagWords name as) := by
  refine .plain (.plain ?_ (by decide)) (by decide)
  induction as with
  | nil => exact writtenAll_nil
  | cons a as ih =>
    rw [List.flatMap_cons]
    refine .append (.plain (.plain ?_ (by decide)) (by decide)) ih
    cases a.value with
    | none => exact writtenAll_nil
    | some v => exact .plain (.cons (.value v) writtenAll_nil) (by decide)

theorem writtenAll_endTagWords (name : MarkupName) : WrittenAll (endTagWords name) :=
  .plain (.plain (.plain writtenAll_nil (by decide)) (by decide)) (by decide)

theorem writtenAll_textWords (cs : List Char) : WrittenAll (textWords cs) := by
  rintro ⟨kind, chars⟩ hw
  rcases kind_textWords hw with hblank | htext
  · obtain rfl : kind = .whitespace := hblank
    exact .plain (by decide) chars
  · obtain rfl : kind = .text := htext
    exact .plain (by decide) chars

mutual

theorem writtenAll_words : (m : Markup) → WrittenAll (words m)
  | .element name as children =>
    .append (writtenAll_tagWords name.toMarkupName as)
      (.plain (.append (writtenAll_wordsAll children) (writtenAll_endTagWords name.toMarkupName))
        (by decide))
  | .void name as =>
    .append (writtenAll_tagWords name.toMarkupName as) (.plain writtenAll_nil (by decide))
  | .selfClosing name as =>
    .append (writtenAll_tagWords name as) (.plain (.plain writtenAll_nil (by decide)) (by decide))
  | .text t => writtenAll_textWords t.chars
  | .comment c => .cons (.comment c) writtenAll_nil
  | .interpolation false e =>
    writtenAll_braceWords (.plain (.append (writtenAll_spaced e.areExpression)
      (.plain writtenAll_nil (by decide))) (by decide))
  | .interpolation true e => writtenAll_headWords (by decide) (writtenAll_spaced e.areExpression)
  | .choice condition children others =>
    .append (writtenAll_headWords (by decide) (writtenAll_spaced condition.areExpression))
      (.append (writtenAll_wordsAll children) (.append (writtenAll_wordsOthers others)
        (writtenAll_braceWords (.plain writtenAll_nil (by decide)))))
  | .loop list item index children =>
    .append (writtenAll_headWords (by decide) (writtenAll_loopWords list item index))
      (.append (writtenAll_wordsAll children)
        (writtenAll_braceWords (.plain writtenAll_nil (by decide))))

theorem writtenAll_wordsAll : (ms : List Markup) → WrittenAll (wordsAll ms)
  | [] => writtenAll_nil
  | m :: ms => .append (writtenAll_words m) (writtenAll_wordsAll ms)

theorem writtenAll_wordsOthers : (as : Alternatives) → WrittenAll (wordsOthers as)
  | .none => writtenAll_nil
  | .otherwise children =>
    .append (writtenAll_braceWords (.plain writtenAll_nil (by decide))) (writtenAll_wordsAll children)
  | .elseIf condition children others =>
    .append (writtenAll_headWords (by decide) (writtenAll_spaced condition.areExpression))
      (.append (writtenAll_wordsAll children) (writtenAll_wordsOthers others))

end

end Markup

end RsxInspect
