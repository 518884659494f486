import RsxInspect.Proofs.Expr.Taken
import RsxInspect.Proofs.Markup.Words
import RsxInspect.Proofs.Template.Growth

/-!
# Reading between braces

An expression that is written out somewhere in a source is read as the expression that it is by
itself, moved to its place (`Phrase.ofRun?_eq`). That is what moving says: its words have the same
kinds and texts in both places (`Stands.keeps`), and `Expr.parse` looks at nothing else.

Around it the readers of braces find the head that was written, and nothing to complain about:
`Braces.read_run` for the run, and one lemma for each sort of head.
-/

namespace RsxInspect

open String (utf8Len)

/-! ### Words in two places

Spans are the only thing in which the tokens of the same words in two places differ. -/

namespace Word

theorem tokensFrom_moved (p d : Nat) (ws : List Word) :
    tokensFrom (p + d) ws = (tokensFrom p ws).map (Token.moved d) := by
  induction ws generalizing p with
  | nil => rfl
  | cons w ws ih =>
    rw [tokensFrom, tokensFrom, List.map_cons, ← ih, Nat.add_right_comm]
    rfl

theorem significantFrom_moved (p d : Nat) (ws : List Word) :
    significantFrom (p + d) ws = (significantFrom p ws).map (Token.moved d) := by
  unfold significantFrom significant
  rw [tokensFrom_moved, List.filter_map]
  rfl

end Word

/-- Words that stand in two sources have the same texts in both, so a `Move` from one to the other
keeps them. -/
theorem Stands.keeps {m : Move} {p : Nat} {ws : List Word} (h : Stands m.source p (Word.text ws))
    (h' : Stands m.target (p + m.distance) (Word.text ws)) : m.Keeps (Word.tokensFrom p ws) := by
  induction ws generalizing p with
  | nil => exact fun t ht => (nomatch ht)
  | cons w ws ih =>
    intro t ht
    rcases List.mem_cons.mp ht with rfl | ht'
    · have hmoved : (Span.mk p (p + utf8Len w.chars)).moved m.distance
          = ⟨p + m.distance, p + m.distance + utf8Len w.chars⟩ := by
        rw [Span.moved, Nat.add_right_comm]
      show (Span.mk p (p + utf8Len w.chars)).text m.source
        = ((Span.mk p (p + utf8Len w.chars)).moved m.distance).text m.target
      rw [hmoved, h.left.text, h'.left.text]
    · exact ih h.right (by rw [Nat.add_right_comm]; exact h'.right) t ht'

/-- The significant tokens of words in a row that stand in the source (`Stands`) are the words that
are no blanks. -/
theorem Stands.words {source : String} {p : Nat} {ws : List Word}
    (h : Stands source p (Word.text ws)) :
    (Word.significantFrom p ws).map (fun t => (⟨t.kind, (t.text source).toList⟩ : Word))
      = ws.filter (!·.kind.isTrivia) := by
  induction ws generalizing p with
  | nil => rfl
  | cons w ws ih =>
    by_cases hblank : w.kind = .whitespace
    · rw [Word.significantFrom_blank p ws hblank, ih h.right, List.filter_cons_of_neg]
      rw [hblank]
      decide
    · have htext : ((Span.mk p (p + utf8Len w.chars)).text source).toList = w.chars := by
        rw [h.left.text, String.toList_ofList]
      rw [Word.significantFrom_cons p ws hblank, List.map_cons, ih h.right,
        List.filter_cons_of_pos (by simpa [TokenKind.isTrivia] using hblank)]
      show (⟨w.kind, ((Span.mk p (p + utf8Len w.chars)).text source).toList⟩ : Word) :: _ = _
      rw [htext]

/-! ### Expressions

The expression is read from its words alone, which start at the beginning of a source of their own,
and is moved to where it stands (`parse_eq`). -/

/-- The words of an expression are no blanks. -/
theorem Word.IsExpression.not_trivia {w : Word} (hw : w.IsExpression) : w.kind.isTrivia = false := by
  cases hw with
  | @name c cs start parts =>
    show ((Vocabulary.expressionKeyword? (c :: cs)).getD .identifier).isTrivia = false
    unfold Vocabulary.expressionKeyword?
    repeat' split
    all_goals rfl
  | whole | decimal | string => rfl
  | operator h =>
    have hall : ∀ p ∈ Vocabulary.operators, p.2.isTrivia = false := by decide
    exact hall _ h

/-- The words of an expression are what is left of `Word.spaced` when the spaces between them are
dropped. -/
theorem Word.filter_spaced {ws : List Word} (hws : ∀ w ∈ ws, w.IsExpression) :
    (Word.spaced ws).filter (!·.kind.isTrivia) = ws := by
  induction ws with
  | nil => rfl
  | cons w ws ih =>
    have hw : (!w.kind.isTrivia) = true := by
      rw [(hws w (List.mem_cons_self ..)).not_trivia]
      rfl
    have hmore := ih fun v hv => hws v (List.mem_cons_of_mem w hv)
    cases ws with
    | nil =>
      show [w].filter _ = [w]
      rw [List.filter_cons, if_pos hw]
      rfl
    | cons v ws =>
      show (w :: Word.blank :: Word.spaced (v :: ws)).filter _ = _
      rw [List.filter_cons, if_pos hw, List.filter_cons, if_neg (by decide), hmore]

namespace Phrase

variable {r : Reading} {p : Nat}

/-- The tokens of an expression from an offset on. -/
def tokens (e : Phrase) (p : Nat) : List Token := Word.significantFrom p (Word.spaced e.words)

theorem tokens_moved (e : Phrase) (p : Nat) :
    e.tokens p = (e.tokens 0).map (Token.moved p) := by
  have hmoved := Word.significantFrom_moved 0 p (Word.spaced e.words)
  rw [Nat.zero_add] at hmoved
  exact hmoved

theorem isOperand (e : Phrase) (p : Nat) : ∀ t ∈ e.tokens p, t.kind.isOperand = true := by
  intro t ht
  rw [tokens_moved] at ht
  obtain ⟨u, hu, rfl⟩ := List.mem_map.mp ht
  exact Expr.parse_isOperand e.accepted u hu

theorem tokens_ne_nil (e : Phrase) (p : Nat) : e.tokens p ≠ [] := by
  rw [tokens_moved]
  exact fun hnil => Expr.parse_ne_nil e.accepted (List.map_eq_nil_iff.mp hnil)

/-- The tree of an expression in its place is its tree, moved there (`Expr.moved`). -/
theorem parse_eq (e : Phrase) (h : Stands r.source p e.chars) :
    Expr.parse r.source (e.tokens p) = .ok (e.tree.moved p) := by
  let m : Move := ⟨String.ofList e.chars, r.source, p⟩
  have hown : Stands m.source 0 e.chars := ⟨[], [], by simp [m], rfl⟩
  have hkeeps : m.Keeps (e.tokens 0) := by
    have hall : m.Keeps (Word.tokensFrom 0 (Word.spaced e.words)) :=
      Stands.keeps hown (by rw [Nat.zero_add]; exact h)
    exact fun t ht => hall t (Word.mem_tokensFrom ht)
  have haccepted : Expr.parse m.source (e.tokens 0) = .ok e.tree := e.accepted
  have hmoved := Expr.parse_moved hkeeps haccepted
  rw [tokens_moved]
  exact hmoved

/-- **Expressions are read as they are**: `ofRun?` gives an expression that the phrase depicts, and
reports nothing. -/
theorem ofRun?_eq (e : Phrase) (hr : r.withTrees = true) (h : Stands r.source p e.chars) :
    ∃ x, Expression.ofRun? r (e.tokens p) true = (some x, []) ∧ e.Depicts r.source (some x) := by
  -- the run has expression tokens only, so it is parsed, and its tree is that of the phrase, moved
  -- to `p`
  have hexpression : (e.tokens p).all (·.kind.isExpression) = true := by
    rw [List.all_eq_true]
    intro t ht
    have hoperand := e.isOperand p t ht
    rw [TokenKind.isOperand, Bool.and_eq_true] at hoperand
    exact hoperand.1
  have hspan : ∃ span, Span.ofRun? (e.tokens p) = some span := by
    obtain ⟨t, ts, hts⟩ := List.exists_cons_of_ne_nil (e.tokens_ne_nil p)
    rw [hts]
    exact ⟨_, rfl⟩
  obtain ⟨span, hspan⟩ := hspan
  refine ⟨⟨e.tokens p, some (e.tree.moved p), span⟩, ?_, ?_⟩
  · unfold Expression.ofRun?
    rw [hspan]
    dsimp only
    rw [hr, hexpression, Bool.and_self, Bool.and_self, if_pos rfl, e.parse_eq h]
  · refine ⟨_, _, _, rfl, ?_⟩
    exact h.words.trans (Word.filter_spaced e.areExpression)

end Phrase

/-! ### Braces

The run of the braces is what stands between them, since none of its words ends a run. -/

/-- The tokens between braces are read as a run, up to the first one that ends it (`endsRun`). -/
theorem Braces.read_run (first : Token) (keys : List Token) {run : List Token} {close : Token}
    (hrun : ∀ t ∈ run, t.kind.endsRun = false) (hclose : close.kind = .interpolationClose)
    (rest : List Token) :
    ∃ span, Braces.read first (keys ++ (run ++ close :: rest)) keys.length
      = ⟨run, (keys ++ (run ++ [close])).length, span, true⟩ := by
  have htake : (run ++ close :: rest).takeWhile (!·.kind.endsRun) = run := by
    rw [List.takeWhile_append_of_pos (by simpa using hrun),
      List.takeWhile_cons_of_neg (by rw [hclose]; decide), List.append_nil]
  have hdrop : (keys ++ (run ++ close :: rest)).drop (keys.length + run.length) = close :: rest := by
    rw [← List.drop_drop, List.drop_left, List.drop_left]
  have hclosed : (close :: rest).head?.any (·.kind == .interpolationClose) = true := by
    rw [List.head?_cons, Option.any_some, hclose]
    rfl
  unfold Braces.read
  rw [List.drop_left, htake]
  dsimp only
  rw [hdrop, hclosed, if_pos rfl]
  refine ⟨spanOf first (keys ++ (run ++ close :: rest)) (keys.length + run.length + 1), ?_⟩
  rw [List.length_append, List.length_append, List.length_singleton, Nat.add_assoc]

theorem TokenKind.endsRun_of_isOperand {k : TokenKind} (h : k.isOperand = true) :
    k.endsRun = false := by
  cases k <;> first | rfl | cases h

theorem TokenKind.ne_asWord_of_isOperand {k : TokenKind} (h : k.isOperand = true) :
    k ≠ .asWord := by
  rintro rfl
  cases h

theorem Phrase.not_endsRun (e : Phrase) (p : Nat) : ∀ t ∈ e.tokens p, t.kind.endsRun = false :=
  fun t ht => TokenKind.endsRun_of_isOperand (e.isOperand p t ht)

section Readers

variable {r : Reading} {close : Token} {p : Nat}

/-- An interpolation (`readInterpolation`), with the expression behind some keywords, which are
skipped. -/
theorem readInterpolation_phrase (first : Token) (keys : List Token) (e : Phrase) (raw : Bool)
    (hr : r.withTrees = true) (h : Stands r.source p e.chars)
    (hclose : close.kind = .interpolationClose) (rest : List Token) :
    ∃ x span, readInterpolation r first (keys ++ (e.tokens p ++ close :: rest)) keys.length raw
        = ⟨.node (.interpolation ⟨raw, some x, span, true⟩),
            (keys ++ (e.tokens p ++ [close])).length, [], []⟩ ∧
      e.Depicts r.source (some x) := by
  obtain ⟨span, hbraces⟩ := Braces.read_run first keys (e.not_endsRun p) hclose rest
  obtain ⟨x, hx, hdepicts⟩ := e.ofRun?_eq hr h
  refine ⟨x, span, ?_, hdepicts⟩
  unfold readInterpolation
  rw [hbraces]
  dsimp only
  rw [hx]
  rfl

/-- The head of a choice: `readOpener` reads the condition as the phrase is, and reports nothing. -/
theorem readOpener_phrase (first key : Token) (e : Phrase) (hr : r.withTrees = true)
    (h : Stands r.source p e.chars) (hclose : close.kind = .interpolationClose)
    (rest : List Token) :
    ∃ x span, readOpener r first (key :: (e.tokens p ++ close :: rest)) .ifBlock .choice
        = ⟨.opener .choice ⟨.ifBlock, some x, none, span⟩,
            (key :: (e.tokens p ++ [close])).length, [], []⟩ ∧
      e.Depicts r.source (some x) := by
  obtain ⟨span, hbraces⟩ := Braces.read_run first [key] (e.not_endsRun p) hclose rest
  obtain ⟨x, hx, hdepicts⟩ := e.ofRun?_eq hr h
  refine ⟨x, span, ?_, hdepicts⟩
  show readOpener r first ([key] ++ (e.tokens p ++ close :: rest)) .ifBlock .choice = _
  unfold readOpener
  rw [show 1 = [key].length from rfl, hbraces]
  dsimp only
  rw [hx]
  rfl

/-- The head of a further branch: `readBranch` keeps the run, which `addBranch` reads later. -/
theorem readBranch_run (first key : Token) {run : List Token} (word : BranchWord)
    (hrun : ∀ t ∈ run, t.kind.endsRun = false) (hclose : close.kind = .interpolationClose)
    (rest : List Token) :
    ∃ span, readBranch first (key :: (run ++ close :: rest)) word
      = ⟨.branch word run span, (key :: (run ++ [close])).length, [], []⟩ := by
  obtain ⟨span, hbraces⟩ := Braces.read_run first [key] hrun hclose rest
  refine ⟨span, ?_⟩
  show readBranch first ([key] ++ (run ++ close :: rest)) word = _
  unfold readBranch
  rw [show 1 = [key].length from rfl, hbraces]
  rfl

/-- A closer without anything behind its keyword: `readCloser` reports nothing. -/
theorem readCloser_alone (first key : Token) (kind : DirectiveKind)
    (hclose : close.kind = .interpolationClose) (rest : List Token) :
    ∃ span, readCloser first (key :: close :: rest) kind
      = ⟨.closer kind span, [key, close].length, [], []⟩ := by
  have hrun : ∀ t ∈ ([] : List Token), t.kind.endsRun = false := nofun
  obtain ⟨span, hbraces⟩ := Braces.read_run first [key] hrun hclose rest
  refine ⟨span, ?_⟩
  show readCloser first ([key] ++ ([] ++ close :: rest)) kind = _
  unfold readCloser
  rw [show 1 = [key].length from rfl, hbraces]
  rfl

end Readers

/-! ### Loops

The word `as` ends the list, and behind it the names of a binding are read; no word of a list is an
`as` (`TokenKind.ne_asWord_of_isOperand`). -/

section Loops

open Markup

variable {r : Reading} {p : Nat}

/-- The names that a loop binds (`bindingWords`) are read as they were written, with the span of
their tokens. -/
theorem LoopBinding.ofRun?_words (item : Binder) (index : Option Binder)
    (h : Stands r.source p (Word.text (asWord :: Word.blank :: bindingWords item index))) :
    ∃ binding, LoopBinding.ofRun? r
        (Word.significantFrom p (asWord :: Word.blank :: bindingWords item index)) = some binding ∧
      binding.item = String.ofList item.chars ∧
      binding.index = index.map (String.ofList ·.chars) := by
  have hitem := h.tail.tail.head.text
  cases index with
  | none =>
    refine ⟨_, rfl, ?_, rfl⟩
    exact hitem
  | some index =>
    have hindex := h.tail.tail.tail.tail.tail.head.text
    refine ⟨_, rfl, ?_, ?_⟩
    · exact hitem
    · exact congrArg some hindex

/-- No word behind `as` ends the run. -/
theorem bindingWords_not_endsRun (item : Binder) (index : Option Binder) :
    ∀ t ∈ Word.significantFrom p (asWord :: Word.blank :: bindingWords item index),
      t.kind.endsRun = false := by
  intro t ht
  obtain ⟨w, hw, hkind⟩ := Word.exists_of_mem_tokensFrom (Word.mem_tokensFrom ht)
  rw [hkind]
  cases index with
  | none =>
    simp only [bindingWords, List.mem_cons, Option.map_none, Option.getD_none, List.not_mem_nil,
      or_false] at hw
    rcases hw with rfl | rfl | rfl <;> rfl
  | some index =>
    simp only [bindingWords, List.mem_cons, Option.map_some, Option.getD_some, List.not_mem_nil,
      or_false] at hw
    rcases hw with rfl | rfl | rfl | rfl | rfl | rfl <;> rfl

/-- The run of a loop, split at the word `as`, where `readLoopHead` splits it. -/
theorem significantFrom_loopWords (list : Phrase) (item : Binder) (index : Option Binder) :
    Word.significantFrom p (loopWords list item index)
      = list.tokens p ++ Word.significantFrom (p + utf8Len list.chars + 1)
          (asWord :: Word.blank :: bindingWords item index) := by
  rw [loopWords, Word.significantFrom_append, Word.significantFrom_blank _ _ rfl]
  rfl

/-- **Heads of loops are read as they are** (`readLoopHead`): the list is the expression of its
words, the binding has its names, and nothing is reported. -/
theorem readLoopHead_words (list : Phrase) (item : Binder) (index : Option Binder)
    (hr : r.withTrees = true) (h : Stands r.source p (Word.text (loopWords list item index))) :
    ∃ x binding,
      readLoopHead r (Word.significantFrom p (loopWords list item index))
        = ((some x, some binding), [], []) ∧
      list.Depicts r.source (some x) ∧ binding.item = String.ofList item.chars ∧
      binding.index = index.map (String.ofList ·.chars) := by
  rw [loopWords, Word.text_append] at h
  obtain ⟨x, hx, hdepicts⟩ := list.ofRun?_eq hr h.left
  obtain ⟨binding, hbinding, hitem, hindex⟩ := LoopBinding.ofRun?_words item index h.right.tail
  refine ⟨x, binding, ?_, hdepicts, hitem, hindex⟩
  -- the list of the loop ends at `as`, which is no token of an expression
  have htake : (Word.significantFrom p (loopWords list item index)).takeWhile (·.kind != .asWord)
      = list.tokens p := by
    have hlist : ∀ t ∈ list.tokens p, (t.kind != .asWord) = true := by
      intro t ht
      exact bne_iff_ne.mpr (TokenKind.ne_asWord_of_isOperand (list.isOperand p t ht))
    rw [significantFrom_loopWords, List.takeWhile_append_of_pos hlist,
      Word.significantFrom_cons _ _ (by decide), List.takeWhile_cons_of_neg (by simp [asWord]),
      List.append_nil]
  have hnonempty : (list.tokens p).isEmpty = false := by
    rw [List.isEmpty_eq_false_iff]
    exact list.tokens_ne_nil p
  unfold readLoopHead
  rw [htake]
  dsimp only
  rw [significantFrom_loopWords, List.drop_left]
  rw [show p + utf8Len list.chars + 1 = p + utf8Len list.chars + utf8Len Word.blank.chars from rfl]
  rw [show list.chars = Word.text (Word.spaced list.words) from rfl, hbinding]
  dsimp only
  rw [hnonempty, if_neg (by decide), hx]

end Loops

end RsxInspect
