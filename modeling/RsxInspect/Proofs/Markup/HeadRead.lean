import RsxInspect.Proofs.Markup.PhraseRead

/-!
# Reading heads

What each pair of braces does to a forest under construction (`Builds`): an interpolation adds a
node (`builds_interpolation`), the heads of choices and loops open a frame (`builds_ifHead`,
`builds_eachHead`), a further branch goes on with it (`builds_elseIfHead`, `builds_elseHead`), and a
closer makes a node of it (`builds_closer`).

Each of them names the tokens of its words, picks the reader by the keyword (`readBraces_…`), and
adds what it read.
-/

namespace RsxInspect

open String (utf8Len)

namespace Markup

variable {r : Reading} {p : Nat}

/-! ### Tokens of braces -/

theorem braceWords_tokens (p : Nat) (ws : List Word) :
    ∃ first close : Token, first.kind = .interpolationOpen ∧ close.kind = .interpolationClose ∧
      Word.significantFrom p (braceWords ws) = first :: (Word.significantFrom (p + 2) ws ++ [close]) := by
  let q := p + 2 + utf8Len (Word.text ws)
  refine ⟨⟨.interpolationOpen, ⟨p, p + 2⟩⟩, ⟨.interpolationClose, ⟨q, q + 2⟩⟩, rfl, rfl, ?_⟩
  rw [braceWords, Word.significantFrom_cons _ _ (by decide), Word.significantFrom_append,
    Word.significantFrom_cons (w := ⟨.interpolationClose, Delimiter.closeBraces⟩) _ [] (by decide)]
  rfl

theorem Stands.braceWords {source : String} {ws : List Word}
    (h : Stands source p (Word.text (braceWords ws))) : Stands source (p + 2) (Word.text ws) := by
  have hbehind := h.tail
  rw [Word.text_append] at hbehind
  exact hbehind.left

/-- The tokens of a keyword and a run of words in braces: opening braces, keyword, run, closing
braces, since the blanks are none. -/
theorem headWords_tokens {source : String} {keyword : Word} {run : List Word}
    (hkeyword : keyword.kind ≠ .whitespace)
    (h : Stands source p (Word.text (headWords keyword run))) :
    ∃ (first key close : Token) (q : Nat), first.kind = .interpolationOpen ∧
      key.kind = keyword.kind ∧ close.kind = .interpolationClose ∧
      Stands source q (Word.text run) ∧
      Word.significantFrom p (headWords keyword run)
        = first :: key :: (Word.significantFrom q run ++ [close]) := by
  obtain ⟨first, close, hfirst, hclose, htokens⟩ :=
    braceWords_tokens p (keyword :: Word.blank :: run)
  rw [Word.significantFrom_cons _ _ hkeyword, Word.significantFrom_blank _ _ rfl] at htokens
  exact ⟨first, _, close, _, hfirst, rfl, hclose, (Stands.braceWords h).tail.tail, htokens⟩

/-! ### Pieces of braces -/

theorem Piece.read_of_braces {first : Token} (h : first.kind = .interpolationOpen)
    (ts : List Token) : Piece.read r first ts = readBraces r first ts := by
  unfold Piece.read
  rw [h]

/-- Braces that start with an expression are an interpolation (`readInterpolation`): no operand is a
keyword of a directive. -/
theorem readBraces_operand {first t : Token} (ht : t.kind.isOperand = true) (ts : List Token) :
    readBraces r first (t :: ts) = readInterpolation r first (t :: ts) 0 false := by
  unfold readBraces
  rw [List.head?_cons, Option.map_some]
  split
  case h_8 => rfl
  all_goals
    rename_i heq
    rw [Option.some.inj heq] at ht
    cases ht

theorem readBraces_ifBlock {first key : Token} (h : key.kind = .ifBlock) (ts : List Token) :
    readBraces r first (key :: ts) = readOpener r first (key :: ts) .ifBlock .choice := by
  unfold readBraces
  rw [List.head?_cons, Option.map_some, h]

theorem readBraces_eachBlock {first key : Token} (h : key.kind = .eachBlock) (ts : List Token) :
    readBraces r first (key :: ts) = readOpener r first (key :: ts) .eachBlock .loop := by
  unfold readBraces
  rw [List.head?_cons, Option.map_some, h]

theorem readBraces_branch {first key : Token} (word : BranchWord)
    (h : key.kind = Builder.keywordOf word) (ts : List Token) :
    readBraces r first (key :: ts) = readBranch first (key :: ts) word := by
  unfold readBraces
  rw [List.head?_cons, Option.map_some, h]
  cases word <;> rfl

/-- The keyword that closes a block of the kind. -/
def closerOf : DirectiveKind → Word
  | .choice => endIfWord
  | .loop => endEachWord

theorem readBraces_closer {first key : Token} {kind : DirectiveKind}
    (h : key.kind = (closerOf kind).kind) (ts : List Token) :
    readBraces r first (key :: ts) = readCloser first (key :: ts) kind := by
  unfold readBraces
  rw [List.head?_cons, Option.map_some, h]
  cases kind <;> rfl

theorem readBraces_html {first key : Token} (h : key.kind = .html) (ts : List Token) :
    readBraces r first (key :: ts) = readInterpolation r first (key :: ts) 1 true := by
  unfold readBraces
  rw [List.head?_cons, Option.map_some, h]

/-! ### Interpolations -/

open Builder (Builds)

theorem builds_interpolation (raw : Bool) (e : Phrase) (hr : r.withTrees = true)
    (h : Stands r.source p (Word.text (words (.interpolation raw e)))) (rest : List Token)
    (b : Builder) :
    ∃ n, Depicts r.source (.interpolation raw e) n ∧
      Builds r (Word.significantFrom p (words (.interpolation raw e))) rest b (b.push n) := by
  cases raw with
  | false =>
    rw [words] at h ⊢
    have hinner := (Stands.braceWords h).tail
    obtain ⟨first, close, hfirst, hclose, htokens⟩ := braceWords_tokens p
      (Word.blank :: (Word.spaced e.words ++ [Word.blank]))
    rw [Word.text_append] at hinner
    rw [Word.significantFrom_blank _ _ rfl, Word.significantFrom_append,
      Word.significantFrom_blank _ _ rfl, Word.significantFrom_nil, List.append_nil] at htokens
    obtain ⟨x, span, hread, hdepicts⟩ := readInterpolation_phrase first [] e false
      hr hinner.left hclose rest
    let i : Interpolation := ⟨false, some x, span, true⟩
    refine ⟨.interpolation i, ⟨i, rfl, rfl, rfl, hdepicts⟩, ?_⟩
    rw [htokens]
    refine Builds.piece (.node (.interpolation i)) (by rw [hfirst]; decide) ?_
    rw [Piece.read_of_braces hfirst]
    -- the first token of the expression is no keyword
    refine Eq.trans ?_ hread
    obtain ⟨t, ts, hts⟩ := List.exists_cons_of_ne_nil
      (e.tokens_ne_nil (p + 2 + utf8Len Word.blank.chars))
    have ht := e.isOperand _ t (hts ▸ List.mem_cons_self)
    show readBraces r first (e.tokens (p + 2 + utf8Len Word.blank.chars) ++ [close] ++ rest) = _
    rw [hts, List.append_assoc]
    exact readBraces_operand ht _
  | true =>
    rw [words] at h ⊢
    obtain ⟨first, key, close, q, hfirst, hkey, hclose, hrun, htokens⟩ :=
      headWords_tokens (by decide) h
    obtain ⟨x, span, hread, hdepicts⟩ := readInterpolation_phrase first [key] e
      true hr hrun hclose rest
    let i : Interpolation := ⟨true, some x, span, true⟩
    refine ⟨.interpolation i, ⟨i, rfl, rfl, rfl, hdepicts⟩, ?_⟩
    rw [htokens]
    refine Builds.piece (.node (.interpolation i)) (by rw [hfirst]; decide) ?_
    rw [Piece.read_of_braces hfirst, List.cons_append, List.append_assoc, readBraces_html hkey]
    exact hread

/-! ### Blocks -/

/-- The head of a choice opens a block, whose first branch has the condition (`DepictsHead`). -/
theorem builds_ifHead (e : Phrase) (hr : r.withTrees = true)
    (h : Stands r.source p (Word.text (headWords ifWord (Word.spaced e.words))))
    (rest : List Token) (b : Builder) :
    ∃ head, DepictsHead r.source .ifBlock e head ∧
      Builds r (Word.significantFrom p (headWords ifWord (Word.spaced e.words))) rest b
        (b.openFrame (.block ⟨.choice, #[], head, #[]⟩)) := by
  obtain ⟨first, key, close, q, hfirst, hkey, hclose, hrun, htokens⟩ :=
    headWords_tokens (by decide) h
  obtain ⟨x, span, hread, hdepicts⟩ := readOpener_phrase first key e hr hrun hclose rest
  let head : BranchHead := ⟨.ifBlock, some x, none, span⟩
  refine ⟨head, ⟨rfl, hdepicts, rfl⟩, ?_⟩
  rw [htokens]
  refine Builds.piece (.opener .choice head) (by rw [hfirst]; decide) ?_
  rw [Piece.read_of_braces hfirst, List.cons_append, List.append_assoc, readBraces_ifBlock hkey]
  exact hread

/-- The head of a loop shows the list and the names that are bound. -/
def DepictsLoop (source : String) (list : Phrase) (item : Binder) (index : Option Binder)
    (h : BranchHead) : Prop :=
  h.keyword = .eachBlock ∧ list.Depicts source h.expression ∧
    ∃ binding, h.binding = some binding ∧ binding.item = String.ofList item.chars ∧
      binding.index = index.map (String.ofList ·.chars)

/-- The head of a loop opens a block with one branch (`DepictsLoop`). -/
theorem builds_eachHead (list : Phrase) (item : Binder) (index : Option Binder)
    (hr : r.withTrees = true)
    (h : Stands r.source p (Word.text (headWords eachWord (loopWords list item index))))
    (rest : List Token) (b : Builder) :
    ∃ head, DepictsLoop r.source list item index head ∧
      Builds r (Word.significantFrom p (headWords eachWord (loopWords list item index))) rest b
        (b.openFrame (.block ⟨.loop, #[], head, #[]⟩)) := by
  obtain ⟨first, key, close, q, hfirst, hkey, hclose, hrun, htokens⟩ :=
    headWords_tokens (by decide) h
  obtain ⟨x, binding, hhead, hdepicts, hitem, hindex⟩ := readLoopHead_words list item index hr hrun
  -- the braces are read up to the first token that ends a run, so none may stand in the head
  have hends : ∀ t ∈ Word.significantFrom q (loopWords list item index),
      t.kind.endsRun = false := by
    intro t ht
    rw [significantFrom_loopWords] at ht
    rcases List.mem_append.mp ht with ht | ht
    · exact list.not_endsRun q t ht
    · exact bindingWords_not_endsRun item index t ht
  obtain ⟨span, hbraces⟩ := Braces.read_run first [key] hends hclose rest
  let head : BranchHead := ⟨.eachBlock, some x, some binding, span⟩
  refine ⟨head, ⟨rfl, hdepicts, binding, rfl, hitem, hindex⟩, ?_⟩
  rw [htokens]
  refine Builds.piece (.opener .loop head) (by rw [hfirst]; decide) ?_
  rw [Piece.read_of_braces hfirst, List.cons_append, List.append_assoc, readBraces_eachBlock hkey]
  show readOpener r first ([key] ++ (_ ++ close :: rest)) .eachBlock .loop = _
  unfold readOpener
  rw [show 1 = [key].length from rfl, hbraces]
  dsimp only
  rw [hhead]
  rfl

/-- The head of a further branch goes on with the block, if that is a choice whose last branch is
not open (`hasElse`). -/
theorem builds_elseIfHead (e : Phrase) (hr : r.withTrees = true)
    (h : Stands r.source p (Word.text (headWords elseIfWord (Word.spaced e.words))))
    (rest : List Token) (b : Builder) {block : OpenBlock} (hkind : block.kind = .choice) (helse : block.hasElse = false) :
    ∃ head, DepictsHead r.source .elseIf e head ∧
      Builds r (Word.significantFrom p (headWords elseIfWord (Word.spaced e.words))) rest
        (b.openFrame (.block block)) (b.openFrame (.block (block.startBranch head))) := by
  obtain ⟨first, key, close, q, hfirst, hkey, hclose, hrun, htokens⟩ :=
    headWords_tokens (by decide) h
  obtain ⟨span, hread⟩ := readBranch_run first key .elseIf (e.not_endsRun q) hclose rest
  obtain ⟨x, hx, hdepicts⟩ := e.ofRun?_eq hr hrun
  -- a branch keeps its run, and only `addBranch` reads the condition from it
  have hexpression : Builder.branchExpression r .elseIf (e.tokens q) span = (some x, []) := by
    unfold Builder.branchExpression
    dsimp only
    rw [hx]
    rfl
  refine ⟨⟨.elseIf, some x, none, span⟩, ⟨rfl, hdepicts, rfl⟩, ?_⟩
  have hbranch := Builder.addBranch_innermost b r hkind helse hexpression
  rw [htokens, show (⟨.elseIf, some x, none, span⟩ : BranchHead)
    = ⟨Builder.keywordOf .elseIf, some x, none, span⟩ from rfl, ← hbranch]
  refine Builds.piece (.branch .elseIf (e.tokens q) span) (by rw [hfirst]; decide) ?_
  rw [Piece.read_of_braces hfirst, List.cons_append, List.append_assoc,
    readBraces_branch .elseIf hkey]
  exact hread

/-- The tokens of a keyword that stands alone in braces. -/
theorem aloneWords_tokens (p : Nat) (keyword : Word) (hkeyword : keyword.kind ≠ .whitespace) :
    ∃ first key close : Token, first.kind = .interpolationOpen ∧ key.kind = keyword.kind ∧
      close.kind = .interpolationClose ∧
      Word.significantFrom p (braceWords [keyword]) = [first, key, close] := by
  obtain ⟨first, close, hfirst, hclose, htokens⟩ := braceWords_tokens p [keyword]
  rw [Word.significantFrom_cons _ _ hkeyword, Word.significantFrom_nil] at htokens
  exact ⟨first, _, close, hfirst, rfl, hclose, htokens⟩

/-- The head of the last branch (`elseWord`) goes on with the block, and no branch comes behind
it. -/
theorem builds_elseHead (r : Reading) (p : Nat) (rest : List Token) (b : Builder)
    {block : OpenBlock} (hkind : block.kind = .choice) (helse : block.hasElse = false) :
    ∃ head : BranchHead, head.keyword = .elseBranch ∧ head.expression = none ∧
      Builds r (Word.significantFrom p (braceWords [elseWord])) rest
        (b.openFrame (.block block)) (b.openFrame (.block (block.startBranch head))) := by
  obtain ⟨first, key, close, hfirst, hkey, hclose, htokens⟩ :=
    aloneWords_tokens p elseWord (by decide)
  have hrun : ∀ t ∈ ([] : List Token), t.kind.endsRun = false := nofun
  obtain ⟨span, hread⟩ := readBranch_run first key .elseBranch hrun hclose rest
  have hexpression : Builder.branchExpression r .elseBranch [] span = (none, []) := rfl
  have hbranch := Builder.addBranch_innermost b r hkind helse hexpression
  refine ⟨⟨.elseBranch, none, none, span⟩, rfl, rfl, ?_⟩
  rw [htokens, show (⟨.elseBranch, none, none, span⟩ : BranchHead)
    = ⟨Builder.keywordOf .elseBranch, none, none, span⟩ from rfl, ← hbranch]
  refine Builds.piece (.branch .elseBranch [] span) (by rw [hfirst]; decide) ?_
  rw [Piece.read_of_braces hfirst, List.cons_append, readBraces_branch .elseBranch hkey]
  exact hread

/-- The closer (`closerOf`) makes a node of the block, from its first head to the end of the
braces. -/
theorem builds_closer (r : Reading) (p : Nat) (rest : List Token) (b : Builder)
    (block : OpenBlock) :
    ∃ span, Builds r (Word.significantFrom p (braceWords [closerOf block.kind])) rest
      (b.openFrame (.block block))
      (b.push (Frame.close (.block block) span.stop (some span))) := by
  have hkeyword : (closerOf block.kind).kind ≠ .whitespace := by
    cases block.kind <;> decide
  obtain ⟨first, key, close, hfirst, hkey, hclose, htokens⟩ := aloneWords_tokens p _ hkeyword
  obtain ⟨span, hread⟩ := readCloser_alone first key block.kind hclose rest
  refine ⟨span, ?_⟩
  rw [htokens, ← Builder.addCloser_innermost b r.source block span]
  refine Builds.piece (.closer block.kind span) (by rw [hfirst]; decide) ?_
  rw [Piece.read_of_braces hfirst, List.cons_append, readBraces_closer hkey]
  exact hread

end Markup

end RsxInspect
