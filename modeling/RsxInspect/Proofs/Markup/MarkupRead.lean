import RsxInspect.Proofs.Markup.HeadRead
import RsxInspect.Proofs.Markup.TagRead

/-!
# Reading markup

The words of a tree, wherever they stand in a source, add one node to a forest under construction,
and that node shows the tree (`builds_words`). The recursion is over the tree: for an element the
start tag opens a frame, the children are added to it by induction, and the end tag closes it; a
block does the same with its heads and its closer. Texts and comments are pieces of their own
(`builds_text`, `builds_comment`).
-/

namespace RsxInspect

open String (utf8Len)

namespace Markup

open Builder (Builds)

variable {r : Reading} {p : Nat}

/-! ### Texts

A text is scanned into words and blanks (`textWords`). The blanks are no significant tokens, so what
is read are the words, and the span over them takes in the blanks again. -/

theorem head_textWords (cs : List Char) :
    (textWords cs).head?.map Word.kind = cs.head?.map textKind := by
  cases cs with
  | nil => rfl
  | cons c cs =>
    rw [textWords]
    split
    · rfl
    · split
      · rename_i hsame
        exact congrArg some hsame
      · rfl

theorem last_textWords (cs : List Char) :
    (textWords cs).getLast?.map Word.kind = cs.getLast?.map textKind := by
  induction cs with
  | nil => rfl
  | cons c cs ih =>
    have hchars := text_textWords cs
    rw [textWords]
    -- `c` joins the first word or stands before it, so the last word changes only where there is
    -- none
    cases hws : textWords cs with
    | nil =>
      rw [hws] at hchars
      obtain rfl : cs = [] := hchars.symm
      rfl
    | cons w ws =>
      rw [hws] at hchars ih
      have hcs : (c :: cs).getLast? = cs.getLast? := by
        cases cs with
        | nil =>
          rw [hws.symm] at ih
          cases hws
        | cons d cs => rfl
      rw [hcs, ← ih]
      dsimp only
      split
      · cases ws <;> rfl
      · rfl

/-- The significant tokens of a text (`textWords`) are texts, since its other words are blanks. -/
theorem kind_of_mem_text (p : Nat) (cs : List Char) {t : Token}
    (ht : t ∈ Word.significantFrom p (textWords cs)) : t.kind = .text := by
  obtain ⟨hmem, hsignificant⟩ := List.mem_filter.mp ht
  obtain ⟨w, hw, hkind⟩ := Word.exists_of_mem_tokensFrom hmem
  rcases kind_textWords hw with hblank | htext
  · rw [hkind, hblank] at hsignificant
    cases hsignificant
  · rw [hkind, htext]

/-- The tokens of words in a row cover all of them (`Span.cover`), if the last word is no blank. -/
theorem foldl_cover_words {ws : List Word} {a b : Nat} (ha : a ≤ p) (hb : b ≤ p) (hne : ws ≠ [])
    (hlast : ws.getLast?.all (·.kind != .whitespace) = true) :
    (Word.significantFrom p ws).foldl (fun s t => s.cover t.span) (Span.mk a b)
      = ⟨a, p + utf8Len (Word.text ws)⟩ := by
  induction ws generalizing p b with
  | nil => exact absurd rfl hne
  | cons w ws ih =>
    have hcover : (Span.mk a b).cover ⟨p, p + utf8Len w.chars⟩ = ⟨a, p + utf8Len w.chars⟩ := by
      simp only [Span.cover, Span.mk.injEq]
      omega
    -- the last word is significant, so its span sets the end; a blank in between is covered by the
    -- next word
    cases ws with
    | nil =>
      have hw : w.kind ≠ .whitespace := by simpa using hlast
      rw [Word.significantFrom_cons p [] hw, Word.text_cons, Word.text_nil, List.append_nil]
      exact hcover
    | cons v ws =>
      have hstep : a ≤ p + utf8Len w.chars := Nat.le_trans ha (Nat.le_add_right ..)
      have hmore := @ih (p + utf8Len w.chars)
      rw [Word.text_cons, String.utf8Len_append, ← Nat.add_assoc]
      by_cases hw : w.kind = .whitespace
      · rw [Word.significantFrom_blank p _ hw]
        exact hmore hstep (Nat.le_trans hb (Nat.le_add_right ..)) (List.cons_ne_nil v ws) hlast
      · rw [Word.significantFrom_cons p _ hw, List.foldl_cons, hcover]
        exact hmore hstep (Nat.le_refl _) (List.cons_ne_nil v ws) hlast

/-- The first token of a text covers the text (`Span.cover`) together with the others. -/
theorem foldl_cover_text {w : Word} {ws : List Word}
    (hlast : (w :: ws).getLast?.all (·.kind != .whitespace) = true) :
    (Word.significantFrom (p + utf8Len w.chars) ws).foldl (fun s t => s.cover t.span)
        (Span.mk p (p + utf8Len w.chars))
      = ⟨p, p + utf8Len (Word.text (w :: ws))⟩ := by
  rw [Word.text_cons, String.utf8Len_append, ← Nat.add_assoc]
  cases ws with
  | nil => rfl
  | cons v ws =>
    exact foldl_cover_words (Nat.le_add_right ..) (Nat.le_refl _) (List.cons_ne_nil v ws) hlast

theorem textKind_of_not_blank {c : Char} (h : (!isBlank c) = true) : textKind c = .text := by
  rw [textKind, if_neg (by simpa using h)]

/-- A text starts and ends with words that are no blanks, as its characters do. -/
theorem textWords_cases (t : PlainText) :
    ∃ w ws, textWords t.chars = w :: ws ∧ w.kind = .text ∧
      (w :: ws).getLast?.all (·.kind != .whitespace) = true := by
  obtain ⟨chars, plain, first, last⟩ := t
  have hhead := head_textWords chars
  have hlast := last_textWords chars
  cases hws : textWords chars with
  | nil =>
    rw [hws] at hhead
    cases chars with
    | nil => cases first
    | cons c cs => cases hhead
  | cons w ws =>
    rw [hws] at hhead hlast
    refine ⟨w, ws, rfl, ?_, ?_⟩
    -- a `PlainText` neither starts nor ends with a blank, and that is all this says of its words
    · cases chars with
      | nil => cases first
      | cons c cs => exact (Option.some.inj hhead).trans (textKind_of_not_blank first)
    · cases hc : chars.getLast? with
      | none =>
        rw [hc] at last
        cases last
      | some c =>
        rw [hc] at hlast last
        obtain ⟨v, hv, hkind⟩ := Option.map_eq_some_iff.mp hlast
        have htext : v.kind = .text := hkind.trans (textKind_of_not_blank last)
        rw [hv, Option.all_some, htext]
        rfl

/-- A text becomes one node (`Depicts`, `Builds`), whose content is all of its characters, the
blanks between its words included. -/
theorem builds_text (t : PlainText) (h : Stands r.source p (Word.text (textWords t.chars)))
    {rest : List Token} (hrest : rest.head?.all (·.kind != .text) = true) (b : Builder) :
    ∃ n, Depicts r.source (.text t) n ∧
      Builds r (Word.significantFrom p (textWords t.chars)) rest b (b.push n) := by
  obtain ⟨w, ws, hws, hw, hlast⟩ := textWords_cases t
  let first : Token := ⟨w.kind, ⟨p, p + utf8Len w.chars⟩⟩
  let ts := Word.significantFrom (p + utf8Len w.chars) ws
  have htokens : Word.significantFrom p (textWords t.chars) = first :: ts := by
    rw [hws, Word.significantFrom_cons p ws (by rw [hw]; decide)]
  -- text and the blanks inside it are one row of text tokens, which `hrest` stops
  have htake : (ts ++ rest).takeWhile (·.kind == .text) = ts := by
    have hts : ∀ u ∈ ts, (u.kind == .text) = true := by
      intro u hu
      rw [kind_of_mem_text p t.chars (htokens ▸ List.mem_cons_of_mem first hu)]
      rfl
    rw [List.takeWhile_append_of_pos hts]
    cases rest with
    | nil => rw [List.takeWhile_nil, List.append_nil]
    | cons u us => rw [List.takeWhile_cons_of_neg (by simpa using hrest), List.append_nil]
  have hspan := foldl_cover_text (p := p) hlast
  rw [← hws, text_textWords] at hspan
  rw [text_textWords] at h
  refine ⟨_, ⟨⟨p, p + utf8Len t.chars⟩, rfl⟩, ?_⟩
  rw [htokens]
  refine Builds.piece (.node _) (show w.kind ≠ _ by rw [hw]; decide) ?_
  unfold Piece.read
  rw [show first.kind = .text from hw]
  show readText r first (ts ++ rest) = _
  unfold readText
  rw [htake]
  dsimp only
  rw [hspan, h.text]

/-- A comment becomes one node (`Depicts`), whose span has the comment with both its marks. -/
theorem builds_comment (c : CommentText) (h : Stands r.source p (Word.text (words (.comment c))))
    (rest : List Token) (b : Builder) :
    ∃ n, Depicts r.source (.comment c) n ∧
      Builds r (Word.significantFrom p (words (.comment c))) rest b (b.push n) := by
  let span : Span := ⟨p, p + utf8Len (['<', '!', '-', '-'] ++ c.chars ++ ['-', '-', '>'])⟩
  have htext : (span.text r.source).toList = render (.comment c) := by
    rw [h.head.text, String.toList_ofList]
    rfl
  refine ⟨.comment span, ⟨span, rfl, htext⟩, ?_⟩
  have hread : Piece.read r ⟨.comment, span⟩ ([] ++ rest)
      = ⟨.node (.comment span), ([] : List Token).length, [], []⟩ := rfl
  exact Builds.piece (.node (.comment span)) (show TokenKind.comment ≠ _ by decide) hread

/-! ### Trees

The recursion is over the syntax, with one lemma for lists of trees and one for the branches of a
choice. A text needs to know what comes behind it, since it takes all tokens of text there. -/

/-- Markup other than a text starts with no text, so a text in front of it ends there. -/
theorem head_words {m : Markup} (hm : m.isText = false) (p : Nat) (more : List Token) :
    (Word.significantFrom p (words m) ++ more).head?.all (·.kind != .text) = true := by
  cases m with
  | element | void | selfClosing | comment => rfl
  | text => cases hm
  | interpolation raw => cases raw <;> rfl
  | choice | loop => rfl

theorem head_wordsOthers (as : Alternatives) (p : Nat) (more : List Token) :
    (Word.significantFrom p (wordsOthers as ++ braceWords [endIfWord]) ++ more).head?.all
      (·.kind != .text) = true := by
  cases as with
  | none => rfl
  | otherwise => rfl
  | elseIf => rfl

mutual

/-- **Markup is read as it is.** The words of a tree add one node, which shows the tree (`Depicts`).
A text must not be followed by more text. -/
theorem builds_words (m : Markup) (hm : Separated m) {r : Reading} (hr : r.withTrees = true)
    {p : Nat} (h : Stands r.source p (Word.text (words m))) {rest : List Token}
    (hrest : m.isText = true → rest.head?.all (·.kind != .text) = true) (b : Builder) :
    ∃ n, Depicts r.source m n ∧ Builds r (Word.significantFrom p (words m)) rest b (b.push n) := by
  match m with
  | .element name as children =>
    -- behind the start tag stand the children, and behind these the end tag
    rw [words, List.append_cons, Word.text_append] at h
    let q := p + utf8Len (Word.text (tagWords name.toMarkupName as ++ [tagCloseWord]))
    have htagWords : Stands r.source p (Word.text (tagWords name.toMarkupName as)) := by
      have hleft := h.left
      rw [Word.text_append] at hleft
      exact hleft.left
    have hbehind : Stands r.source q
        (Word.text (wordsAll children) ++ Word.text (endTagWords name.toMarkupName)) := by
      rw [← Word.text_append]
      exact h.right
    let closing := Word.significantFrom (q + utf8Len (Word.text (wordsAll children)))
      (endTagWords name.toMarkupName)
    obtain ⟨e, htag, hend, hself, hopen⟩ := builds_tag name.toMarkupName as tagCloseWord (.inl rfl)
      htagWords (p + utf8Len (Word.text (tagWords name.toMarkupName as)))
      (Word.significantFrom q (wordsAll children) ++ closing ++ rest) b
    rw [if_neg (by rw [hself, htag.1, name.notVoid]; decide)] at hopen
    have hclosing : (closing ++ rest).head?.all (·.kind != .text) = true := rfl
    obtain ⟨ns, hns, hchildren⟩ := builds_wordsAll children hm hr hbehind.left hclosing
      (b.openFrame (.element e #[]))
    rw [Builder.pushAll_element] at hchildren
    obtain ⟨span, hclose⟩ := builds_endTag name.toMarkupName hbehind.right htag.1
      ([] ++ ns).toArray rest b
    let closed : Element := { e with endTag := some span, span := ⟨e.span.start, span.stop⟩ }
    refine ⟨.element closed ns, ⟨closed, ns, rfl, htag, hself, rfl, hns⟩, ?_⟩
    rw [words, List.append_cons, Word.significantFrom_append, Word.significantFrom_append,
      Word.significantFrom_append]
    exact hopen.trans (hchildren.trans hclose)
  | .void name as =>
    rw [words, Word.text_append] at h
    obtain ⟨e, htag, hend, hself, hopen⟩ := builds_tag name.toMarkupName as tagCloseWord (.inl rfl)
      h.left (p + utf8Len (Word.text (tagWords name.toMarkupName as))) rest b
    rw [if_pos (by rw [htag.1, name.isVoid, Bool.or_true])] at hopen
    refine ⟨_, ⟨e, rfl, htag, hself, hend⟩, ?_⟩
    rw [words, Word.significantFrom_append]
    exact hopen
  | .selfClosing name as =>
    rw [words, Word.text_append] at h
    obtain ⟨e, htag, hend, hself, hopen⟩ := builds_tag name as ⟨.selfClose, ['/', '>']⟩
      (.inr rfl) h.left (p + utf8Len (Word.text (tagWords name as)) + 1) rest b
    rw [if_pos (by rw [hself]; rfl)] at hopen
    refine ⟨_, ⟨e, rfl, htag, hself, hend⟩, ?_⟩
    rw [words, Word.significantFrom_append, Word.significantFrom_blank _ _ rfl]
    exact hopen
  | .text t => exact builds_text t h (hrest rfl) b
  | .comment c => exact builds_comment c h rest b
  | .interpolation raw e => exact builds_interpolation raw e hr h rest b
  | .choice condition children others =>
    rw [words, Word.text_append, Word.text_append, Word.text_append] at h
    let q := p + utf8Len (Word.text (headWords ifWord (Word.spaced condition.words)))
    let q' := q + utf8Len (Word.text (wordsAll children))
    let closing := Word.significantFrom (q' + utf8Len (Word.text (wordsOthers others)))
      (braceWords [endIfWord])
    let branching := Word.significantFrom q' (wordsOthers others) ++ closing
    obtain ⟨head, hhead, hopen⟩ := builds_ifHead condition hr h.left
      (Word.significantFrom q (wordsAll children) ++ branching ++ rest) b
    have hbranching : (branching ++ rest).head?.all (·.kind != .text) = true := by
      have hothers := head_wordsOthers others q' rest
      rw [Word.significantFrom_append] at hothers
      exact hothers
    obtain ⟨ns, hns, hchildren⟩ := builds_wordsAll children hm.1 hr h.right.left hbranching
      (b.openFrame (.block ⟨.choice, #[], head, #[]⟩))
    rw [Builder.pushAll_block] at hchildren
    -- the block with its first branch: a further one can be added to it
    let block : OpenBlock := ⟨.choice, #[], head, ([] ++ ns).toArray⟩
    have helse : block.hasElse = false := by
      show (head.keyword == .elseBranch) = false
      rw [hhead.1]
      rfl
    have hclosing : (closing ++ rest).head?.all (·.kind != .text) = true := rfl
    obtain ⟨last, branches, hbranches, hlast, hall, hothers⟩ := builds_wordsOthers others hm.2 hr
      h.right.right.left hclosing b block rfl helse
    obtain ⟨span, hclose⟩ :=
      builds_closer r (q' + utf8Len (Word.text (wordsOthers others))) rest b last
    rw [hlast] at hclose
    let d : Directive := ⟨last.kind, some span, ⟨last.firstHead.start, span.stop⟩⟩
    refine ⟨.directive d last.branches, ⟨d, head, ns, branches, ?_, hlast, rfl, hhead, hns,
      hbranches⟩, ?_⟩
    · rw [hall]
      rfl
    · rw [words, Word.significantFrom_append, Word.significantFrom_append,
        Word.significantFrom_append]
      exact hopen.trans (hchildren.trans (hothers.trans hclose))
  | .loop list item index children =>
    rw [words, Word.text_append, Word.text_append] at h
    let q := p + utf8Len (Word.text (headWords eachWord (loopWords list item index)))
    let closing := Word.significantFrom (q + utf8Len (Word.text (wordsAll children)))
      (braceWords [endEachWord])
    obtain ⟨head, ⟨hkeyword, hlist, binding, hbinding, hitem, hindex⟩, hopen⟩ :=
      builds_eachHead list item index hr h.left
        (Word.significantFrom q (wordsAll children) ++ closing ++ rest) b
    have hclosing : (closing ++ rest).head?.all (·.kind != .text) = true := rfl
    obtain ⟨ns, hns, hchildren⟩ := builds_wordsAll children hm hr h.right.left hclosing
      (b.openFrame (.block ⟨.loop, #[], head, #[]⟩))
    rw [Builder.pushAll_block] at hchildren
    let block : OpenBlock := ⟨.loop, #[], head, ([] ++ ns).toArray⟩
    obtain ⟨span, hclose⟩ :=
      builds_closer r (q + utf8Len (Word.text (wordsAll children))) rest b block
    let d : Directive := ⟨.loop, some span, ⟨block.firstHead.start, span.stop⟩⟩
    refine ⟨.directive d block.branches, ⟨d, head, ns, binding, rfl, rfl, rfl, hkeyword, hlist,
      hbinding, hitem, hindex, hns⟩, ?_⟩
    rw [words, Word.significantFrom_append, Word.significantFrom_append]
    exact hopen.trans (hchildren.trans hclose)

theorem builds_wordsAll (ms : List Markup) (hms : SeparatedAll ms) {r : Reading}
    (hr : r.withTrees = true) {p : Nat} (h : Stands r.source p (Word.text (wordsAll ms)))
    {rest : List Token} (hrest : rest.head?.all (·.kind != .text) = true) (b : Builder) :
    ∃ ns, DepictsAll r.source ms ns ∧
      Builds r (Word.significantFrom p (wordsAll ms)) rest b (b.pushAll ns) := by
  match ms with
  | [] => exact ⟨[], rfl, Builds.refl r rest b⟩
  | m :: ms =>
    obtain ⟨hm, hnext, hmore⟩ := hms
    rw [wordsAll, Word.text_append] at h
    -- a text node would go on into a text behind it; `Separated` keeps two texts apart
    have hbehind : m.isText = true →
        (Word.significantFrom (p + utf8Len (Word.text (words m))) (wordsAll ms) ++ rest).head?.all
          (·.kind != .text) = true := by
      intro htext
      cases ms with
      | nil => exact hrest
      | cons k ms =>
        have hk : k.isText = false := by simpa using hnext htext
        rw [wordsAll, Word.significantFrom_append, List.append_assoc]
        exact head_words hk _ _
    obtain ⟨n, hn, hread⟩ := builds_words m hm hr h.left hbehind b
    obtain ⟨ns, hns, hreadAll⟩ := builds_wordsAll ms hmore hr h.right hrest (b.push n)
    refine ⟨n :: ns, ⟨n, ns, rfl, hn, hns⟩, ?_⟩
    rw [wordsAll, Word.significantFrom_append]
    exact hread.trans hreadAll

theorem builds_wordsOthers (as : Alternatives) (has : SeparatedOthers as) {r : Reading}
    (hr : r.withTrees = true) {p : Nat} (h : Stands r.source p (Word.text (wordsOthers as)))
    {rest : List Token} (hrest : rest.head?.all (·.kind != .text) = true) (b : Builder)
    (block : OpenBlock) (hkind : block.kind = .choice) (helse : block.hasElse = false) :
    ∃ last branches, DepictsOthers r.source as branches ∧ last.kind = .choice ∧
      last.branches = block.branches ++ branches ∧
      Builds r (Word.significantFrom p (wordsOthers as)) rest (b.openFrame (.block block))
        (b.openFrame (.block last)) := by
  -- each head moves the branch before it into `branches` and keeps the block open
  match as with
  | .none =>
    exact ⟨block, [], rfl, hkind, (List.append_nil _).symm, Builds.refl r rest _⟩
  | .otherwise children =>
    rw [wordsOthers, Word.text_append] at h
    let q := p + utf8Len (Word.text (braceWords [elseWord]))
    obtain ⟨head, hkeyword, hexpression, hopen⟩ := builds_elseHead r p
      (Word.significantFrom q (wordsAll children) ++ rest) b hkind helse
    obtain ⟨ns, hns, hchildren⟩ := builds_wordsAll children has hr h.right hrest
      (b.openFrame (.block (block.startBranch head)))
    rw [Builder.pushAll_block] at hchildren
    let last : OpenBlock := { block.startBranch head with children := ([] ++ ns).toArray }
    refine ⟨last, [⟨head, ns⟩], ⟨head, ns, rfl, hkeyword, hexpression, hns⟩, hkind, ?_, ?_⟩
    · exact OpenBlock.branches_startBranch block head _
    · rw [wordsOthers, Word.significantFrom_append]
      exact hopen.trans hchildren
  | .elseIf condition children others =>
    rw [wordsOthers, Word.text_append, Word.text_append] at h
    let q := p + utf8Len (Word.text (headWords elseIfWord (Word.spaced condition.words)))
    let q' := q + utf8Len (Word.text (wordsAll children))
    obtain ⟨head, hhead, hopen⟩ := builds_elseIfHead condition hr h.left
      (Word.significantFrom q (wordsAll children) ++ Word.significantFrom q' (wordsOthers others)
        ++ rest) b hkind helse
    -- the children of this branch end where the next head opens its braces
    have hbehind : (Word.significantFrom q' (wordsOthers others) ++ rest).head?.all
        (·.kind != .text) = true := by
      cases others with
      | none => exact hrest
      | otherwise => rfl
      | elseIf => rfl
    obtain ⟨ns, hns, hchildren⟩ := builds_wordsAll children has.1 hr h.right.left hbehind
      (b.openFrame (.block (block.startBranch head)))
    rw [Builder.pushAll_block] at hchildren
    let next : OpenBlock := { block.startBranch head with children := ([] ++ ns).toArray }
    have hnext : next.hasElse = false := by
      show (head.keyword == .elseBranch) = false
      rw [hhead.1]
      rfl
    obtain ⟨last, branches, hbranches, hlast, hall, hothers⟩ := builds_wordsOthers others has.2 hr
      h.right.right hrest b next hkind hnext
    refine ⟨last, ⟨head, ns⟩ :: branches, ⟨head, ns, branches, rfl, hhead, hns, hbranches⟩, hlast,
      ?_, ?_⟩
    · rw [hall, OpenBlock.branches_startBranch, List.append_assoc]
      rfl
    · rw [wordsOthers, Word.significantFrom_append, Word.significantFrom_append]
      exact hopen.trans (hchildren.trans hothers)

end

end Markup

end RsxInspect
