import RsxInspect.Proofs.Markup.PhraseScan

/-!
# Scanning markup

Tags, comments and texts are scanned into the words that they were written from, and with the heads
between braces so is every tree (`Lexes.words`). What comes behind a tree decides on nothing but the
end of a text, which has to stand in front of a tag or of braces (`TextEnds`).

The lemmas on single lexemes follow the rules for tags (`inStartTag_name`, `inEndTag_name`,
`inAttributeValue_render`) and for markup (`inTemplate_tagOpen`, `inTemplate_comment`,
`inTemplate_plain`); those in `Lexes` put them in a row.
-/

namespace RsxInspect

namespace Lexeme

/-! ### Tags

In a tag what stands next is decided by one character, and names end in front of what is no part of
them. `inAttributeValue_render` takes all three ways of writing a value. -/

theorem isNameStart_of_isAlphabetic {c : Char} (h : isAlphabetic c = true) :
    isNameStart c = true := by
  rw [isNameStart, h]
  rfl

theorem ne_of_isNamePart {c d : Char} (h : isNamePart c = true) (hd : d ∈ markStarts) :
    ¬ (c == d) = true := by
  intro heq
  rw [beq_iff_eq.mp heq, not_isNamePart_of_markStart hd] at h
  cases h

theorem not_isQuote_of_isNamePart {c : Char} (h : isNamePart c = true) : ¬ isQuote c = true := by
  intro hquote
  rw [isQuote, Bool.or_eq_true] at hquote
  rcases hquote with hquote | hquote
  · exact ne_of_isNamePart h (by decide) hquote
  · exact ne_of_isNamePart h (by decide) hquote

/-- A name in a start tag. The first one is that of the tag, which `last` tells. -/
theorem inStartTag_name (n : MarkupName) (last : Option TokenKind) {rest : List Char}
    (hrest : rest.head?.all (!isTagNamePart ·) = true) :
    inStartTag last (n.chars ++ rest)
      = ⟨if last = some .tagOpen then .tagName else .attrName, n.chars.length, .tagOpen⟩ := by
  obtain ⟨chars, start, parts⟩ := n
  cases chars with
  | nil => cases start
  | cons c cs =>
    have hstart := isNameStart_of_isAlphabetic start
    have hpart := isNamePart_of_isNameStart hstart
    have hcount := Text.countWhile_append parts hrest
    rw [List.cons_append] at hcount
    show inStartTag last (c :: (cs ++ rest)) = _
    unfold inStartTag templateCloseOr blanksOr
    -- a letter starts no mark and is no blank, quote or bracket, so only the rule for names is left
    rw [if_neg (not_isPrefixOf_of_isNamePart (by decide) hpart),
      if_neg (not_blanks_of_isNamePart hpart),
      if_neg (not_isPrefixOf_of_isNamePart (by decide) hpart)]
    dsimp only
    rw [if_neg (ne_of_isNamePart hpart (by decide)), if_neg (ne_of_isNamePart hpart (by decide)),
      if_neg (not_isQuote_of_isNamePart hpart), if_pos hstart, hcount]

/-- The name in an end tag (`inEndTag`) is read up to a character that belongs to no name. -/
theorem inEndTag_name (n : MarkupName) {rest : List Char}
    (hrest : rest.head?.all (!isTagNamePart ·) = true) :
    inEndTag (n.chars ++ rest) = ⟨.tagName, n.chars.length, .tagClose⟩ := by
  obtain ⟨chars, start, parts⟩ := n
  cases chars with
  | nil => cases start
  | cons c cs =>
    have hstart := isNameStart_of_isAlphabetic start
    have hpart := isNamePart_of_isNameStart hstart
    have hcount := Text.countWhile_append parts hrest
    rw [List.cons_append] at hcount
    show inEndTag (c :: (cs ++ rest)) = _
    unfold inEndTag templateCloseOr blanksOr
    rw [if_neg (not_isPrefixOf_of_isNamePart (by decide) hpart),
      if_neg (not_blanks_of_isNamePart hpart)]
    dsimp only
    rw [if_neg (ne_of_isNamePart hpart (by decide)), if_pos hstart, hcount]

/-- In front of a name a tag starts: `<` alone is the token, and the name is left for the mode
`.tagOpen`. -/
theorem inTemplate_tagOpen (n : MarkupName) (rest : List Char) :
    inTemplate ('<' :: (n.chars ++ rest)) = ⟨.tagOpen, 1, .tagOpen⟩ := by
  obtain ⟨chars, start, parts⟩ := n
  cases chars with
  | nil => cases start
  | cons c cs =>
    have hpart := isNamePart_of_isNameStart (isNameStart_of_isAlphabetic start)
    -- no longer mark that starts with `<` goes on with a letter
    have hmark : ∀ mark : List Char, mark.head?.any markStarts.contains = true →
        ¬ ('<' :: mark).isPrefixOf ('<' :: (c :: cs ++ rest)) = true := by
      intro mark h hleads
      rw [List.isPrefixOf_cons_cons, Bool.and_eq_true] at hleads
      exact not_isPrefixOf_of_isNamePart h hpart hleads.2
    have hclose : ¬ Delimiter.templateClose.isPrefixOf ('<' :: (c :: cs ++ rest)) = true :=
      hmark Delimiter.templateClose.tail (by decide)
    have hcomment : ¬ Delimiter.commentOpen.isPrefixOf ('<' :: (c :: cs ++ rest)) = true :=
      hmark Delimiter.commentOpen.tail (by decide)
    have hend : ¬ Delimiter.endTag.isPrefixOf ('<' :: (c :: cs ++ rest)) = true :=
      hmark Delimiter.endTag.tail (by decide)
    show inTemplate ('<' :: (c :: cs ++ rest)) = _
    unfold inTemplate templateCloseOr
    rw [if_neg hclose, if_neg hcomment, if_neg hend]
    rfl

/-- A word in front of a mark that occurs in neither is the word of any other text with the mark. -/
theorem eq_of_append_cons_prefix {word cs rest : List Char} {c : Char} (hword : c ∉ word)
    (hcs : c ∉ cs) (h : word ++ [c] <+: cs ++ c :: rest) : word = cs := by
  induction word generalizing cs with
  | nil =>
    cases cs with
    | nil => rfl
    | cons d cs =>
      have hhead := (List.cons_prefix_cons.mp h).1
      exact absurd (hhead ▸ List.mem_cons_self) hcs
  | cons w word ih =>
    cases cs with
    | nil =>
      have hhead := (List.cons_prefix_cons.mp h).1
      exact absurd (hhead ▸ List.mem_cons_self) hword
    | cons d cs =>
      obtain ⟨rfl, htail⟩ := List.cons_prefix_cons.mp h
      rw [ih (fun hc => hword (List.mem_cons_of_mem w hc))
        (fun hc => hcs (List.mem_cons_of_mem w hc)) htail]

theorem isTagNamePart_gt : isTagNamePart '>' = false := by decide +kernel

/-- In front of the name of an element an end tag starts, and not the closing tag of the template:
that is why a `ContainerName` is not `template`. -/
theorem inTemplate_endTag (n : ContainerName) (rest : List Char) :
    inTemplate ('<' :: '/' :: (n.chars ++ '>' :: rest)) = ⟨.tagEndOpen, 2, .tagClose⟩ := by
  have hclose : ¬ Delimiter.templateClose.isPrefixOf ('<' :: '/' :: (n.chars ++ '>' :: rest))
      = true := by
    intro hleads
    rw [Delimiter.templateClose, List.isPrefixOf_cons_cons, List.isPrefixOf_cons_cons,
      Bool.and_eq_true, Bool.and_eq_true, List.isPrefixOf_iff_prefix] at hleads
    have hgt : '>' ∉ n.chars := by
      intro hmem
      have hpart := n.parts _ hmem
      rw [isTagNamePart_gt] at hpart
      cases hpart
    have hname : Delimiter.templateTag.tail = n.chars :=
      eq_of_append_cons_prefix (by decide) hgt hleads.2.2
    exact n.notTemplate (by rw [← hname]; rfl)
  unfold inTemplate templateCloseOr
  rw [if_neg hclose]
  rfl

/-- The value of an attribute (`QuotedValue.render`) is read with both of its quotes. -/
theorem inAttributeValue_render (v : QuotedValue) (last : Option TokenKind) (rest : List Char) :
    inAttributeValue last (v.render ++ rest) = ⟨.attrValue, v.render.length, .tagOpen⟩ := by
  obtain ⟨quote, chars, isQuote, fits⟩ := v
  -- the value does not hold its own quote, so the body ends at the first quote behind it
  have hbody : Quoted.body false quote (chars ++ ([quote] ++ rest)) = ⟨chars.length + 1, true⟩ := by
    induction chars with
    | nil =>
      rw [List.nil_append, List.singleton_append, Quoted.body_cons, if_pos (beq_self_eq_true quote)]
      rfl
    | cons c chars ih =>
      have hc : ¬ (c == quote) = true := by
        intro heq
        exact fits (by rw [beq_iff_eq.mp heq]; exact List.mem_cons_self)
      rw [List.cons_append, Quoted.body_cons, if_neg hc,
        ih fun hmem => fits (List.mem_cons_of_mem c hmem)]
      show (⟨1 + (chars.length + 1), true⟩ : Extent) = _
      rw [Nat.add_comm]
      rfl
  have hread : inAttributeValue last (quote :: (chars ++ ([quote] ++ rest)))
      = ⟨.attrValue, (Quoted.extent false (quote :: (chars ++ ([quote] ++ rest)))).length,
          .tagOpen⟩ := by
    simp only [RsxInspect.isQuote, Bool.or_eq_true, beq_iff_eq] at isQuote
    rcases isQuote with rfl | rfl <;> rfl
  show inAttributeValue last (quote :: (chars ++ [quote] ++ rest)) = _
  rw [List.append_assoc, hread, Quoted.extent_cons, hbody]
  show (⟨_, 1 + (chars.length + 1), _⟩ : Lexeme) = ⟨_, (quote :: (chars ++ [quote])).length, _⟩
  rw [List.length_cons, List.length_append, List.length_singleton, Nat.add_comm]

/-! ### Comments -/

/-- The mark that closes a comment (`Delimiter.commentClose`) does not stand in its text and what
comes behind, before the one that closes it. -/
theorem indexOf?_comment (c : CommentText) (rest : List Char) :
    Text.indexOf? Delimiter.commentClose (c.chars ++ (Delimiter.commentClose ++ rest))
      = some c.chars.length := by
  rw [Text.indexOf?_eq_some_iff (by decide)]
  constructor
  · rw [List.drop_left]
    exact List.prefix_append ..
  · intro j hj hstands
    rw [List.drop_append_of_le_length (Nat.le_of_lt hj)] at hstands
    have hfits : ¬ Delimiter.commentClose <:+: c.chars.drop j := fun h =>
      c.fits (h.trans (List.drop_suffix j _).isInfix)
    have hlength : (c.chars.drop j).length ≠ 0 := by
      rw [List.length_drop]
      omega
    -- a mark that starts in the text and ends behind it would have a dash for its last character
    rcases hdrop : c.chars.drop j with _ | ⟨a, _ | ⟨b, _ | ⟨d, tail⟩⟩⟩
    · exact hlength (by rw [hdrop]; rfl)
    · rw [hdrop] at hstands
      simp [Delimiter.commentClose] at hstands
    · rw [hdrop] at hstands
      simp [Delimiter.commentClose] at hstands
    · rw [hdrop] at hstands hfits
      have hshort : Delimiter.commentClose <+: a :: b :: d :: tail := by
        refine List.prefix_of_prefix_length_le hstands (List.prefix_append ..) ?_
        rw [List.length_cons, List.length_cons, List.length_cons]
        show 3 ≤ _
        omega
      exact hfits hshort.isInfix

theorem inTemplate_comment (c : CommentText) (rest : List Char) :
    inTemplate (['<', '!', '-', '-'] ++ c.chars ++ ['-', '-', '>'] ++ rest)
      = ⟨.comment, (['<', '!', '-', '-'] ++ c.chars ++ ['-', '-', '>']).length, .template⟩ := by
  have hread : inTemplate ('<' :: '!' :: '-' :: '-' :: (c.chars ++ (['-', '-', '>'] ++ rest)))
      = ⟨.comment, 4 + (Text.past Delimiter.commentClose
          (c.chars ++ (['-', '-', '>'] ++ rest))).length, .template⟩ := rfl
  rw [List.append_assoc, List.append_assoc]
  refine hread.trans ?_
  have hpast : Text.past Delimiter.commentClose (c.chars ++ (['-', '-', '>'] ++ rest))
      = ⟨c.chars.length + 3, true⟩ := by
    unfold Text.past
    rw [show ['-', '-', '>'] = Delimiter.commentClose from rfl, indexOf?_comment]
    rfl
  rw [hpast, List.length_append, List.length_append]
  show (⟨_, 4 + (c.chars.length + 3), _⟩ : Lexeme) = ⟨_, 4 + c.chars.length + 3, _⟩
  rw [Nat.add_assoc]

/-! ### Texts

A text goes on up to a tag or braces, so one of these has to stand behind it (`TextEnds`). In it,
words and blanks are lexemes by turns. -/

/-- What a text has to stand in front of: a tag or braces, or else it would go on. -/
def TextEnds (rest : List Char) : Prop :=
  ∃ cs, rest = '<' :: cs ∨ rest = '\x7b' :: '\x7b' :: cs

/-- A character that belongs to a text or a blank wherever it stands: it starts no markup. -/
def IsPlain (c : Char) : Prop := c ≠ '<' ∧ c ≠ '\x7b'

theorem inTemplate_plain {c : Char} (hc : IsPlain c) (cs : List Char) :
    inTemplate (c :: cs)
      = ⟨Markup.textKind c, (if isBlank c then Text.blanks cs else textFrom 0 cs) + 1,
          .template⟩ := by
  have htag : ∀ {mark : List Char}, mark.head? = some '<' → ¬ mark.isPrefixOf (c :: cs) = true := by
    intro mark hmark
    refine not_isPrefixOf_of_head (by rintro rfl; cases hmark) fun heq => ?_
    rw [hmark] at heq
    exact hc.1 (Option.some.inj heq).symm
  have hbraces : ¬ Delimiter.openBraces.isPrefixOf (c :: cs) = true :=
    not_isPrefixOf_of_head (by decide) fun heq => hc.2 (Option.some.inj heq).symm
  have hlt : (c == '<') = false := beq_eq_false_iff_ne.mpr hc.1
  -- no mark starts here; what is left is whether `c` is a blank or starts a text
  unfold inTemplate templateCloseOr blanksOr
  rw [if_neg (htag rfl), if_neg (htag rfl), if_neg (htag rfl), if_neg (htag rfl), if_neg hbraces,
    textFrom_cons, hlt, Text.blanks, Text.countWhile_cons]
  by_cases hblank : isBlank c = true
  · rw [if_pos hblank, if_pos (Nat.succ_pos _), if_pos hblank, Markup.textKind, if_pos hblank]
    rfl
  · rw [if_neg hblank, if_neg (Nat.lt_irrefl 0), if_neg hblank, Markup.textKind, if_neg hblank]
    rw [Bool.not_eq_true] at hblank hbraces
    rw [hblank, hbraces]
    rfl

/-- The last character of a text. -/
theorem inTemplate_plain_last {c : Char} (hc : IsPlain c) {rest : List Char} (hrest : TextEnds rest) :
    inTemplate (c :: rest) = ⟨Markup.textKind c, 1, .template⟩ := by
  have hblanks : Text.blanks rest = 0 := by
    obtain ⟨cs, rfl | rfl⟩ := hrest <;> rfl
  have htext : textFrom 0 rest = 0 := by
    obtain ⟨cs, rfl | rfl⟩ := hrest <;> rfl
  rw [inTemplate_plain hc, hblanks, htext, ite_self]

/-- A character of a text in front of another one: both belong together if they are of one
`textKind`. -/
theorem inTemplate_plain_cons {c d : Char} (hc : IsPlain c) (hd : IsPlain d) (cs : List Char) :
    inTemplate (c :: d :: cs)
      = ⟨Markup.textKind c,
          (if Markup.textKind d = Markup.textKind c then (inTemplate (d :: cs)).length else 0) + 1,
          .template⟩ := by
  have hlt : (d == '<') = false := beq_eq_false_iff_ne.mpr hd.1
  have hbraces : Delimiter.openBraces.isPrefixOf (d :: cs) = false := by
    rw [← Bool.not_eq_true]
    exact not_isPrefixOf_of_head (by decide) fun heq => hd.2 (Option.some.inj heq).symm
  rw [inTemplate_plain hc, inTemplate_plain hd, Text.blanks, Text.countWhile_cons, textFrom_cons,
    hlt, hbraces]
  unfold Markup.textKind
  by_cases hbc : isBlank c = true
  · by_cases hbd : isBlank d = true
    · simp [hbc, hbd, Text.blanks]
    · simp [hbc, hbd]
  · by_cases hbd : isBlank d = true
    · simp [hbc, hbd]
    · simp [hbc, hbd]

end Lexeme

namespace Lexes

open Markup
open Lexeme (TextEnds IsPlain)

variable {last : Option TokenKind} {rest : List Char}

/-! ### Tags in words

From here on the words are scanned in a row: `Lexes` says so of some words and the characters behind
them, so each lemma has a condition on what comes next. -/

/-- What a name or a value in a start tag has to stand in front of: a space or the end of the
tag. -/
def AttributeEnds (rest : List Char) : Prop := ∃ cs, rest = ' ' :: cs ∨ rest = '>' :: cs

theorem isTagNamePart_space : isTagNamePart ' ' = false := by decide +kernel

theorem isTagNamePart_equals : isTagNamePart '=' = false := by decide +kernel

theorem AttributeEnds.not_tagNamePart (h : AttributeEnds rest) :
    rest.head?.all (!isTagNamePart ·) = true := by
  obtain ⟨cs, rfl | rfl⟩ := h
  · rw [List.head?_cons, Option.all_some, isTagNamePart_space]
    rfl
  · rw [List.head?_cons, Option.all_some, Lexeme.isTagNamePart_gt]
    rfl

theorem head_name (n : MarkupName) (rest : List Char) :
    (n.chars ++ rest).head?.any (!isBlank ·) = true := by
  refine any_head?_append ?_ rest
  obtain ⟨chars, start, parts⟩ := n
  cases chars with
  | nil => cases start
  | cons c cs =>
    have hstart : isNameStart c = true := Lexeme.isNameStart_of_isAlphabetic start
    have hname : ∃ kind, Word.IsExpression ⟨kind, [c]⟩ := ⟨_, .name hstart nofun⟩
    exact hname.elim fun _ h => h.head

theorem ne_nil_of_name (n : MarkupName) : n.chars ≠ [] := by
  intro hnil
  have hstart := n.start
  rw [hnil] at hstart
  cases hstart

/-- An attribute with the space in front of it (`attributeWords`). The name of the tag was there
before, so this one is that of an attribute. -/
theorem singleAttribute (a : MarkupAttribute) {ws : List Word} {n : Mode} (hlast : last ≠ some .tagOpen)
    (hends : AttributeEnds (Word.text ws ++ rest))
    (more : ∀ last, last ≠ some .tagOpen → Lexes .tagOpen last ws rest n) :
    Lexes .tagOpen last (attributeWords a ++ ws) rest n := by
  obtain ⟨name, value⟩ := a
  -- the blank and the name, common to an attribute with a value and one without
  have hname : ∀ {vs : List Word}, (Word.text vs ++ rest).head?.all (!isTagNamePart ·) = true →
      Lexes .tagOpen (some .attrName) vs rest n →
      Lexes .tagOpen last (Word.blank :: ⟨.attrName, name.chars⟩ :: vs) rest n := by
    intro vs hvs hmore
    refine .cons (by decide) (fun _ => lex_space (.inr rfl) ?_) ?_
    · rw [Word.text_cons, List.append_assoc]
      exact head_name name _
    · refine .cons (ne_nil_of_name name) (fun _ => ?_) hmore
      show Lexeme.inStartTag last (name.chars ++ (Word.text vs ++ rest)) = _
      rw [Lexeme.inStartTag_name name last hvs, if_neg hlast]
  cases value with
  | none => exact hname hends.not_tagNamePart (more _ (by decide))
  | some v =>
    refine hname ?_ ?_
    · show (some '=').all _ = true
      rw [Option.all_some, isTagNamePart_equals]
      rfl
    · refine .cons (by decide) (fun _ => rfl) ?_
      refine .cons (List.cons_ne_nil _ _) (fun _ => ?_)
        (more (some .attrValue) (by decide))
      exact Lexeme.inAttributeValue_render v _ _

theorem attributes (as : List MarkupAttribute) {ws : List Word} {n : Mode}
    (hlast : last ≠ some .tagOpen) (hends : AttributeEnds (Word.text ws ++ rest))
    (more : ∀ last, last ≠ some .tagOpen → Lexes .tagOpen last ws rest n) :
    Lexes .tagOpen last (as.flatMap attributeWords ++ ws) rest n := by
  induction as generalizing last with
  | nil => exact more last hlast
  | cons a as ih =>
    rw [List.flatMap_cons, List.append_assoc]
    refine singleAttribute a hlast ?_ fun last hlast => ih hlast
    cases as with
    | nil => exact hends
    | cons b as => exact ⟨_, .inl rfl⟩

/-- A start tag (`tagWords`) up to what ends it, which the words `ws` start with. -/
theorem tag (name : MarkupName) (as : List MarkupAttribute) {ws : List Word} {n : Mode}
    (hends : AttributeEnds (Word.text ws ++ rest))
    (more : ∀ last, Lexes .tagOpen last ws rest n) :
    Lexes .template last (tagWords name as ++ ws) rest n := by
  have hbehind : AttributeEnds (Word.text (as.flatMap attributeWords ++ ws) ++ rest) := by
    cases as with
    | nil => exact hends
    | cons a as => exact ⟨_, .inl rfl⟩
  refine .cons (n := .tagOpen) (by decide) (fun _ => ?_)
    (.cons (n := .tagOpen) (ne_nil_of_name name) (fun _ => ?_) ?_)
  · show Lexeme.inTemplate ('<' :: (name.chars ++ _ ++ rest)) = _
    rw [List.append_assoc]
    exact Lexeme.inTemplate_tagOpen name _
  · exact Lexeme.inStartTag_name name _ hbehind.not_tagNamePart
  · have htagName : some TokenKind.tagName ≠ some .tagOpen := by decide
    exact attributes as htagName hends fun last _ => more last

theorem startTag (name : MarkupName) (as : List MarkupAttribute) :
    Lexes .template last (tagWords name as ++ [tagCloseWord]) rest .template :=
  tag name as ⟨_, .inr rfl⟩ fun _ => .singleton (by decide) fun _ => rfl

theorem selfClosingTag (name : MarkupName) (as : List MarkupAttribute) :
    Lexes .template last (tagWords name as ++ [Word.blank, ⟨.selfClose, ['/', '>']⟩]) rest
      .template :=
  tag name as ⟨_, .inl rfl⟩ fun _ =>
    .cons (by decide) (fun _ => lex_space (.inr rfl) rfl) (.singleton (by decide) fun _ => rfl)

theorem endTag (name : ContainerName) :
    Lexes .template last (endTagWords name.toMarkupName) rest .template := by
  refine .cons (n := .tagClose) (by decide) (fun _ => ?_)
    (.cons (n := .tagClose) (ne_nil_of_name _) (fun _ => ?_) ?_)
  · show Lexeme.inTemplate ('<' :: '/' :: (name.chars ++ ['>'] ++ rest)) = _
    rw [List.append_assoc]
    exact Lexeme.inTemplate_endTag name rest
  · exact Lexeme.inEndTag_name name.toMarkupName (by
      show (some '>').all _ = true
      rw [Option.all_some, Lexeme.isTagNamePart_gt]
      rfl)
  · exact .singleton (by decide) fun _ => rfl

theorem comment (c : CommentText) :
    Lexes .template last [⟨.comment, ['<', '!', '-', '-'] ++ c.chars ++ ['-', '-', '>']⟩] rest
      .template :=
  .singleton (List.cons_ne_nil _ _) fun _ => Lexeme.inTemplate_comment c rest

/-! ### Texts and trees in words

The recursion over the syntax, as it is read: trees, lists of trees, and the branches of a choice.
-/

/-- The words of a text (`textWords`), by recursion over its characters: a new word starts where the
kind changes. -/
theorem text {cs : List Char} (plain : ∀ c ∈ cs, IsPlain c) (hrest : TextEnds rest) :
    Lexes .template last (textWords cs) rest .template := by
  induction cs generalizing last with
  | nil => exact .nil ..
  | cons c cs ih =>
    have hc : IsPlain c := plain c (List.mem_cons_self ..)
    have hmore : ∀ last, Lexes .template last (textWords cs) rest .template := fun _ =>
      ih fun d hd => plain d (List.mem_cons_of_mem c hd)
    have hchars := text_textWords cs
    rw [textWords]
    cases hws : textWords cs with
    | nil =>
      exact .singleton (List.cons_ne_nil _ _) fun _ => Lexeme.inTemplate_plain_last hc hrest
    | cons w ws =>
      rw [hws] at hchars hmore
      -- the next word starts with the next character, so the two are read alike or apart
      cases hmore last with
      | @cons _ n _ _ _ _ _ nonempty here more =>
        obtain ⟨d, ds, hd⟩ := List.exists_cons_of_ne_nil nonempty
        have hplain : IsPlain d := plain d (by
          rw [← hchars, Word.text_cons, hd]
          simp)
        have hread : Lexeme.inTemplate (d :: (ds ++ (Word.text ws ++ rest)))
            = ⟨w.kind, w.chars.length, n⟩ := by
          rw [← List.cons_append, ← hd]
          exact here none
        have hwkind : w.kind = textKind d := by
          rw [Lexeme.inTemplate_plain hplain] at hread
          exact (congrArg Lexeme.kind hread).symm
        obtain rfl : n = .template := by
          rw [Lexeme.inTemplate_plain hplain] at hread
          exact (congrArg Lexeme.mode hread).symm
        dsimp only
        split
        · rename_i hsame
          refine .cons (List.cons_ne_nil _ _) (fun _ => ?_) more
          show Lexeme.inTemplate (c :: (w.chars ++ (Word.text ws ++ rest))) = _
          rw [hd, List.cons_append, Lexeme.inTemplate_plain_cons hc hplain, hread, ← hwkind,
            if_pos hsame, ← hsame]
          rw [hd]
          rfl
        · rename_i hother
          refine .cons (List.cons_ne_nil _ _) (fun _ => ?_) (hmore _)
          show Lexeme.inTemplate (c :: (w.chars ++ Word.text ws ++ rest)) = _
          rw [List.append_assoc, hd, List.cons_append, Lexeme.inTemplate_plain_cons hc hplain,
            ← hwkind, if_neg hother]
          rfl

/-- All markup but texts (`Markup.isText`) starts with a tag or with braces. -/
theorem textEnds_words {m : Markup} (hm : m.isText = false) (rest : List Char) :
    TextEnds (Word.text (Markup.words m) ++ rest) := by
  cases m with
  | element | void | selfClosing | comment => exact ⟨_, .inl rfl⟩
  | text => cases hm
  | interpolation raw => cases raw <;> exact ⟨_, .inr rfl⟩
  | choice | loop => exact ⟨_, .inr rfl⟩

theorem textEnds_wordsOthers (as : Alternatives) (rest : List Char) :
    TextEnds (Word.text (wordsOthers as ++ braceWords [endIfWord]) ++ rest) := by
  cases as with
  | none => exact ⟨_, .inr rfl⟩
  | otherwise => exact ⟨_, .inr rfl⟩
  | elseIf => exact ⟨_, .inr rfl⟩

mutual

/-- **Markup is scanned into its words** (`Lexes`, `Markup.words`), whatever comes behind it; only a
text has to end there. -/
theorem words (m : Markup) {last : Option TokenKind} {rest : List Char} (hm : Separated m)
    (hrest : m.isText = true → TextEnds rest) :
    Lexes .template last (Markup.words m) rest .template := by
  -- each piece is a row of words one after the other, and ends in template mode again
  match m with
  | .element name as children =>
    rw [Markup.words, ← List.singleton_append, ← List.append_assoc]
    refine append (startTag name.toMarkupName as) fun _ => append ?_ fun _ => endTag name
    exact wordsAll children hm ⟨_, .inl rfl⟩
  | .void name as => exact startTag name.toMarkupName as
  | .selfClosing name as => exact selfClosingTag name as
  | .text t => exact text t.plain (hrest rfl)
  | .comment c => exact comment c
  | .interpolation false e => exact interpolation e
  | .interpolation true e => exact htmlHead e
  | .choice condition children others =>
    refine append (ifHead condition) fun _ => append (wordsAll children hm.1 ?_) fun _ => ?_
    · exact textEnds_wordsOthers others rest
    · exact append (wordsOthers others hm.2 ⟨_, .inr rfl⟩) fun _ => endIf
  | .loop list item index children =>
    refine append (eachHead list item index) fun _ => append ?_ fun _ => endEach
    exact wordsAll children hm ⟨_, .inr rfl⟩

theorem wordsAll (ms : List Markup) {last : Option TokenKind} {rest : List Char}
    (hms : SeparatedAll ms) (hrest : TextEnds rest) :
    Lexes .template last (Markup.wordsAll ms) rest .template := by
  match ms with
  | [] => exact .nil ..
  | m :: ms =>
    obtain ⟨hm, hnext, hmore⟩ := hms
    refine append (words m hm fun htext => ?_) fun _ => wordsAll ms hmore hrest
    cases ms with
    | nil => exact hrest
    | cons k ms =>
      have hk : k.isText = false := by simpa using hnext htext
      rw [Markup.wordsAll, Word.text_append, List.append_assoc]
      exact textEnds_words hk _

theorem wordsOthers (as : Alternatives) {last : Option TokenKind} {rest : List Char}
    (has : SeparatedOthers as) (hrest : TextEnds rest) :
    Lexes .template last (Markup.wordsOthers as) rest .template := by
  match as with
  | .none => exact .nil ..
  | .otherwise children => exact append elseHead fun _ => wordsAll children has hrest
  | .elseIf condition children others =>
    refine append (elseIfHead condition) fun _ => append (wordsAll children has.1 ?_) fun _ =>
      wordsOthers others has.2 hrest
    cases others with
    | none => exact hrest
    | otherwise => exact ⟨_, .inr rfl⟩
    | elseIf => exact ⟨_, .inr rfl⟩

end

/-- A file is scanned into its words (`fileWords`), from `.initial` back to `.initial`. -/
theorem file (ms : List Markup) (hms : SeparatedAll ms) :
    Lexes .initial none (fileWords ms) [] .initial := by
  refine .cons (n := .template) (List.cons_ne_nil _ _) (fun _ => rfl) ?_
  exact append (wordsAll ms hms ⟨_, .inl rfl⟩) fun _ =>
    .singleton (List.cons_ne_nil _ _) fun _ => rfl

end Lexes

end RsxInspect
