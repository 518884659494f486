import RsxInspect.Proofs.Markup.Syntax

/-!
# The words of markup

The words that a tree is scanned into, by the shape of the tree: `Markup.words` for a tree, with
`attributeWords`, `tagWords`, `headWords` and `textWords` for its parts. `Markup.text_words` says
that their characters are those of the tree that is written out, so a scan of the words is a scan of
`Markup.render`.
-/

namespace RsxInspect

namespace Markup

/-! ### Braces -/

/-- Braces around words. -/
def braceWords (ws : List Word) : List Word :=
  ⟨.interpolationOpen, Delimiter.openBraces⟩ :: (ws ++ [⟨.interpolationClose, Delimiter.closeBraces⟩])

/-- Braces with a keyword in front of a run of words, and a blank behind each. -/
def headWords (keyword : Word) (run : List Word) : List Word :=
  braceWords (keyword :: Word.blank :: run)

def htmlWord : Word := ⟨.html, ['@', 'h', 't', 'm', 'l']⟩

def ifWord : Word := ⟨.ifBlock, ['@', 'i', 'f']⟩

def elseIfWord : Word := ⟨.elseIf, [':', 'e', 'l', 's', 'e', ' ', 'i', 'f']⟩

def elseWord : Word := ⟨.elseBranch, [':', 'e', 'l', 's', 'e']⟩

def endIfWord : Word := ⟨.endIf, ['/', 'i', 'f']⟩

def eachWord : Word := ⟨.eachBlock, ['@', 'e', 'a', 'c', 'h']⟩

def endEachWord : Word := ⟨.endEach, ['/', 'e', 'a', 'c', 'h']⟩

def asWord : Word := ⟨.asWord, ['a', 's']⟩

/-- The names that a loop binds. -/
def bindingWords (item : Binder) (index : Option Binder) : List Word :=
  ⟨.identifier, item.chars⟩
    :: (index.map fun i => [⟨.comma, [',']⟩, Word.blank, ⟨.identifier, i.chars⟩]).getD []

/-- What stands behind the keyword of a loop: the list, `as`, and the names (`bindingWords`). -/
def loopWords (list : Phrase) (item : Binder) (index : Option Binder) : List Word :=
  Word.spaced list.words ++ Word.blank :: asWord :: Word.blank :: bindingWords item index

/-! ### Tags and text -/

def attributeWords (a : MarkupAttribute) : List Word :=
  Word.blank :: ⟨.attrName, a.name.chars⟩
    :: (a.value.map fun v => [⟨.equals, ['=']⟩, ⟨.attrValue, v.render⟩]).getD []

/-- A start tag up to its end. -/
def tagWords (name : MarkupName) (attributes : List MarkupAttribute) : List Word :=
  ⟨.tagOpen, ['<']⟩ :: ⟨.tagName, name.chars⟩ :: attributes.flatMap attributeWords

def tagCloseWord : Word := ⟨.tagClose, ['>']⟩

def endTagWords (name : MarkupName) : List Word :=
  [⟨.tagEndOpen, ['<', '/']⟩, ⟨.tagName, name.chars⟩, tagCloseWord]

/-- The kind of the word that a character of a text belongs to. -/
def textKind (c : Char) : TokenKind := if isBlank c then .whitespace else .text

/-- The words and blanks of a text: neighbours of one `textKind` make up one word. -/
def textWords : List Char → List Word
  | [] => []
  | c :: cs =>
    match textWords cs with
    | [] => [⟨textKind c, [c]⟩]
    | w :: ws =>
      if w.kind = textKind c then ⟨w.kind, c :: w.chars⟩ :: ws else ⟨textKind c, [c]⟩ :: w :: ws

theorem text_textWords (cs : List Char) : Word.text (textWords cs) = cs := by
  induction cs with
  | nil => rfl
  | cons c cs ih =>
    rw [textWords]
    cases hws : textWords cs with
    | nil =>
      rw [hws] at ih
      rw [← ih]
      rfl
    | cons w ws =>
      rw [hws] at ih
      rw [← ih]
      dsimp only
      split <;> rfl

theorem kind_textWords {cs : List Char} {w : Word} (hw : w ∈ textWords cs) :
    w.kind = .whitespace ∨ w.kind = .text := by
  have hkind : ∀ c, textKind c = .whitespace ∨ textKind c = .text := by
    intro c
    unfold textKind
    split
    · exact .inl rfl
    · exact .inr rfl
  induction cs generalizing w with
  | nil => nomatch hw
  | cons c cs ih =>
    rw [textWords] at hw
    -- `c` starts a word of its own, or goes to the front of the word `v` of the same kind
    split at hw
    · rw [List.mem_singleton.mp hw]
      exact hkind c
    · rename_i v vs hvs
      rw [hvs] at ih
      split at hw
      · rcases List.mem_cons.mp hw with rfl | hw
        · exact @ih v (List.mem_cons_self ..)
        · exact ih (List.mem_cons_of_mem v hw)
      · rcases List.mem_cons.mp hw with rfl | hw
        · exact hkind c
        · exact ih hw

/-! ### Trees -/

mutual

/-- The words of a tree. The recursion is that of `render`. -/
def words : Markup → List Word
  | .element name attributes children =>
    tagWords name.toMarkupName attributes
      ++ tagCloseWord :: (wordsAll children ++ endTagWords name.toMarkupName)
  | .void name attributes => tagWords name.toMarkupName attributes ++ [tagCloseWord]
  | .selfClosing name attributes =>
    tagWords name attributes ++ [Word.blank, ⟨.selfClose, ['/', '>']⟩]
  | .text t => textWords t.chars
  | .comment c => [⟨.comment, ['<', '!', '-', '-'] ++ c.chars ++ ['-', '-', '>']⟩]
  | .interpolation false e => braceWords (Word.blank :: (Word.spaced e.words ++ [Word.blank]))
  | .interpolation true e => headWords htmlWord (Word.spaced e.words)
  | .choice condition children others =>
    headWords ifWord (Word.spaced condition.words)
      ++ (wordsAll children ++ (wordsOthers others ++ braceWords [endIfWord]))
  | .loop list item index children =>
    headWords eachWord (loopWords list item index)
      ++ (wordsAll children ++ braceWords [endEachWord])

def wordsAll : List Markup → List Word
  | [] => []
  | m :: ms => words m ++ wordsAll ms

def wordsOthers : Alternatives → List Word
  | .none => []
  | .otherwise children => braceWords [elseWord] ++ wordsAll children
  | .elseIf condition children others =>
    headWords elseIfWord (Word.spaced condition.words) ++ (wordsAll children ++ wordsOthers others)

end

theorem text_attributeWords (a : MarkupAttribute) :
    Word.text (attributeWords a) = renderAttribute a := by
  unfold attributeWords renderAttribute
  cases a.value <;> simp [Word.blank]

theorem text_tagWords (name : MarkupName) (attributes : List MarkupAttribute) :
    Word.text (tagWords name attributes) = '<' :: (name.chars ++ renderAttributes attributes) := by
  have hattributes : Word.text (attributes.flatMap attributeWords) = renderAttributes attributes := by
    induction attributes with
    | nil => rfl
    | cons a attributes ih =>
      rw [List.flatMap_cons, Word.text_append, text_attributeWords, ih]
      rfl
  rw [tagWords, Word.text_cons, Word.text_cons, hattributes]
  rfl

theorem text_bindingWords (item : Binder) (index : Option Binder) :
    Word.text (bindingWords item index) = renderBinding item index := by
  unfold bindingWords renderBinding
  cases index <;> simp [Word.blank]

mutual

/-- The words of a tree have its characters (`render`), by recursion over the tree. -/
theorem text_words : (m : Markup) → Word.text (words m) = render m
  | .element name attributes children => by
    simp [words, render, text_tagWords, text_wordsAll children, endTagWords, tagCloseWord]
  | .void name attributes => by
    simp [words, render, text_tagWords, tagCloseWord]
  | .selfClosing name attributes => by
    simp [words, render, text_tagWords, Word.blank]
  | .text t => text_textWords t.chars
  | .comment c => by simp [words, render]
  | .interpolation false e => by
    simp [words, render, braceWords, inBraces, Word.blank, Phrase.chars]
  | .interpolation true e => by
    simp [words, render, headWords, braceWords, inBraces, htmlWord, Word.blank, Phrase.chars]
  | .choice condition children others => by
    simp [words, render, headWords, braceWords, inBraces, ifWord, endIfWord, Word.blank,
      Phrase.chars, text_wordsAll children, text_wordsOthers others]
  | .loop list item index children => by
    simp [words, render, headWords, braceWords, inBraces, eachWord, endEachWord, Word.blank,
      Phrase.chars, text_wordsAll children, loopWords, asWord, text_bindingWords]

theorem text_wordsAll : (ms : List Markup) → Word.text (wordsAll ms) = renderAll ms
  | [] => rfl
  | m :: ms => by
    rw [wordsAll, renderAll, Word.text_append, text_words m, text_wordsAll ms]

theorem text_wordsOthers : (as : Alternatives) → Word.text (wordsOthers as) = renderOthers as
  | .none => rfl
  | .otherwise children => by
    simp [wordsOthers, renderOthers, braceWords, inBraces, elseWord, text_wordsAll children]
  | .elseIf condition children others => by
    simp [wordsOthers, renderOthers, headWords, braceWords, inBraces, elseIfWord, Word.blank,
      Phrase.chars, text_wordsAll children, text_wordsOthers others]

end

/-- The words of a file. -/
def fileWords (ms : List Markup) : List Word :=
  ⟨.templateOpen, Delimiter.templateTag ++ ['>']⟩
    :: (wordsAll ms ++ [⟨.templateClose, Delimiter.templateClose⟩])

theorem text_fileWords (ms : List Markup) : String.ofList (Word.text (fileWords ms)) = file ms := by
  rw [fileWords, Word.text_cons, Word.text_append, text_wordsAll, file]
  rfl

end Markup

end RsxInspect
