import RsxInspect.Proofs.Markup.Words
import RsxInspect.Proofs.Template.Growth

/-!
# Reading tags

A start tag is read with the name and the attributes that it was written with
(`readStartTag_words`). It opens a frame, or adds an element if it has no content (`builds_tag`),
and the end tag of that name makes an element of the frame (`builds_endTag`).

The attributes are read one after the other (`readFrom_attribute`). Each one ends in front of a name
or the end of the tag, which is no `=` (`head_attributes`), so none takes what belongs to the next.
-/

namespace RsxInspect

open String (utf8Len)

namespace Markup

open Builder (Builds)

variable {r : Reading} {p : Nat}

/-! ### Attributes

The loop over the rest of a tag takes an attribute in one step, with its name, its equals sign and
its value; the induction is over the attributes. -/

/-- The value of an attribute in quotes is no expression, and nothing is reported on it
(`AttributeValue.ofToken`). -/
theorem ofToken_value (v : QuotedValue) {t : Token} (ht : r.textOf t = String.ofList v.render) :
    AttributeValue.ofToken r t = (⟨String.ofList v.render, none, t.span⟩, []) := by
  have hbraces : ¬ Delimiter.openBraces.isPrefixOf (String.ofList v.render).toList = true := by
    have hquote := v.isQuote
    rw [String.toList_ofList, QuotedValue.render, Delimiter.openBraces, List.isPrefixOf_cons_cons]
    intro h
    rw [Bool.and_eq_true, beq_iff_eq] at h
    rw [← h.1] at hquote
    exact absurd hquote (by decide)
  unfold AttributeValue.ofToken
  rw [ht]
  dsimp only
  rw [if_neg hbraces]

/-- No `=` comes behind the attributes that are read. -/
theorem head_attributes (as : List MarkupAttribute) {more : List Token}
    (hmore : more.head?.all (·.kind != .equals) = true) (p : Nat) :
    (Word.significantFrom p (as.flatMap attributeWords) ++ more).head?.all (·.kind != .equals)
      = true := by
  cases as with
  | nil => exact hmore
  | cons a as => rfl

/-- An attribute without a value: `readAttribute` takes nothing behind the name. -/
theorem readAttribute_name {t : Token} {ts : List Token}
    (hts : ts.head?.all (·.kind != .equals) = true) :
    readAttribute r t ts = ⟨⟨r.textOf t, none, t.span⟩, 0, []⟩ := by
  unfold readAttribute
  cases ts with
  | nil => rfl
  | cons u us =>
    have hu : ¬ (u.kind == .equals) = true := by simpa using hts
    dsimp only
    rw [if_neg hu]

/-- An attribute with a value in quotes: `readAttribute` takes the `=` and the value, and reports
nothing. -/
theorem readAttribute_value (v : QuotedValue) {t equals value : Token} {ts : List Token}
    (hequals : equals.kind = .equals) (hvalue : value.kind = .attrValue)
    (htext : r.textOf value = String.ofList v.render) :
    readAttribute r t (equals :: value :: ts)
      = ⟨⟨r.textOf t, some ⟨String.ofList v.render, none, value.span⟩,
          (t.span.cover equals.span).cover value.span⟩, 2, []⟩ := by
  have hhead : (value :: ts).head?.filter (·.kind == .attrValue) = some value := by
    rw [List.head?_cons, Option.filter_some, hvalue]
    rfl
  unfold readAttribute
  dsimp only
  rw [if_pos (by rw [hequals]; rfl), hhead]
  dsimp only
  rw [ofToken_value v htext]

/-- One attribute is read as it is, and `TagBody.readFrom` goes on behind it. -/
theorem readFrom_attribute (a : MarkupAttribute)
    (h : Stands r.source p (Word.text (attributeWords a))) {more : List Token}
    (hmore : more.head?.all (·.kind != .equals) = true) (done : TagBody) :
    ∃ x, a.Depicts x ∧
      TagBody.readFrom r done (Word.significantFrom p (attributeWords a) ++ more)
        = TagBody.readFrom r
          { done with
            attributes := done.attributes.push x
            taken := done.taken + (Word.significantFrom p (attributeWords a)).length }
          more := by
  obtain ⟨name, value⟩ := a
  have hname := h.tail.head.text
  rw [attributeWords, Word.significantFrom_blank _ _ rfl, Word.significantFrom_cons _ _ (by simp)]
  let t : Token := ⟨.attrName, ⟨p + 1, p + 1 + utf8Len name.chars⟩⟩
  -- without a value the attribute is its name alone, which `hmore` keeps from taking the next token
  cases value with
  | none =>
    refine ⟨⟨r.textOf t, none, t.span⟩, ⟨hname, rfl⟩, ?_⟩
    show TagBody.readFrom r done (t :: more) = _
    rw [TagBody.readFrom]
    show TagBody.readFrom r _ _ = _
    rw [readAttribute_name hmore]
    rfl
  | some v =>
    let q := p + 1 + utf8Len name.chars
    let equals : Token := ⟨.equals, ⟨q, q + 1⟩⟩
    let value : Token := ⟨.attrValue, ⟨q + 1, q + 1 + utf8Len v.render⟩⟩
    have hvalue : r.textOf value = String.ofList v.render := h.tail.tail.tail.head.text
    refine ⟨⟨r.textOf t, some ⟨String.ofList v.render, none, value.span⟩,
      (t.span.cover equals.span).cover value.span⟩, ⟨hname, rfl⟩, ?_⟩
    show TagBody.readFrom r done (t :: equals :: value :: more) = _
    rw [TagBody.readFrom]
    show TagBody.readFrom r _ _ = _
    rw [readAttribute_value v rfl rfl hvalue]
    rfl

/-- **Attributes are read as they are** (`MarkupAttribute.Depicts`), by induction on the list;
`TagBody.readFrom` goes on behind them. -/
theorem readFrom_attributes (as : List MarkupAttribute)
    (h : Stands r.source p (Word.text (as.flatMap attributeWords))) {more : List Token}
    (hmore : more.head?.all (·.kind != .equals) = true) (done : TagBody) :
    ∃ xs, List.Forall₂ MarkupAttribute.Depicts as xs ∧
      TagBody.readFrom r done (Word.significantFrom p (as.flatMap attributeWords) ++ more)
        = TagBody.readFrom r
          { done with
            attributes := (done.attributes.toList ++ xs).toArray
            taken := done.taken + (Word.significantFrom p (as.flatMap attributeWords)).length }
          more := by
  -- the bounds of the next attribute start where this one ended, so `p` and `done` vary
  induction as generalizing p done with
  | nil => exact ⟨[], .nil, by simp [Word.significantFrom_nil]⟩
  | cons a as ih =>
    rw [List.flatMap_cons, Word.text_append] at h
    rw [List.flatMap_cons, Word.significantFrom_append, List.append_assoc]
    obtain ⟨x, hx, hread⟩ := readFrom_attribute a h.left
      (head_attributes as hmore (p + utf8Len (Word.text (attributeWords a)))) done
    obtain ⟨xs, hxs, hmore⟩ := ih h.right
      { done with
        attributes := done.attributes.push x
        taken := done.taken + (Word.significantFrom p (attributeWords a)).length }
    refine ⟨x :: xs, .cons hx hxs, ?_⟩
    rw [hread, hmore, List.length_append, Nat.add_assoc]
    simp

/-! ### Start tags -/

/-- The end of a start tag, which is the `terminator` of its body. -/
theorem readFrom_close {t : Token} (ht : t.kind = .tagClose ∨ t.kind = .selfClose) (done : TagBody)
    (ts : List Token) :
    TagBody.readFrom r done (t :: ts)
      = { done with terminator := some t.kind, taken := done.taken + 1 } := by
  rw [TagBody.readFrom]
  rcases ht with ht | ht
  · rw [ht]
  · rw [ht]

/-- A start tag with a name and an end (`readStartTag`), with nothing wrong between them, is an
element, or opens one. -/
theorem readStartTag_named (first : Token) {named : Token} {ts : List Token}
    {attributes : Array Attribute} {k : TokenKind} {n : Nat} (hname : named.kind = .tagName)
    (hbody : TagBody.readFrom r ⟨#[], none, 1, #[]⟩ ts = ⟨attributes, some k, n, #[]⟩) :
    ∃ e : Element, e.name = r.textOf named ∧ e.attributes = attributes.toList ∧ e.endTag = none ∧
      e.selfClosing = (k == .selfClose) ∧
      readStartTag r first (named :: ts)
        = ⟨if e.selfClosing || Vocabulary.isVoidElement e.name then .node (.element e [])
            else .startTag e, n, [], []⟩ := by
  let span := spanOf first (named :: ts) n
  refine ⟨⟨r.textOf named, attributes.toList, span, none, some k == some .selfClose, span⟩, rfl,
    rfl, rfl, rfl, ?_⟩
  -- the name is taken, so the body is read from the token behind it
  have hhead : (named :: ts).head?.filter (·.kind == .tagName) = some named := by
    rw [List.head?_cons, Option.filter_some, hname]
    rfl
  have hskip : TagBody.readFrom r ⟨#[], none, if false = true then 0 else 1, #[]⟩
      ((named :: ts).drop (if false = true then 0 else 1))
        = ⟨attributes, some k, n, #[]⟩ := hbody
  unfold readStartTag
  rw [hhead]
  simp only [hskip, Option.isNone_some, Bool.or_false]
  rfl

/-- **Start tags are read as they are** (`DepictsTag`): name, attributes, and how the tag ends. -/
theorem readStartTag_words (name : MarkupName) (as : List MarkupAttribute)
    (h : Stands r.source p (Word.text (tagWords name as))) (close : Token)
    (hclose : close.kind = .tagClose ∨ close.kind = .selfClose) (rest : List Token) :
    ∃ first ts e, Word.significantFrom p (tagWords name as) = first :: ts ∧
      first.kind = .tagOpen ∧ DepictsTag name as e ∧ e.endTag = none ∧
      e.selfClosing = (close.kind == .selfClose) ∧
      readStartTag r first (ts ++ [close] ++ rest)
        = ⟨if e.selfClosing || Vocabulary.isVoidElement e.name then .node (.element e [])
            else .startTag e, (ts ++ [close]).length, [], []⟩ := by
  let first : Token := ⟨.tagOpen, ⟨p, p + 1⟩⟩
  let named : Token := ⟨.tagName, ⟨p + 1, p + 1 + utf8Len name.chars⟩⟩
  let ts := Word.significantFrom (p + 1 + utf8Len name.chars) (as.flatMap attributeWords)
  have hhead : (close :: rest).head?.all (·.kind != .equals) = true := by
    rcases hclose with hclose | hclose <;> simp [hclose]
  obtain ⟨xs, hxs, hread⟩ := readFrom_attributes as h.tail.tail hhead ⟨#[], none, 1, #[]⟩
  -- the attributes and then the closing mark, which ends the body
  have hbody : TagBody.readFrom r ⟨#[], none, 1, #[]⟩ (ts ++ close :: rest)
      = ⟨xs.toArray, some close.kind, 1 + ts.length + 1, #[]⟩ := by
    refine hread.trans ?_
    rw [readFrom_close hclose]
    rfl
  obtain ⟨e, hname, hattributes, hend, hself, htag⟩ :=
    readStartTag_named first (show named.kind = .tagName from rfl) hbody
  refine ⟨first, named :: ts, e, rfl, rfl, ⟨?_, ?_⟩, hend, hself, ?_⟩
  · exact hname.trans h.tail.head.text
  · rw [hattributes]
    exact hxs
  · show readStartTag r first (named :: (ts ++ [close] ++ rest)) = _
    rw [List.append_assoc]
    refine htag.trans ?_
    rw [List.length_append, List.length_cons, List.length_singleton, Nat.add_comm 1]

/-- A start tag opens a frame, unless the element has no content: it ends with `/>`, or its name is
one of `Vocabulary.isVoidElement`. -/
theorem builds_tag (name : MarkupName) (as : List MarkupAttribute) (close : Word)
    (hclose : close.kind = .tagClose ∨ close.kind = .selfClose)
    (h : Stands r.source p (Word.text (tagWords name as))) (q : Nat) (rest : List Token)
    (b : Builder) :
    ∃ e, DepictsTag name as e ∧ e.endTag = none ∧ e.selfClosing = (close.kind == .selfClose) ∧
      Builds r (Word.significantFrom p (tagWords name as) ++ Word.significantFrom q [close]) rest b
        (if e.selfClosing || Vocabulary.isVoidElement e.name then b.push (.element e [])
          else b.openFrame (.element e #[])) := by
  let t : Token := ⟨close.kind, ⟨q, q + utf8Len close.chars⟩⟩
  obtain ⟨first, ts, e, htokens, hfirst, htag, hend, hself, hread⟩ :=
    readStartTag_words name as h t hclose rest
  refine ⟨e, htag, hend, hself, ?_⟩
  -- whether the element is pushed or opened depends on its name; both sides split on it alike
  have hblank : close.kind ≠ .whitespace := by
    rcases hclose with hclose | hclose <;> rw [hclose] <;> decide
  rw [htokens, Word.significantFrom_cons q [] hblank]
  have hpiece := Builds.piece (r := r) (b := b) (t := first) _ (by rw [hfirst]; decide)
    (by unfold Piece.read; rw [hfirst]; exact hread)
  split at hpiece
  · rw [if_pos ‹_›]
    exact hpiece
  · rw [if_neg ‹_›]
    exact hpiece

/-! ### End tags -/

/-- The end tag (`endTagWords`) makes an element of the frame, whose name it has. -/
theorem builds_endTag (name : MarkupName)
    (h : Stands r.source p (Word.text (endTagWords name))) {e : Element}
    (hname : e.name = String.ofList name.chars) (children : Array Node) (rest : List Token)
    (b : Builder) :
    ∃ span, Builds r (Word.significantFrom p (endTagWords name)) rest
      (b.openFrame (.element e children))
      (b.push (Frame.close (.element e children) span.stop (some span))) := by
  let first : Token := ⟨.tagEndOpen, ⟨p, p + 2⟩⟩
  let named : Token := ⟨.tagName, ⟨p + 2, p + 2 + utf8Len name.chars⟩⟩
  let q := p + 2 + utf8Len name.chars
  let close : Token := ⟨.tagClose, ⟨q, q + 1⟩⟩
  let span := spanOf first (named :: close :: rest) 2
  have htext : r.textOf named = e.name := h.tail.head.text.trans hname.symm
  refine ⟨span, ?_⟩
  rw [← Builder.addEndTag_innermost b r.source e children span, ← htext]
  have hfirst : first.kind ≠ .templateClose := show TokenKind.tagEndOpen ≠ _ by decide
  have hread : Piece.read r first ([named, close] ++ rest)
      = ⟨.endTag (r.textOf named) span, [named, close].length, [], []⟩ := rfl
  exact Builds.piece (.endTag (r.textOf named) span) hfirst hread

end Markup

end RsxInspect
