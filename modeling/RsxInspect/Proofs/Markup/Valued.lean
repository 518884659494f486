import RsxInspect.Proofs.Markup.Interpolated
import RsxInspect.Proofs.Markup.WellFormed
import RsxInspect.Proofs.Template.MadeFiles

/-!
# Expressions as attribute values

As the value of an attribute, an expression in braces is read as it is as text: the text between the
braces has the same tokens in another place (`valueTokens_braced`), so they make up the same
expression, moved (`AttributeValue.ofToken_braced`). But the two ends are found in different ways.
As text, the closing braces are those that the scan of the expression meets, which passes strings. A
value ends with the first closing braces, wherever they stand (`Lexeme.inAttributeValue_braced`).
Both are the same braces exactly if there are none in the expression (`values_like_texts`).

For one direction, `builds_valuedWords` reads the words of an element with the value, and
`parse?_valued` the file around it, so that `ReadsAsText.readsAsValue` takes an expression from a
text to a value. For the other, `Token.closeBraces_not_infix` says that what is the value of a token
has no closing braces in it.
-/

namespace RsxInspect

open String (utf8Len)

/-! ### The end of the value -/

/-- A mark that does not start earlier is passed (`Text.past`) where it stands. -/
theorem Text.past_mark {mark cs : List Char} (rest : List Char) (hmark : mark ≠ [])
    (h : ¬ mark <:+: cs ++ mark.dropLast) :
    past mark (cs ++ (mark ++ rest)) = ⟨cs.length + mark.length, true⟩ := by
  have hindex : indexOf? mark (cs ++ (mark ++ rest)) = some cs.length := by
    refine (indexOf?_eq_some_iff hmark).mpr ⟨?_, fun j hj hstands => h ?_⟩
    · rw [List.drop_left]
      exact List.prefix_append ..
    · -- what starts in front of the mark ends in front of its last character
      have hsplit : cs ++ (mark ++ rest)
          = (cs ++ mark.dropLast) ++ ([mark.getLast hmark] ++ rest) := by
        conv => lhs; rw [← List.dropLast_append_getLast hmark]
        simp only [List.append_assoc]
      have hlength : (cs ++ mark.dropLast).length = cs.length + (mark.length - 1) := by
        rw [List.length_append, List.length_dropLast]
      rw [hsplit, List.drop_append_of_le_length (by omega)] at hstands
      have hinside : mark <+: (cs ++ mark.dropLast).drop j := by
        refine List.prefix_of_prefix_length_le hstands (List.prefix_append ..) ?_
        rw [List.length_drop, hlength]
        omega
      exact hinside.isInfix.trans (List.drop_suffix j _).isInfix
  unfold past
  rw [hindex]

/-- Closing braces behind a space do not start in front of it. -/
theorem not_infix_spacedOut {e : List Char} (h : ¬ Delimiter.closeBraces <:+: e) :
    ¬ Delimiter.closeBraces <:+: Delimiter.openBraces ++ spacedOut e ++ ['\x7d'] := by
  -- braces could only arise where `e` meets the blank and the single brace, and the blank keeps
  -- them apart
  have hbehind : ¬ Delimiter.closeBraces <:+: e ++ [' ', '\x7d'] := by
    induction e with
    | nil => decide
    | cons c e ih =>
      rw [List.cons_append, List.infix_cons_iff, not_or]
      refine ⟨fun hstarts => ?_, ih fun hin => h (List.infix_cons hin)⟩
      obtain ⟨rfl, hnext⟩ := List.cons_prefix_cons.mp hstarts
      cases e with
      | nil => exact absurd hnext (by decide)
      | cons d e =>
        obtain ⟨rfl, -⟩ := List.cons_prefix_cons.mp hnext
        exact h ⟨[], e, rfl⟩
  have hfront : ∀ c cs, c ≠ '\x7d' → ¬ Delimiter.closeBraces <:+: cs →
      ¬ Delimiter.closeBraces <:+: c :: cs := by
    intro c cs hc hcs
    rw [List.infix_cons_iff, not_or]
    exact ⟨fun hstarts => hc (List.cons_prefix_cons.mp hstarts).1.symm, hcs⟩
  show ¬ _ <:+: '\x7b' :: '\x7b' :: ' ' :: (e ++ [' '] ++ ['\x7d'])
  rw [List.append_assoc]
  exact hfront _ _ (by decide) (hfront _ _ (by decide) (hfront _ _ (by decide) hbehind))

/-- A value in braces (`braced`) ends with the first closing ones, with or without an equals sign in
front of it. -/
theorem Lexeme.inAttributeValue_braced {e : List Char} (h : ¬ Delimiter.closeBraces <:+: e)
    (last : Option TokenKind) (rest : List Char) :
    inAttributeValue last (braced e ++ rest) = ⟨.attrValue, (braced e).length, .tagOpen⟩ := by
  have hpast : Text.past Delimiter.closeBraces (braced e ++ rest) = ⟨(braced e).length, true⟩ := by
    have hfirst : ¬ Delimiter.closeBraces <:+:
        (Delimiter.openBraces ++ spacedOut e) ++ Delimiter.closeBraces.dropLast :=
      not_infix_spacedOut h
    have hmark := Text.past_mark rest (by decide) hfirst
    have hlength : (braced e).length = (Delimiter.openBraces ++ spacedOut e).length
        + Delimiter.closeBraces.length := List.length_append
    rw [← List.append_assoc] at hmark
    rw [hlength]
    exact hmark
  have hread : inAttributeValue last (braced e ++ rest)
      = ⟨.attrValue, (Text.past Delimiter.closeBraces (braced e ++ rest)).length, .tagOpen⟩ := rfl
  rw [hread, hpast]

/-! ### The expression of the value

The two scans are the same up to their places, so the tokens are the same moved, and so is the tree
that is read from them (`Expr.parse_moved`). -/

/-- The expression with all spans moved `d` bytes to the right, those of its tokens and its tree
included. -/
def Expression.moved (d : Nat) (x : Expression) : Expression :=
  ⟨x.tokens.map (Token.moved d), x.tree.map (Expr.moved d), x.span.moved d⟩

theorem Span.ofRun?_moved (d : Nat) (run : List Token) :
    Span.ofRun? (run.map (Token.moved d)) = (Span.ofRun? run).map (Span.moved d) := by
  unfold Span.ofRun?
  rw [List.head?_map, List.getLast?_map]
  cases run.head? with
  | none => rfl
  | some first =>
    cases run.getLast? with
    | none => rfl
    | some last => exact congrArg some (Span.cover_moved d first.span last.span).symm

/-- A run without a report has the same expression wherever it is moved to: `Expr.parse` looks at
kinds and texts only. -/
theorem Expression.ofRun?_moved {m : Move} {withTrees wanted : Bool} {run : List Token}
    {x : Expression} (hkeeps : m.Keeps run)
    (h : ofRun? ⟨m.source, withTrees⟩ run wanted = (some x, [])) :
    ofRun? ⟨m.target, withTrees⟩ (run.map (Token.moved m.distance)) wanted
      = (some (x.moved m.distance), []) := by
  have hkinds : (run.map (Token.moved m.distance)).all (·.kind.isExpression)
      = run.all (·.kind.isExpression) := by
    rw [List.all_map]
    rfl
  unfold ofRun? at h ⊢
  rw [Span.ofRun?_moved]
  -- an empty run and a refused one contradict `h`; a run that is not parsed moves as it is
  cases hspan : Span.ofRun? run with
  | none =>
    rw [hspan] at h
    cases h
  | some span =>
    rw [hspan] at h
    rw [hkinds]
    dsimp only [Option.map_some] at h ⊢
    split at h
    · rename_i hwanted
      rw [if_pos hwanted]
      cases hparse : Expr.parse m.source run with
      | error d =>
        rw [hparse] at h
        cases h
      | ok tree =>
        rw [hparse] at h
        rw [Expr.parse_moved hkeeps hparse]
        cases h
        rfl
    · rename_i hwanted
      rw [if_neg hwanted]
      cases h
      rfl

/-- The text between the braces of a value is scanned as it is alone, and to its end, so `valuesEnd`
holds of it. -/
theorem toEnd_valueScanner_braced {source : String} {t : Token} {e done : List Char}
    {us : List Token} {last : Option TokenKind} {s : Scanner} {d : Nat}
    (htext : t.text source = String.ofList (braced e))
    (hstart : t.span.start + 2 = utf8Len done + d) (hlast : last ≠ some .tagOpen)
    (hreads : Scanner.Reads (.behind done (spacedOut e) ⟨.interpolation, last⟩) us s)
    (hend : s.cursor.rest = []) :
    (valueScanner source t).toEnd.1.toList = us.map (Token.moved d) ∧
      (valueScanner source t).toEnd?.isSome = true := by
  -- the closing braces are cut off, so the scanner of the value reads `spacedOut e` alone
  have hdrop : (t.text source).toList.drop Delimiter.openBraces.length
      = spacedOut e ++ Delimiter.closeBraces := by
    rw [htext, String.toList_ofList, braced, Markup.inBraces, List.append_assoc, List.drop_left]
  have hclosed : endsWith Delimiter.closeBraces (spacedOut e ++ Delimiter.closeBraces) = true :=
    endsWith_iff.mpr (List.suffix_append ..)
  have htake : (spacedOut e ++ Delimiter.closeBraces).take
      ((spacedOut e ++ Delimiter.closeBraces).length - Delimiter.closeBraces.length)
        = spacedOut e := by
    rw [List.length_append, Nat.add_sub_cancel, List.take_left]
  have hscanner : valueScanner source t
      = ⟨⟨t.span.start + 2, none, spacedOut e⟩, .interpolation⟩ := by
    rw [valueScanner]
    simp only [hdrop, if_pos hclosed, htake]
    rfl
  -- the value and the text in braces are read side by side, at a distance of `d`
  have halong : (valueScanner source t).Along d
      (.behind done (spacedOut e) ⟨.interpolation, last⟩) := by
    rw [hscanner]
    refine ⟨hstart, rfl, ⟨rfl, fun h => ?_, fun h => absurd h hlast⟩, fun hmode => ?_⟩
    · cases h
    · cases hmode
  obtain ⟨htokens, hends⟩ := halong.toEnd
  have halone : (Scanner.behind done (spacedOut e) ⟨.interpolation, last⟩).toEnd?
      = some (us.toArray, s) :=
    Scanner.toEnd?_eq_some_iff.mpr ⟨hreads, hend⟩
  have hall : (Scanner.behind done (spacedOut e) ⟨.interpolation, last⟩).toEnd.1 = us.toArray := by
    rw [Scanner.toEnd, hreads.toEndFrom hend]
    simp
  rw [htokens, hall, hends, halone]
  exact ⟨by simp, rfl⟩

/-- So it has the tokens (`valueTokens`) that the text between its braces has alone, moved to where
that stands. -/
theorem valueTokens_braced {r : Reading} {t : Token} {us : List Token} {d : Nat}
    (h : (valueScanner r.source t).toEnd.1.toList = us.map (Token.moved d)) :
    (valueTokens r t).1 = (significant us).map (Token.moved d) := by
  show ((valueScanner r.source t).toEnd.1.toList.filter (!·.kind.isTrivia)) = _
  rw [h, significant, List.filter_map]
  rfl

/-- A value in braces (`AttributeValue.ofToken`) has the expression of the text between them, moved
to where that stands, and nothing is reported on it. -/
theorem AttributeValue.ofToken_braced {m : Move} {withTrees : Bool} {t : Token} {e done : List Char}
    {us : List Token} {last : Option TokenKind} {s : Scanner} {x : Expression}
    (htext : t.text m.target = String.ofList (braced e))
    (hstart : t.span.start + 2 = utf8Len done + m.distance) (hlast : last ≠ some .tagOpen)
    (hreads : Scanner.Reads (.behind done (spacedOut e) ⟨.interpolation, last⟩) us s)
    (hend : s.cursor.rest = []) (hkeeps : m.Keeps (significant us))
    (hnone : ∀ u ∈ significant us, u.anomaly? m.source = none)
    (hx : Expression.ofRun? ⟨m.source, withTrees⟩ (significant us) true = (some x, [])) :
    ofToken ⟨m.target, withTrees⟩ t
      = (⟨String.ofList (braced e), some (x.moved m.distance), t.span⟩, []) := by
  let r : Reading := ⟨m.target, withTrees⟩
  have htokens : (valueTokens r t).1 = (significant us).map (Token.moved m.distance) :=
    valueTokens_braced (toEnd_valueScanner_braced htext hstart hlast hreads hend).1
  have htext : r.textOf t = String.ofList (braced e) := htext
  have hanomalies : (valueTokens r t).2 = [] := by
    show (valueTokens r t).1.filterMap (·.anomaly? m.target) = []
    rw [htokens, List.filterMap_eq_nil_iff]
    intro v hv
    obtain ⟨u, hu, rfl⟩ := List.mem_map.mp hv
    -- the problem of a token is that of its text
    have hproblem := hnone u hu
    rw [Token.anomaly?, Option.map_eq_none_iff, hkeeps u hu] at hproblem
    show (lexicalProblem? u.kind ((u.moved m.distance).text m.target)).map _ = none
    rw [hproblem]
    rfl
  have hbraces : Delimiter.openBraces.isPrefixOf (String.ofList (braced e)).toList = true := by
    rw [String.toList_ofList]
    rfl
  unfold ofToken
  rw [htext]
  dsimp only
  rw [if_pos hbraces, hanomalies, htokens, Expression.ofRun?_moved hkeeps hx]
  rfl

/-! ### An element with the value -/

namespace Markup

/-- The words of an element without content, whose one attribute has the expression between braces
for its value. -/
def valuedWords (name : ContainerName) (key : MarkupName) (e : List Char) : List Word :=
  [⟨.tagOpen, ['<']⟩, ⟨.tagName, name.chars⟩, Word.blank, ⟨.attrName, key.chars⟩,
    ⟨.equals, ['=']⟩, ⟨.attrValue, braced e⟩, tagCloseWord] ++ endTagWords name.toMarkupName

theorem lexes_valuedWords (name : ContainerName) (key : MarkupName) {e : List Char}
    (h : ¬ Delimiter.closeBraces <:+: e) {last : Option TokenKind} {rest : List Char} :
    Lexes .template last (valuedWords name key e) rest .template := by
  -- the seven words before the end tag: `<`, the name, a blank, the key, `=`, the value and `>`
  refine .cons (n := .tagOpen) (by decide) (fun _ => ?_) <|
    .cons (n := .tagOpen) (Lexes.ne_nil_of_name _) (fun _ => ?_) <|
    .cons (n := .tagOpen) (by decide) (fun _ => lex_space (.inr rfl) ?_) <|
    .cons (n := .tagOpen) (Lexes.ne_nil_of_name _) (fun _ => ?_) <|
    .cons (n := .tagAttributeValue) (by decide) (fun _ => rfl) <|
    .cons (n := .tagOpen) (List.cons_ne_nil _ _) (fun _ => ?_) <|
    .cons (n := .template) (by decide) (fun _ => rfl) (Lexes.endTag name)
  · show Lexeme.inTemplate ('<' :: (name.chars ++ _ ++ rest)) = _
    rw [List.append_assoc]
    exact Lexeme.inTemplate_tagOpen name.toMarkupName _
  · refine Lexeme.inStartTag_name name.toMarkupName _ ?_
    show (some ' ').all (!isTagNamePart ·) = true
    rw [Option.all_some, Lexes.isTagNamePart_space]
    rfl
  · show ((key.chars ++ _) ++ rest).head?.any (!isBlank ·) = true
    rw [List.append_assoc]
    exact Lexes.head_name key _
  · refine Lexeme.inStartTag_name key _ ?_
    show (some '=').all (!isTagNamePart ·) = true
    rw [Option.all_some, Lexes.isTagNamePart_equals]
    rfl
  · exact Lexeme.inAttributeValue_braced h _ _

section Building

open Builder (Builds)

variable {r : Reading} {p : Nat} {e : List Char} {value : AttributeValue}

/-- An attribute with a value that nothing is wrong with takes three tokens. -/
theorem readAttribute_braced {t equals v : Token} (ts : List Token) (hequals : equals.kind = .equals)
    (hv : v.kind = .attrValue) (hvalue : AttributeValue.ofToken r v = (value, [])) :
    readAttribute r t (equals :: v :: ts)
      = ⟨⟨r.textOf t, some value, (t.span.cover equals.span).cover v.span⟩, 2, []⟩ := by
  have hhead : (v :: ts).head?.filter (·.kind == .attrValue) = some v := by
    rw [List.head?_cons, Option.filter_some, hv]
    rfl
  unfold readAttribute
  dsimp only
  rw [if_pos (by rw [hequals]; rfl), hhead]
  dsimp only
  rw [hvalue]

/-- The words add the element to whatever is open (`Builds`). -/
theorem builds_valuedWords (name : ContainerName) (key : MarkupName)
    (h : Stands r.source p (Word.text (valuedWords name key e)))
    (hvalue : let q := p + 1 + utf8Len name.chars + 1 + utf8Len key.chars + 1
      AttributeValue.ofToken r ⟨.attrValue, ⟨q, q + utf8Len (braced e)⟩⟩ = (value, []))
    (rest : List Token) (b : Builder) :
    ∃ (element : Element) (a : Attribute), element.name = String.ofList name.chars ∧
      element.attributes = [a] ∧ a.name = String.ofList key.chars ∧ a.value = some value ∧
      Builds r (Word.significantFrom p (valuedWords name key e)) rest b
        (b.push (.element element [])) := by
  let n := p + 1 + utf8Len name.chars
  let k := n + 1 + utf8Len key.chars
  let q := k + 1 + utf8Len (braced e)
  let first : Token := ⟨.tagOpen, ⟨p, p + 1⟩⟩
  let named : Token := ⟨.tagName, ⟨p + 1, n⟩⟩
  let attr : Token := ⟨.attrName, ⟨n + 1, k⟩⟩
  let equals : Token := ⟨.equals, ⟨k, k + 1⟩⟩
  let v : Token := ⟨.attrValue, ⟨k + 1, q⟩⟩
  let close : Token := ⟨.tagClose, ⟨q, q + 1⟩⟩
  have htokens : Word.significantFrom p (valuedWords name key e)
      = (first :: [named, attr, equals, v, close])
        ++ Word.significantFrom (q + 1) (endTagWords name.toMarkupName) := rfl
  have hname : r.textOf named = String.ofList name.chars := h.tail.head.text
  have hkey : r.textOf attr = String.ofList key.chars := h.tail.tail.tail.head.text
  let a : Attribute := ⟨r.textOf attr, some value, (attr.span.cover equals.span).cover v.span⟩
  -- the start tag
  let behindTag := Word.significantFrom (q + 1) (endTagWords name.toMarkupName) ++ rest
  have hbody : TagBody.readFrom r ⟨#[], none, 1, #[]⟩ ([attr, equals, v, close] ++ behindTag)
      = ⟨#[a], some .tagClose, 5, #[]⟩ := by
    have hattribute : readAttribute r attr ([equals, v, close] ++ behindTag) = ⟨a, 2, []⟩ :=
      readAttribute_braced _ rfl rfl hvalue
    show TagBody.readFrom r _ (attr :: ([equals, v, close] ++ behindTag)) = _
    rw [TagBody.readFrom]
    dsimp only
    rw [hattribute]
    exact readFrom_close (.inl rfl) _ _
  obtain ⟨element, hnamed, hattributes, -, hself, hread⟩ :=
    readStartTag_named first (show named.kind = .tagName from rfl) hbody
  have hopen : Builds r (first :: [named, attr, equals, v, close]) behindTag b
      (b.openFrame (.element element #[])) := by
    refine Builds.piece (.startTag element) (show TokenKind.tagOpen ≠ _ by decide) ?_
    rw [hself, hnamed, hname, name.notVoid] at hread
    exact hread
  -- and the end tag
  have hend : Stands r.source (q + 1) (Word.text (endTagWords name.toMarkupName)) :=
    h.tail.tail.tail.tail.tail.tail.tail
  obtain ⟨span, hclose⟩ := builds_endTag name.toMarkupName hend (hnamed.trans hname) #[] rest b
  refine ⟨{ element with endTag := some span, span := ⟨element.span.start, span.stop⟩ }, a,
    hnamed.trans hname, hattributes, hkey, rfl, ?_⟩
  rw [htokens]
  exact hopen.trans hclose

end Building

end Markup

/-! ### Files

The files are the simplest that have the value and the text: one paragraph. Both directions of
`values_like_texts` are about these two. -/

/-- An element `p` with an attribute `a` that has the expression for its value. -/
def valued (e : List Char) : List Char :=
  ['<', 'p', ' ', 'a', '='] ++ braced e ++ ['>', '<', '/', 'p', '>']

/-- The expression can stand in an attribute. In a template that has nothing but the element nothing
is reported, and the value is written as the expression is and has it for its expression. -/
def ReadsAsValue (e : List Char) (withTrees : Bool) (x : Expression) : Prop :=
  ∃ parsed p a v, Document.parse? (templateOf (valued e)) withTrees = some parsed ∧
    parsed.diagnostics = [] ∧ parsed.document.sections.flatMap Section.roots = [.element p []] ∧
    p.name = String.ofList ['p'] ∧ p.attributes = [a] ∧ a.name = String.ofList ['a'] ∧
    a.value = some v ∧ v.raw = String.ofList (braced e) ∧ v.expression = some x

/-- What stands in front of an expression in an attribute. -/
def valueFront : List Char :=
  Delimiter.templateTag ++ ['>', '<', 'p', ' ', 'a', '='] ++ Delimiter.openBraces

namespace Markup

def paragraph : ContainerName :=
  ⟨⟨['p'], rfl, List.all_eq_true.mp (by decide)⟩, by decide, by decide⟩

def keyName : MarkupName := ⟨['a'], rfl, List.all_eq_true.mp (by decide)⟩

/-- The words of the file. -/
def valuedFile (e : List Char) : List Word :=
  ⟨.templateOpen, Delimiter.templateTag ++ ['>']⟩
    :: (valuedWords paragraph keyName e ++ [⟨.templateClose, Delimiter.templateClose⟩])

theorem text_valuedFile (e : List Char) :
    String.ofList (Word.text (valuedFile e)) = templateOf (valued e) := by
  have htext : Word.text (valuedWords paragraph keyName e) = valued e := by
    simp [valuedWords, endTagWords, tagCloseWord, Word.blank, paragraph, keyName, valued]
  rw [valuedFile, Word.text_cons, Word.text_append, htext, templateOf]
  rfl

theorem lexes_valuedFile {e : List Char} (h : ¬ Delimiter.closeBraces <:+: e) :
    Lexes .initial none (valuedFile e) [] .initial :=
  .cons (n := .template) (List.cons_ne_nil _ _) (fun _ => rfl) <|
    .append (lexes_valuedWords paragraph keyName h) fun _ =>
      .singleton (List.cons_ne_nil _ _) fun _ => rfl

theorem clean_braced (e : List Char) : Word.Clean ⟨.attrValue, braced e⟩ := by
  have hopen : Delimiter.openBraces.isPrefixOf (braced e) = true := rfl
  have hclose : endsWith Delimiter.closeBraces (braced e) = true :=
    endsWith_iff.mpr (List.suffix_append ..)
  unfold Word.Clean lexicalProblem?
  rw [String.toList_ofList]
  dsimp only
  rw [if_pos hopen, if_pos hclose]

/-- The value apart, all words are plain, so nothing is wrong with a file of them (`CleanAll`). -/
theorem cleanAll_valuedFile (e : List Char) : CleanAll (valuedFile e) := by
  have hfront : WrittenAll [⟨.templateOpen, Delimiter.templateTag ++ ['>']⟩, ⟨.tagOpen, ['<']⟩,
      ⟨.tagName, paragraph.chars⟩, Word.blank, ⟨.attrName, keyName.chars⟩, ⟨.equals, ['=']⟩] :=
    .plain (.plain (.plain (.plain (.plain (.plain writtenAll_nil (by decide)) (by decide))
      (by decide)) (by decide)) (by decide)) (by decide)
  have hback : WrittenAll ([tagCloseWord] ++ endTagWords paragraph.toMarkupName
      ++ [⟨.templateClose, Delimiter.templateClose⟩]) :=
    .append (.plain (writtenAll_endTagWords _) (by decide)) (.plain writtenAll_nil (by decide))
  exact List.forall_mem_append.mpr ⟨hfront.clean, List.forall_mem_cons.mpr
    ⟨clean_braced e, hback.clean⟩⟩

/-- The value is the only one that is scanned again (`attributeValues`), so it decides whether the
file has a parse. -/
theorem attributeValues_valuedFile (e : List Char) :
    attributeValues (Word.significantFrom 0 (valuedFile e))
      = [⟨.attrValue, ⟨15, 15 + utf8Len (braced e)⟩⟩] := rfl

/-- A file whose value gives nothing to report, and is scanned to its end, has one element with this
value and is read (`parse?`) without a diagnostic. -/
theorem parse?_valued {e : List Char} {withTrees : Bool} {value : AttributeValue}
    (h : ¬ Delimiter.closeBraces <:+: e)
    (hends : AttributeValue.scanEnds (templateOf (valued e))
      ⟨.attrValue, ⟨15, 15 + utf8Len (braced e)⟩⟩ = true)
    (hvalue : AttributeValue.ofToken ⟨templateOf (valued e), withTrees⟩
      ⟨.attrValue, ⟨15, 15 + utf8Len (braced e)⟩⟩ = (value, [])) :
    ∃ parsed p a, Document.parse? (templateOf (valued e)) withTrees = some parsed ∧
      parsed.diagnostics = [] ∧ parsed.document.sections.flatMap Section.roots = [.element p []] ∧
      p.name = String.ofList ['p'] ∧ p.attributes = [a] ∧ a.name = String.ofList ['a'] ∧
      a.value = some value := by
  -- the value is the only one in the file, so its scan decides whether the file has a parse
  have hvalues : Document.valuesEnd (String.ofList (Word.text (valuedFile e)))
      (Word.significantFrom 0 (valuedFile e)) = true := by
    rw [text_valuedFile, Document.valuesEnd, attributeValues_valuedFile, List.all_cons, hends]
    rfl
  have hparse := parse?_of_lexes (lexes_valuedFile h) hvalues withTrees
  have hstands := stands_text (valuedFile e)
  have hlexical := ofTokens_of_clean (cleanAll_valuedFile e)
  rw [text_valuedFile] at hparse hstands hlexical
  let r : Reading := ⟨templateOf (valued e), withTrees⟩
  let words := valuedWords paragraph keyName e
  let opening : Token := ⟨.templateOpen, ⟨0, 10⟩⟩
  let ts := Word.significantFrom 10 words
  let q := 10 + utf8Len (Word.text words)
  let closing : Token := ⟨.templateClose, ⟨q, q + 11⟩⟩
  have htokens : Word.significantFrom 0 (valuedFile e) = opening :: (ts ++ [closing]) := by
    rw [valuedFile, Word.significantFrom_cons _ _ (by decide), Word.significantFrom_append]
    rfl
  have hopening : endsWith ['>'] (r.textOf opening).toList = true := by
    have htext : r.textOf opening = String.ofList (Delimiter.templateTag ++ ['>']) :=
      hstands.head.text
    rw [htext, String.toList_ofList]
    rfl
  -- between the two template tags stands nothing but the element
  have hinner : Stands r.source 10 (Word.text words) := by
    have hbehind := hstands.tail
    rw [Word.text_append] at hbehind
    exact hbehind.left
  let notes := Notes.empty.log (.enterSection .template opening.span.start)
  obtain ⟨p, a, hname, hattributes, hkey, hvalue, hbuilds⟩ :=
    builds_valuedWords (r := r) paragraph keyName hinner hvalue [closing] ⟨.empty, notes⟩
  rw [htokens] at hparse hlexical
  have hbuilt : Builder.Builds r ts [closing] ⟨.empty, notes⟩
      ((⟨.empty, notes⟩ : Builder).pushAll [.element p []]) := hbuilds
  obtain ⟨t, hsections, hclean, -, hchildren⟩ :=
    ofTokens_template rfl rfl hopening rfl hlexical hbuilt
  refine ⟨_, p, a, hparse, hclean, ?_, hname, hattributes, hkey, hvalue⟩
  rw [hsections, List.flatMap_singleton]
  exact hchildren

end Markup

/-- An expression as text (`ReadsAsText`) can stand in an attribute as well, unless closing braces
stand in it. -/
theorem ReadsAsText.readsAsValue {e : List Char} {withTrees : Bool} {i : Interpolation}
    (h : ReadsAsText e withTrees i) (hfits : ¬ Delimiter.closeBraces <:+: e) :
    ∃ x, i.expression = some x ∧ ReadsAsValue e withTrees (x.moved 5) := by
  obtain ⟨us, head, x, hreads, hnone, hexpression, hx⟩ := h.exists_run
  let m : Move := ⟨templateOf (braced e), templateOf (valued e), 5⟩
  have hsource : m.source.toList = textFront ++ spacedOut e
      ++ (Delimiter.closeBraces ++ Delimiter.templateClose) := by
    rw [toList_templateOf]
    simp [braced, Markup.inBraces, textFront]
  have htarget : m.target.toList = valueFront ++ spacedOut e
      ++ (Delimiter.closeBraces ++ (['>', '<', '/', 'p', '>'] ++ Delimiter.templateClose)) := by
    rw [toList_templateOf]
    simp [braced, valued, Markup.inBraces, valueFront]
  have hfront : utf8Len valueFront = utf8Len textFront + 5 := by decide
  have hkeeps : m.Keeps (significant us) := fun u hu =>
    hreads.text_moved hsource htarget hfront u (List.mem_of_mem_filter hu)
  -- the value as a token
  let t : Token := ⟨.attrValue, ⟨15, 15 + utf8Len (braced e)⟩⟩
  have htext : t.text m.target = String.ofList (braced e) := by
    refine Span.text_of_split (Delimiter.templateTag ++ ['>', '<', 'p', ' ', 'a', '='])
      (braced e) (['>', '<', '/', 'p', '>'] ++ Delimiter.templateClose) ?_
    rw [toList_templateOf]
    simp [valued]
  have hvalue := AttributeValue.ofToken_braced (t := t) htext rfl (by decide) hreads rfl hkeeps hnone hx
  have hends : AttributeValue.scanEnds m.target t = true := by
    rw [AttributeValue.scanEnds,
      (toEnd_valueScanner_braced (d := m.distance) htext rfl (by decide) hreads rfl).2, Bool.or_true]
  obtain ⟨parsed, p, a, hparsed, hclean, hroots, hname, hattributes, hkey, ha⟩ :=
    Markup.parse?_valued hfits hends hvalue
  exact ⟨x, hexpression, parsed, p, a, _, hparsed, hclean, hroots, hname, hattributes, hkey, ha, rfl,
    rfl⟩

/-- What an `.attrValue` token of a file has for its value ends with the first closing braces. -/
theorem Token.closeBraces_not_infix {r : Reading} {t : Token} {e : List Char}
    (ht : t ∈ significantTokens r.source) (hkind : t.kind = .attrValue)
    (htext : r.textOf t = String.ofList (braced e)) : ¬ Delimiter.closeBraces <:+: e := by
  have hchars : (r.textOf t).toList = braced e := by rw [htext, String.toList_ofList]
  have hbraces : Delimiter.openBraces.isPrefixOf (r.textOf t).toList = true := by
    rw [hchars]
    rfl
  obtain ⟨done, inner, beyond, hinner⟩ := exists_inner (fits_significantTokens _ t ht) hbraces
  have hspaced : inner = spacedOut e := by
    obtain ⟨back, htext, hback⟩ := hinner.text
    rw [hchars, braced, Markup.inBraces, List.append_assoc, List.append_assoc,
      List.append_cancel_left_eq] at htext
    rcases hback with rfl | ⟨rfl, hopen⟩
    · exact (List.append_cancel_right htext).symm
    · -- the braces at the end are no part of what stands between them
      rw [List.append_nil] at htext
      exact absurd (endsWith_iff.mpr (htext ▸ List.suffix_append ..)) hopen
  intro hin
  refine hinner.closeBraces_not_mem_value ht hkind ?_
  rw [hspaced]
  exact hin.trans ⟨[' '], [' '], rfl⟩

/-- So an expression in an attribute has no closing braces in it. -/
theorem ReadsAsValue.closeBraces_not_infix {e : List Char} {withTrees : Bool} {x : Expression}
    (h : ReadsAsValue e withTrees x) : ¬ Delimiter.closeBraces <:+: e := by
  obtain ⟨parsed, p, a, v, hparsed, -, hroots, -, hattributes, -, ha, hraw, -⟩ := h
  let r : Reading := ⟨templateOf (valued e), withTrees⟩
  obtain ⟨-, rfl⟩ := Document.eq_of_parse? hparsed
  obtain ⟨all, notes, hfiled, -⟩ := Document.ofTokens_filed r
  -- the element is a node of the file, and its value is that of a token
  have hnode : Node.element p [] ∈
      (Document.ofTokens r (significantTokens r.source)).document.allNodes := by
    rw [Document.allNodes, ← subtreeAll_flatMap_roots, hroots, Node.subtreeAll_singleton,
      Node.subtree_eq]
    exact List.mem_cons_self ..
  have hvalue : v ∈ (Node.element p []).attributeValues := by
    rw [Node.attributeValues, hattributes]
    simp [ha]
  obtain ⟨t, ht, hkind, htext⟩ := ((hfiled.nodes _ hnode).values v hvalue).copied
  exact Token.closeBraces_not_infix ht hkind (htext.symm.trans hraw)

/-- **Expressions mean the same as text and in attributes, as long as closing braces are none of
their text.** Let an expression be read (`ReadsAsText`) without a report as the one interpolation of
a template. In an attribute it is read without a report too, with the same tokens and the same tree
in another place, exactly if closing braces do not stand in it, be it in a string. -/
theorem values_like_texts (e : List Char) (withTrees : Bool) (i : Interpolation)
    (h : ReadsAsText e withTrees i) :
    ∃ x, i.expression = some x ∧
      (ReadsAsValue e withTrees (x.moved 5) ↔ ¬ Delimiter.closeBraces <:+: e) := by
  obtain ⟨us, head, x, -, -, hexpression, -⟩ := h.exists_run
  refine ⟨x, hexpression, ReadsAsValue.closeBraces_not_infix, fun hfits => ?_⟩
  obtain ⟨y, hy, hvalue⟩ := h.readsAsValue hfits
  obtain rfl : x = y := Option.some.inj (hexpression.symm.trans hy)
  exact hvalue

/-- A string with closing braces in it is read as text, but not in an attribute. -/
theorem values_like_texts_string :
    let e : List Char := ['"', '\x7d', '\x7d', '"']
    ∃ i, ReadsAsText e true i ∧
      ∃ x, i.expression = some x ∧ x.tree.isSome = true ∧ ¬ ReadsAsValue e true (x.moved 5) := by
  intro e
  have hclean : (Document.parse? (templateOf (braced e)) true).map (·.diagnostics) = some [] := by
    decide +kernel
  -- as a text, the braces inside the string do not end the interpolation
  have hroots : (Document.parse? (templateOf (braced e)) true).map (fun parsed =>
      (parsed.document.sections.flatMap Section.roots).map fun n =>
        n.interpolation?.map fun i => (i.raw, i.span, i.expression.any (·.tree.isSome)))
          = some [some (false, ⟨10, 10 + utf8Len (braced e)⟩, true)] := by
    decide +kernel
  obtain ⟨parsed, hparsed, hclean⟩ := Option.map_eq_some_iff.mp hclean
  rw [hparsed, Option.map_some] at hroots
  obtain ⟨n, hn, hnode⟩ := List.map_eq_singleton_iff.mp (Option.some.inj hroots)
  obtain ⟨i, hi, hread⟩ := Option.map_eq_some_iff.mp hnode
  obtain rfl := Node.eq_interpolation hi
  rw [Prod.mk.injEq, Prod.mk.injEq] at hread
  obtain ⟨hraw, hspan, htree⟩ := hread
  have hreads : ReadsAsText e true i := ⟨parsed, hparsed, hclean, hn, hraw, hspan⟩
  obtain ⟨x, hx, hvalue⟩ := values_like_texts e true i hreads
  rw [hx] at htree
  exact ⟨i, hreads, x, hx, htree, fun h => hvalue.mp h ⟨['"'], ['"'], rfl⟩⟩

end RsxInspect
