import RsxInspect.Proofs.Expr.Taken
import RsxInspect.Proofs.Markup.PhraseScan
import RsxInspect.Proofs.Scan.Spacing
import RsxInspect.Proofs.Text.Items
import RsxInspect.Proofs.Text.Quoted

/-!
# Literals of any text

Any text can be written as a literal. `Quoted.Spells` says how: backslashes and quotes have a
backslash in front, and some characters may be written with a letter in their place. Three readers
then have to agree on where such a literal ends and what it says. The scanner goes through it from
the front, `Quoted.terminated` counts the backslashes at its end, and `Quoted.value` replaces its
escapes. `string_literal_read_back` puts them together: the literal is one token, it is closed, and
the expression that it makes up is the text.
-/

namespace RsxInspect

open String (utf8Len)
open FrontMatter (Literal)

namespace Quoted

/-! ### Writing a text down

`Spells` is about the characters between the quotes, where a backslash hides one character or stands
for a line break or a tab. That the scan ends at the right quote (`Spells.body_eq`) and that the
text comes back (`Spells.unescape`) are two inductions over the same derivation. -/

/-- A way to write a character between two quotes: as it is, behind a backslash, or with the letter
of its escape. -/
inductive Writes (quote : Char) : Char → List Char → Prop where
  | backslash : Writes quote '\\' ['\\', '\\']
  | quote : Writes quote quote ['\\', quote]
  | lineFeed : Writes quote '\n' ['\\', 'n']
  | tab : Writes quote '\t' ['\\', 't']
  | carriageReturn : Writes quote '\r' ['\\', 'r']
  | null : Writes quote '\x00' ['\\', '0']
  | itself {c : Char} (hquote : c ≠ quote) (hbackslash : c ≠ '\\') : Writes quote c [c]

/-- A way to write a text between two quotes, character by character (`Writes`). -/
inductive Spells (quote : Char) : List Char → List Char → Prop where
  | nil : Spells quote [] []
  | cons {c : Char} {cs w ws : List Char} (here : Writes quote c w) (more : Spells quote cs ws) :
      Spells quote (c :: cs) (w ++ ws)

section

variable {quote c : Char} {cs w ws : List Char}

/-- A character that is written down (`Writes`) never closes a `Literal`: its last character is no
quote, or has a backslash in front. -/
theorem Writes.literal (h : Writes quote c w) (hrest : Literal quote cs) :
    Literal quote (w ++ cs) := by
  cases h with
  | itself hquote hbackslash => exact .char hquote hbackslash hrest
  | _ => exact .escape _ hrest

/-- The first quote that is not protected is the one behind the text, as `Literal` counts it. -/
theorem Spells.literal (h : Spells quote cs ws) : Literal quote (ws ++ [quote]) := by
  induction h with
  | nil => exact .close
  | cons here _ ih =>
    rw [List.append_assoc]
    exact here.literal ih

/-- Quotes stand for themselves behind a backslash, as the backslash does, so `unescapeOnto` gives
the character back. -/
theorem Writes.unescapeOnto (hquote : isQuote quote = true) (h : Writes quote c w)
    (out rest : List Char) : unescapeOnto out (w ++ rest) = unescapeOnto (c :: out) rest := by
  cases h with
  | quote =>
    have hescaped : escaped quote = quote := by
      simp only [isQuote, Bool.or_eq_true, beq_iff_eq] at hquote
      rcases hquote with rfl | rfl <;> rfl
    simp [Quoted.unescapeOnto, hescaped]
  | itself _ hbackslash => simp [Quoted.unescapeOnto, hbackslash]
  | _ => simp [Quoted.unescapeOnto, escaped]

theorem Spells.unescapeOnto (hquote : isQuote quote = true) (h : Spells quote cs ws)
    (out : List Char) : Quoted.unescapeOnto out ws = cs.reverse ++ out := by
  induction h generalizing out with
  | nil => rfl
  | cons here _ ih =>
    rw [here.unescapeOnto hquote, ih, List.reverse_cons, List.append_assoc]
    rfl

/-- Escapes are replaced by what was written with them: `Quoted.unescape` undoes `Spells`. -/
theorem Spells.unescape (hquote : isQuote quote = true) (h : Spells quote cs ws) :
    Quoted.unescape ws = cs := by
  rw [Quoted.unescape, h.unescapeOnto hquote, List.append_nil, List.reverse_reverse]

theorem ne_backslash_of_isQuote (hquote : isQuote quote = true) : quote ≠ '\\' := by
  rintro rfl
  cases hquote

/-- The scan of the literal, `body`, stops at its last character and finds it closed. -/
theorem Spells.body_eq (hquote : isQuote quote = true) (h : Spells quote cs ws) :
    body true quote (ws ++ [quote]) = ⟨(ws ++ [quote]).length, true⟩ :=
  h.literal.body_eq (ne_backslash_of_isQuote hquote)

/-- An even number of backslashes stands in front of the closing quote, which is how
`Quoted.terminated` tells that it is not protected. -/
theorem Spells.terminated (hquote : isQuote quote = true) (h : Spells quote cs ws) :
    Quoted.terminated true (quote :: (ws ++ [quote])) = true :=
  terminated_of_body (h.body_eq hquote)

/-- A literal stands for the text that it was written for (`Quoted.value`). -/
theorem Spells.value (hquote : isQuote quote = true) (h : Spells quote cs ws) :
    Quoted.value (quote :: (ws ++ [quote])) = cs := by
  have hclosed := h.terminated hquote
  rw [Quoted.terminated, Bool.not_true, Bool.false_or] at hclosed
  rw [Quoted.value, if_pos hclosed, List.dropLast_concat, h.unescape hquote]

end

end Quoted

/-! ### Reading a text back -/

/-- A window (`Cursor.ofRange`) that starts at a place of the source and takes in the characters
`cs` there, maybe with some more behind them. -/
theorem Cursor.ofRange_of_le {source : String} {done cs rest : List Char}
    (h : source.toList = done ++ (cs ++ rest)) {stop : Nat} (hstop : utf8Len (done ++ cs) ≤ stop) :
    ∃ seen, ofRange source (utf8Len done) stop = behind done (cs ++ seen) := by
  -- both ends of `cs` are boundaries, so the window starts at the first and reaches at least to the
  -- second
  obtain ⟨done', rest', beyond, hsource, hrange, hstart, hend⟩ :=
    ofRange_eq_behind source (utf8Len done) stop
  have hwindow : utf8Len (done ++ cs) ≤ windowEnd source stop := by
    rw [windowEnd_eq]
    apply le_floorBoundary _ hstop
    have hsplit : source.toList = (done ++ cs) ++ rest := by rw [h, List.append_assoc]
    exact isBoundary_of_split hsplit
  have hle : utf8Len done ≤ windowEnd source stop := by
    rw [String.utf8Len_append] at hwindow
    omega
  have hstart' : utf8Len done' = utf8Len done := by
    rw [hstart, windowStart, Nat.min_eq_left hle]
    exact (eq_floorBoundary (isBoundary_of_split h) (Nat.le_refl _) fun _ _ hk => hk).symm
  have hsplit : done' ++ (rest' ++ beyond) = done ++ (cs ++ rest) := by
    rw [← h, hsource, List.append_assoc]
  obtain ⟨rfl, hahead⟩ := eq_of_utf8Len_eq hsplit hstart'
  have hroom : utf8Len cs ≤ utf8Len rest' := by
    rw [String.utf8Len_append] at hwindow
    omega
  -- a window that held less than `cs` would not reach that far
  rcases List.append_eq_append_iff.mp hahead with ⟨more, hcs, -⟩ | ⟨seen, hseen, -⟩
  · have hmore : more = [] := by
      by_contra hne
      have hpos := utf8Len_pos hne
      rw [hcs, String.utf8Len_append] at hroom
      omega
    exact ⟨[], by rw [hrange, hcs, hmore, List.append_nil, List.append_nil]⟩
  · exact ⟨seen, by rw [hrange, hseen]⟩

/-- **Literals of any text.** Wherever a text stands between quotes in an expression, with the
backslashes and quotes in it protected (`Quoted.Spells`), the scan reads all of it as one token, the
token is closed, and the expression that it makes up is the text. -/
theorem string_literal_read_back {s source : String} {quote : Char} {w before after : List Char}
    (hquote : quote = '"' ∨ quote = '\'') (hspells : Quoted.Spells quote s.toList w)
    (hsource : source.toList = before ++ (quote :: (w ++ [quote]) ++ after)) {stop : Nat}
    (hstop : utf8Len (before ++ quote :: (w ++ [quote])) ≤ stop) (last : Option TokenKind) :
    let scanner := Scanner.ofRange source (utf8Len before) stop ⟨.interpolation, last⟩
    let t := scanner.next.1
    t = ⟨.string, ⟨utf8Len before, utf8Len (before ++ quote :: (w ++ [quote]))⟩⟩ ∧
      (t.text source).toList = quote :: (w ++ [quote]) ∧
      scanner.next.2.offset = t.span.stop ∧ scanner.next.2.state = ⟨.interpolation, some .string⟩ ∧
      Quoted.terminated true (quote :: (w ++ [quote])) = true ∧
      Expr.parse source [t] = .ok (.string s t.span) := by
  intro scanner t
  have hisQuote : isQuote quote = true := by
    rcases hquote with rfl | rfl <;> rfl
  obtain ⟨seen, hrange⟩ := Cursor.ofRange_of_le hsource hstop
  have hscanner : scanner
      = .behind before (quote :: (w ++ [quote]) ++ seen) ⟨.interpolation, last⟩ := by
    show Scanner.mk (Cursor.ofRange source (utf8Len before) stop) _ = _
    rw [hrange]
    rfl
  -- the scan goes through the literal from the front
  have hlex : Lexeme.inExpression (quote :: (w ++ [quote]) ++ seen)
      = ⟨.string, (quote :: (w ++ [quote])).length, .interpolation⟩ :=
    Lexeme.inExpression_string hisQuote (hspells.body_eq hisQuote)
  have hnext : scanner.next = (⟨.string, ⟨utf8Len before, utf8Len (before ++ quote :: (w ++ [quote]))⟩⟩,
      .behind (before ++ quote :: (w ++ [quote])) seen ⟨.interpolation, some .string⟩) := by
    have hread : lex ⟨.interpolation, last⟩ before.getLast? (quote :: (w ++ [quote]) ++ seen)
        = ⟨.string, (quote :: (w ++ [quote])).length, .interpolation⟩ := hlex
    rw [hscanner, Scanner.next_behind (by simp), hread]
    simp only [List.take_left, List.drop_left]
    rfl
  have ht : t = ⟨.string, ⟨utf8Len before, utf8Len (before ++ quote :: (w ++ [quote]))⟩⟩ :=
    congrArg Prod.fst hnext
  have htext : t.text source = String.ofList (quote :: (w ++ [quote])) := by
    rw [ht, String.utf8Len_append]
    apply Span.text_of_split before _ after
    rw [hsource, List.append_assoc]
  have htoList : (t.text source).toList = quote :: (w ++ [quote]) := by
    rw [htext, String.toList_ofList]
  have hparse := Expr.parse_string (s := source) (t := t) (by rw [ht])
  rw [htoList, hspells.value hisQuote, String.ofList_toList] at hparse
  refine ⟨ht, htoList, ?_, ?_, hspells.terminated hisQuote, hparse⟩
  · rw [hnext, ht]
    rfl
  · rw [hnext]
    rfl

/-- A text that ends with a backslash, in front of one more quote. -/
theorem string_literal_read_back_backslash :
    let source := String.ofList "(\"\\\"\\n\\\\\"\")".toList
    let scanner := Scanner.ofRange source 1 11 ⟨.interpolation, none⟩
    let t := scanner.next.1
    t = ⟨.string, ⟨1, 9⟩⟩ ∧ scanner.next.2.offset = 9 ∧
      Expr.parse source [t] = .ok (.string (String.ofList ['"', '\n', '\\']) t.span) := by
  intro source scanner t
  have hspells : Quoted.Spells '"' (String.ofList ['"', '\n', '\\']).toList
      ['\\', '"', '\\', 'n', '\\', '\\'] := by
    rw [String.toList_ofList]
    exact .cons .quote (.cons .lineFeed (.cons .backslash .nil))
  let literal : List Char := ['"', '\\', '"', '\\', 'n', '\\', '\\', '"']
  have hsource : source.toList = ['('] ++ (literal ++ ['"', ')']) := by decide +kernel
  have hstop : utf8Len (['('] ++ literal) ≤ 11 := by decide
  obtain ⟨ht, -, hbehind, -, -, hparse⟩ :=
    string_literal_read_back (.inl rfl) hspells hsource hstop none
  exact ⟨ht, hbehind.trans (congrArg (·.span.stop) ht), hparse⟩

end RsxInspect
