import RsxInspect.Proofs.Lexeme.Window
import RsxInspect.Proofs.Text.Append

/-!
# Lexemes with more text behind

Which lexeme stands ahead of some characters when more text follows them. Inside of a section that
is closed by the characters, and between sections in front of one that is, every rule of `lex` has
decided before the characters end: its marks fit into the closing mark ahead (`EndsClosed`,
`Enclosed`), and its searches have ended. So what follows changes nothing (`lex_append`).

There is one lemma `…_append` for each rule, put together from those on conditions and marks
(`ite_append`, `mark_append`) and on runs (`runUntil_append`).
-/

namespace RsxInspect

/-! ### The closing mark at the end -/

/-- The last of the characters is that of a closing mark, `>` or `-`, so no name, number or blank
run reaches the end. -/
def EndsClosed (cs : List Char) : Prop := cs.getLast? = some '>' ∨ cs.getLast? = some '-'

namespace EndsClosed

variable {cs : List Char}

theorem ne_nil (h : EndsClosed cs) : cs ≠ [] := by
  rintro rfl
  rcases h with h | h <;> cases h

theorem drop {n : Nat} (h : EndsClosed cs) (hn : n < cs.length) : EndsClosed (cs.drop n) := by
  unfold EndsClosed
  rw [List.getLast?_drop, if_neg (by omega)]
  exact h

theorem of_drop {n : Nat} (h : EndsClosed (cs.drop n)) : EndsClosed cs := by
  have hne := List.drop_eq_nil_iff.not.mp h.ne_nil
  unfold EndsClosed at h
  rw [List.getLast?_drop, if_neg hne] at h
  exact h

/-- A word without a `>` and a `-`, one of which the characters end with (`EndsClosed`), does not go
on behind the characters: it is not the end of them that it lacks. -/
theorem not_prefix {word : List Char} (h : EndsClosed cs) (hgt : '>' ∉ word) (hdash : '-' ∉ word) :
    ¬ cs <+: word := by
  intro hleads
  rcases h with h | h
  · exact hgt (hleads.subset (List.mem_of_getLast? h))
  · exact hdash (hleads.subset (List.mem_of_getLast? h))

/-- The blanks ahead end before the characters do (`EndsClosed`). -/
theorem blanks_lt (h : EndsClosed cs) : Text.blanks cs < cs.length := by
  refine Nat.lt_of_le_of_ne (Text.countWhile_le isBlank cs) fun hall => ?_
  have hblank : ∀ c ∈ cs, isBlank c = true := by
    intro c hc
    rw [← (List.takeWhile_prefix isBlank).eq_of_length hall] at hc
    exact List.mem_takeWhile_imp hc
  rcases h with h | h
  · exact absurd (hblank _ (List.mem_of_getLast? h)) (by decide)
  · exact absurd (hblank _ (List.mem_of_getLast? h)) (by decide)

theorem blanks_append (h : EndsClosed cs) (more : List Char) :
    Text.blanks (cs ++ more) = Text.blanks cs :=
  Text.countWhile_append_of_lt more h.blanks_lt

end EndsClosed

namespace Lexeme

variable {cs : List Char} {x y : Lexeme} {n : Nat}

/-! ### Rules that look for a mark

A rule that asks for a mark decides alike with more text behind, if the mark fits into what is
there; otherwise the closing mark at the end would have to be a part of it. -/

/-- A rule whose condition what follows leaves as it is, with `n` more characters behind the
lexeme. -/
theorem ite_append {c : Prop} [Decidable c] {here here' : Lexeme}
    (hroom : (if c then here else x).length + n ≤ cs.length)
    (hhere : c → here.length + n ≤ cs.length → here' = here)
    (helse : ¬ c → x.length + n ≤ cs.length → y = x) :
    (if c then here' else y) = if c then here else x := by
  split
  · rename_i h
    rw [if_pos h] at hroom
    exact hhere h hroom
  · rename_i h
    rw [if_neg h] at hroom
    exact helse h hroom

/-- A rule for a mark that is no longer than the characters: both its branches leave `n` characters
behind what they take, so both see the same with more text behind. -/
theorem mark_append {mark : List Char} {here here' : Lexeme} (more : List Char)
    (hmark : mark.length ≤ cs.length)
    (hroom : (if mark.isPrefixOf cs then here else x).length + n ≤ cs.length)
    (hhere : here.length + n ≤ cs.length → here' = here)
    (helse : ¬ mark.isPrefixOf cs = true → x.length + n ≤ cs.length → y = x) :
    (if mark.isPrefixOf (cs ++ more) then here' else y)
      = if mark.isPrefixOf cs then here else x := by
  rw [isPrefixOf_append more hmark]
  exact ite_append hroom (fun _ => hhere) helse

theorem blanksOr_append {mode : Mode} (more : List Char) (hends : EndsClosed cs)
    (hroom : (blanksOr mode cs x).length + n ≤ cs.length)
    (helse : ¬ Text.blanks cs > 0 → x.length + n ≤ cs.length → y = x) :
    blanksOr mode (cs ++ more) y = blanksOr mode cs x := by
  unfold blanksOr at hroom ⊢
  rw [hends.blanks_append more]
  exact ite_append hroom (fun _ _ => rfl) helse

/-! ### Sections -/

theorem sectionOr_append {tag : List Char} {kind : TokenKind} {mode : Mode} (more : List Char)
    (htag : ¬ cs <+: tag)
    (hroom : (if SectionTag.opensWith tag cs then sectionOpen tag kind mode cs else x).length + 1
      ≤ cs.length)
    (helse : x.length + 1 ≤ cs.length → y = x) :
    (if SectionTag.opensWith tag (cs ++ more) then sectionOpen tag kind mode (cs ++ more) else y)
      = if SectionTag.opensWith tag cs then sectionOpen tag kind mode cs else x := by
  rw [SectionTag.opensWith_append more htag]
  refine ite_append hroom (fun _ hroom => ?_) fun _ => helse
  have hroom : tag.length + (SectionTag.tagRest (cs.drop tag.length)).length + 1 ≤ cs.length :=
    hroom
  unfold sectionOpen
  rw [List.drop_append_of_le_length (by omega),
    SectionTag.tagRest_append more (by rw [List.length_drop]; omega)]

theorem betweenSections_append (more : List Char) (hends : EndsClosed cs)
    (hlong : Delimiter.fence.length ≤ cs.length)
    (hroom : (betweenSections cs).length + 1 ≤ cs.length) :
    betweenSections (cs ++ more) = betweenSections cs := by
  unfold betweenSections at hroom ⊢
  refine mark_append more hlong hroom (fun _ => rfl) fun _ hroom => ?_
  refine sectionOr_append more (hends.not_prefix (by decide) (by decide)) hroom fun hroom => ?_
  refine sectionOr_append more (hends.not_prefix (by decide) (by decide)) hroom fun hroom => ?_
  refine sectionOr_append more (hends.not_prefix (by decide) (by decide)) hroom fun hroom => ?_
  exact blanksOr_append more hends hroom fun _ _ => rfl

/-! ### Code -/

theorem inFrontMatter_append {before : Option Char} (more : List Char)
    (h : ¬ Delimiter.fence.isPrefixOf cs = true → (inFrontMatter before cs).length < cs.length) :
    inFrontMatter before (cs ++ more) = inFrontMatter before cs := by
  unfold inFrontMatter at h ⊢
  by_cases hfence : Delimiter.fence.isPrefixOf cs = true
  · have hlong := (List.isPrefixOf_iff_prefix.mp hfence).length_le
    rw [isPrefixOf_append more hlong, if_pos hfence, if_pos hfence]
  · have hcode := h hfence
    rw [if_neg hfence] at hcode
    -- the fence behind the code shows that none stands ahead
    have hlong : Delimiter.fence.length ≤ cs.length := by
      have := FrontMatter.codeLength_room hcode
      show 3 ≤ cs.length
      omega
    rw [isPrefixOf_append more hlong, if_neg hfence, if_neg hfence,
      FrontMatter.codeLength_append more hcode]

theorem inCode_append {close : List Char} {closeKind code : TokenKind} {mode : Mode}
    (more : List Char) (hclose : close ≠ [])
    (h : ¬ close.isPrefixOf cs = true → (inCode close closeKind code mode cs).length < cs.length) :
    inCode close closeKind code mode (cs ++ more) = inCode close closeKind code mode cs := by
  unfold inCode at h ⊢
  by_cases hleads : close.isPrefixOf cs = true
  · have hlong := (List.isPrefixOf_iff_prefix.mp hleads).length_le
    rw [isPrefixOf_append more hlong, if_pos hleads, if_pos hleads]
  · have hcode := h hleads
    rw [if_neg hleads] at hcode
    have hlong := Text.upTo_room hclose hcode
    rw [isPrefixOf_append more (by omega), if_neg hleads, if_neg hleads,
      Text.upTo_append more hclose hcode]

/-! ### Inside a template

Each rule is one of those above, or takes a run of characters up to a mark. A run ends in front of
the closing tag at the latest, so more text behind does not make it longer. -/

/-- The characters hold the closing tag of the template behind the lexeme `x`, or start with it. -/
structure Enclosed (cs : List Char) (x : Lexeme) : Prop where
  long : Delimiter.templateClose.length ≤ cs.length
  ends : EndsClosed cs
  room : ¬ Delimiter.templateClose.isPrefixOf cs = true → x.length + 11 ≤ cs.length

/-- A rule of a template behind its closing tag and blanks (`templateCloseOr`, `blanksOr`), which
are tried first. -/
theorem templateRule_append {mode : Mode} (more : List Char)
    (h : Enclosed cs (templateCloseOr cs (blanksOr mode cs x)))
    (helse : ¬ Delimiter.templateClose.isPrefixOf cs = true → ¬ Text.blanks cs > 0 →
      x.length + 11 ≤ cs.length → y = x) :
    templateCloseOr (cs ++ more) (blanksOr mode (cs ++ more) y)
      = templateCloseOr cs (blanksOr mode cs x) := by
  obtain ⟨hlong, hends, hroom⟩ := h
  unfold templateCloseOr at hroom ⊢
  rw [isPrefixOf_append more hlong]
  split
  · rfl
  · rename_i hclose
    have hroom := hroom hclose
    rw [if_neg hclose] at hroom
    exact blanksOr_append more hends hroom (helse hclose)

/-- The run (`runUntil`) ends inside of the characters, at a character or at a mark, so more of them
do not make it longer. -/
theorem runUntil_append {p : Char → Bool} {mark : List Char} (more : List Char)
    (hmark : mark.length ≤ 2) (h : runUntil p mark cs < cs.length) :
    runUntil p mark (cs ++ more) = runUntil p mark cs := by
  induction cs with
  | nil => exact absurd h (Nat.not_lt_zero _)
  | cons c cs ih =>
    rw [runUntil] at h
    rw [List.cons_append, runUntil, runUntil]
    cases cs with
    | nil =>
      -- the run is not empty only where it goes on to the end
      have hstop : (p c || mark.isPrefixOf [c]) = true := by
        by_contra hgo
        rw [if_neg hgo] at h
        simp [runUntil] at h
      have hstop' : (p c || mark.isPrefixOf (c :: ([] ++ more))) = true := by
        rw [Bool.or_eq_true] at hstop ⊢
        refine hstop.imp_right fun hleads => ?_
        exact List.isPrefixOf_iff_prefix.mpr
          ((List.isPrefixOf_iff_prefix.mp hleads).trans (List.prefix_append [c] more))
      rw [if_pos hstop, if_pos hstop']
    | cons d cs =>
      have hfits : mark.length ≤ (c :: d :: cs).length := by
        rw [List.length_cons, List.length_cons]
        omega
      have hsame : mark.isPrefixOf (c :: (d :: cs ++ more)) = mark.isPrefixOf (c :: d :: cs) :=
        isPrefixOf_append more hfits
      rw [hsame]
      split
      · rfl
      · rename_i hgo
        rw [if_neg hgo, List.length_cons] at h
        rw [ih (by omega)]

theorem inTemplate_append (more : List Char) (h : Enclosed cs (inTemplate cs)) :
    inTemplate (cs ++ more) = inTemplate cs := by
  obtain ⟨hfits, hends, hroom⟩ := h
  have hlong : 11 ≤ cs.length := hfits
  unfold inTemplate templateCloseOr at hroom ⊢
  rw [isPrefixOf_append more hfits]
  split
  · rfl
  · rename_i hclose
    have hroom := hroom hclose
    rw [if_neg hclose] at hroom
    refine mark_append more (Nat.le_trans (by decide) hlong) hroom (fun hroom => ?_) fun _ hroom => ?_
    · have hroom : 4 + (Text.past Delimiter.commentClose (cs.drop 4)).length + 11 ≤ cs.length := hroom
      rw [List.drop_append_of_le_length (by omega),
        Text.past_append more (by decide) (by rw [List.length_drop]; omega)]
    refine mark_append more (Nat.le_trans (by decide) hlong) hroom (fun _ => rfl) fun _ hroom => ?_
    refine mark_append more (Nat.le_trans (by decide) hlong) hroom (fun _ => rfl) fun _ hroom => ?_
    refine mark_append more (Nat.le_trans (by decide) hlong) hroom (fun _ => ?_) fun _ hroom => ?_
    · -- the character behind the braces is one of the characters
      unfold modeInBraces
      rw [head?_drop_append more (by omega)]
    refine blanksOr_append more hends hroom fun _ hroom => ?_
    have hroom : textFrom 0 cs + 11 ≤ cs.length := hroom
    rw [textFrom_eq_runUntil] at hroom
    rw [textFrom_eq_runUntil, textFrom_eq_runUntil, runUntil_append more (by decide) (by omega)]

theorem inStartTag_append {last : Option TokenKind} (more : List Char)
    (h : Enclosed cs (inStartTag last cs)) :
    inStartTag last (cs ++ more) = inStartTag last cs := by
  have hlong : 11 ≤ cs.length := h.long
  refine templateRule_append more h fun _ _ hroom => ?_
  refine mark_append more (Nat.le_trans (by decide) hlong) hroom (fun _ => rfl) fun _ hroom => ?_
  cases cs with
  | nil => exact absurd hlong (by decide)
  | cons c cs =>
    simp only [List.cons_append] at hroom ⊢
    refine ite_append hroom (fun _ _ => rfl) fun _ hroom => ?_
    refine ite_append hroom (fun _ _ => rfl) fun _ hroom => ?_
    rw [← List.cons_append]
    refine ite_append hroom (fun _ hroom => ?_) fun _ hroom => ?_
    · have hroom : (Quoted.extent false (c :: cs)).length + 11 ≤ (c :: cs).length := hroom
      rw [Quoted.extent_append more (by omega)]
    · refine ite_append hroom (fun _ hroom => ?_) fun _ _ => rfl
      have hroom : Text.countWhile isTagNamePart (c :: cs) + 11 ≤ (c :: cs).length := hroom
      rw [Text.countWhile_append_of_lt more (by omega)]

theorem inEndTag_append (more : List Char) (h : Enclosed cs (inEndTag cs)) :
    inEndTag (cs ++ more) = inEndTag cs := by
  have hlong : 11 ≤ cs.length := h.long
  refine templateRule_append more h fun _ _ hroom => ?_
  cases cs with
  | nil => exact absurd hlong (by decide)
  | cons c cs =>
    simp only [List.cons_append] at hroom ⊢
    refine ite_append hroom (fun _ _ => rfl) fun _ hroom => ?_
    rw [← List.cons_append]
    refine ite_append hroom (fun _ hroom => ?_) fun _ _ => rfl
    have hroom : Text.countWhile isTagNamePart (c :: cs) + 11 ≤ (c :: cs).length := hroom
    rw [Text.countWhile_append_of_lt more (by omega)]

theorem inAttributeValue_append {last : Option TokenKind} (more : List Char)
    (h : Enclosed cs (inAttributeValue last cs)) :
    inAttributeValue last (cs ++ more) = inAttributeValue last cs := by
  have hlong : 11 ≤ cs.length := h.long
  refine templateRule_append more h fun _ _ hroom => ?_
  have htag := @inStartTag_append cs last more
  cases cs with
  | nil => exact absurd hlong (by decide)
  | cons c cs =>
    simp only [List.cons_append] at hroom htag ⊢
    rw [← List.cons_append] at htag ⊢
    refine ite_append hroom (fun _ hroom => ?_) fun _ hroom => ?_
    · have hroom : (Quoted.extent false (c :: cs)).length + 11 ≤ (c :: cs).length := hroom
      rw [Quoted.extent_append more (by omega)]
    refine mark_append more (Nat.le_trans (by decide) hlong) hroom (fun hroom => ?_) fun _ hroom => ?_
    · have hroom : (Text.past Delimiter.closeBraces (c :: cs)).length + 11 ≤ (c :: cs).length := hroom
      rw [Text.past_append more (by decide) (by omega)]
    -- a bare value is not empty unless the end of the tag stands ahead
    have hbare : bareValueFrom 0 (c :: cs) < (c :: cs).length := by
      by_cases hnone : bareValueFrom 0 (c :: cs) = 0
      · omega
      · rw [if_neg hnone] at hroom
        have hroom : bareValueFrom 0 (c :: cs) + 11 ≤ (c :: cs).length := hroom
        omega
    have hsame : bareValueFrom 0 (c :: cs ++ more) = bareValueFrom 0 (c :: cs) := by
      rw [bareValueFrom_eq_runUntil] at hbare
      rw [bareValueFrom_eq_runUntil, bareValueFrom_eq_runUntil,
        runUntil_append more (by decide) hbare]
    rw [hsame]
    refine ite_append hroom (fun _ hroom => ?_) fun _ _ => rfl
    exact htag ⟨h.long, h.ends, fun _ => hroom⟩

/-! ### Inside braces

The rules between braces look a little further than they take, as for the digit behind a point.
`Enclosed` leaves room for a closing tag behind the lexeme, which is further than any of them looks.
-/

theorem numberLength_append (more : List Char) (h : numberLength cs + 2 ≤ cs.length) :
    numberLength (cs ++ more) = numberLength cs := by
  -- two characters behind the whole part decide whether a fraction follows; with both in view
  -- nothing appended matters
  have hend : ∀ (whole : Nat) (rest : List Char), numberEnd whole rest + 2 ≤ whole + rest.length →
      numberEnd whole (rest ++ more) = numberEnd whole rest := by
    intro whole rest hroom
    match rest, hroom with
    | [], hroom => exact absurd hroom (by show ¬ whole + 2 ≤ whole; omega)
    | [c], hroom =>
      have := le_numberEnd whole [c]
      rw [List.length_singleton] at hroom
      omega
    | c :: d :: fraction, hroom =>
      by_cases hpoint : c = '.' ∧ d.isDigit = true
      · obtain ⟨rfl, hdigit⟩ := hpoint
        rw [numberEnd_fraction hdigit, List.length_cons, List.length_cons] at hroom
        rw [List.cons_append, List.cons_append, numberEnd_fraction hdigit,
          numberEnd_fraction hdigit, Text.countWhile_append_of_lt more (by omega)]
      · have hwhole : ∀ fraction, numberEnd whole (c :: d :: fraction) = whole := by
          intro fraction
          rcases numberEnd_cases whole (c :: d :: fraction) with hwhole | ⟨e, rest, heq, hdigit⟩
          · exact hwhole
          · cases heq
            exact absurd ⟨rfl, hdigit⟩ hpoint
        rw [List.cons_append, List.cons_append, hwhole, hwhole]
  rw [numberLength_eq] at h
  have hwhole := le_numberEnd (Text.countWhile Char.isDigit cs)
    (cs.drop (Text.countWhile Char.isDigit cs))
  rw [numberLength_eq, numberLength_eq, Text.countWhile_append_of_lt more (by omega),
    List.drop_append_of_le_length (by omega), hend _ _ (by rw [List.length_drop]; omega)]

theorem find?_operator_append {ops : List (List Char × TokenKind)} (more : List Char)
    (h : ∀ op ∈ ops, op.1.length ≤ cs.length) :
    ops.find? (·.1.isPrefixOf (cs ++ more)) = ops.find? (·.1.isPrefixOf cs) := by
  induction ops with
  | nil => rfl
  | cons op ops ih =>
    rw [List.find?_cons, List.find?_cons, isPrefixOf_append more (h op (by simp)),
      ih fun p hp => h p (by simp [hp])]

theorem inExpression_append (more : List Char) (h : Enclosed cs (inExpression cs)) :
    inExpression (cs ++ more) = inExpression cs := by
  have hlong : 11 ≤ cs.length := h.long
  refine templateRule_append more h fun _ _ hroom => ?_
  refine mark_append more (Nat.le_trans (by decide) hlong) hroom (fun _ => rfl) fun _ hroom => ?_
  -- eleven characters are more than any operator needs, and every rule below keeps as many behind
  -- what it takes
  have hops : ∀ op ∈ Vocabulary.operators, op.1.length ≤ 3 := by decide
  rw [find?_operator_append more fun op hop => Nat.le_trans (hops op hop) (by omega)]
  cases hfind : Vocabulary.operators.find? (·.1.isPrefixOf cs) with
  | some op => rfl
  | none =>
    rw [hfind] at hroom
    cases cs with
    | nil => exact absurd hlong (by decide)
    | cons c cs =>
      simp only [List.cons_append] at hroom ⊢
      rw [← List.cons_append]
      refine ite_append hroom (fun _ hroom => ?_) fun _ hroom => ?_
      · have hroom : (Quoted.extent true (c :: cs)).length + 11 ≤ (c :: cs).length := hroom
        rw [Quoted.extent_append more (by omega)]
      refine ite_append hroom (fun _ hroom => ?_) fun _ hroom => ?_
      · have hroom : numberLength (c :: cs) + 11 ≤ (c :: cs).length := hroom
        rw [numberLength_append more (by omega)]
      refine ite_append hroom (fun _ hroom => ?_) fun _ _ => rfl
      have hroom : Text.countWhile isNamePart (c :: cs) + 11 ≤ (c :: cs).length := hroom
      rw [Text.takeWhile_append_of_lt more (by omega)]

theorem elseIfLength?_append (more : List Char) (hlong : 11 ≤ cs.length) (hends : EndsClosed cs) :
    elseIfLength? (cs ++ more) = elseIfLength? cs := by
  have hhead := hends.drop (show 5 < cs.length by omega)
  have hgap := hhead.blanks_lt
  rw [List.length_drop] at hgap
  have hbehind := hends.drop (show 5 + Text.blanks (cs.drop 5) < cs.length by omega)
  have hblanks : Text.blanks ((cs ++ more).drop 5) = Text.blanks (cs.drop 5) := by
    rw [List.drop_append_of_le_length (by omega), hhead.blanks_append more]
  refine Option.ext fun n => ?_
  rw [elseIfLength?_eq_some_iff, elseIfLength?_eq_some_iff, hblanks,
    isPrefixOf_append more (Nat.le_trans (by decide) hlong),
    List.drop_append_of_le_length (by omega),
    Text.startsWithWord_append more (hbehind.not_prefix (by decide) (by decide))]

theorem find?_word_append {words : List (List Char × TokenKind)} (more : List Char)
    (h : ∀ word ∈ words, word.1.length < cs.length) :
    words.find? (Text.startsWithWord ·.1 (cs ++ more)) = words.find? (Text.startsWithWord ·.1 cs) := by
  induction words with
  | nil => rfl
  | cons word words ih =>
    have hlt := h word (by simp)
    have hword : ¬ cs <+: word.1 := fun hleads => Nat.not_le_of_lt hlt hleads.length_le
    rw [List.find?_cons, List.find?_cons, Text.startsWithWord_append more hword,
      ih fun p hp => h p (by simp [hp])]

theorem inDirective_append (more : List Char) (h : Enclosed cs (inDirective cs)) :
    inDirective (cs ++ more) = inDirective cs := by
  have hlong : 11 ≤ cs.length := h.long
  refine templateRule_append more h fun _ _ hroom => ?_
  refine mark_append more (Nat.le_trans (by decide) hlong) hroom (fun _ => rfl) fun _ hroom => ?_
  have hwords : ∀ word ∈ Vocabulary.directiveKeywords, word.1.length ≤ 7 := by decide
  rw [elseIfLength?_append more hlong h.ends,
    find?_word_append more fun word hword => Nat.lt_of_le_of_lt (hwords word hword) (by omega)]
  cases helse : elseIfLength? cs with
  | some length => rfl
  | none =>
    rw [helse] at hroom
    cases hfind : Vocabulary.directiveKeywords.find? (Text.startsWithWord ·.1 cs) with
    | some keyword => rfl
    | none =>
      rw [hfind] at hroom
      exact inExpression_append more ⟨h.long, h.ends, fun _ => hroom⟩

end Lexeme

/-! ### All modes -/

/-- The mark that closes the section around a mode. Between sections there is none (`[]`). -/
def Mode.closing : Mode → List Char
  | .initial => []
  | .frontMatter => Delimiter.fence
  | .script => Delimiter.scriptClose
  | .style => Delimiter.styleClose
  | _ => Delimiter.templateClose

theorem Mode.closing_cases (m : Mode) (h : m ≠ .initial) :
    3 ≤ m.closing.length ∧ EndsClosed m.closing := by
  cases m with
  | initial => exact absurd rfl h
  | frontMatter => exact ⟨by decide, .inr rfl⟩
  | _ => exact ⟨by decide, .inl rfl⟩

/-- A section stays open, with the same `Mode.closing`, or its closing mark is read. -/
theorem Transition.closing_eq {m n : Mode} {k : TokenKind} (h : Transition m k n)
    (hm : m ≠ .initial) (hn : n ≠ .initial) : n.closing = m.closing := by
  cases h <;> first | rfl | exact absurd rfl hm | exact absurd rfl hn

/-- The closing mark is read first wherever a section is open, by each rule of the section
(`Mode.closing`). -/
theorem lex_of_closing {state : LexState} {before : Option Char} {cs : List Char}
    (hmode : state.mode ≠ .initial) (h : state.mode.closing.isPrefixOf cs = true) :
    (lex state before cs).length = state.mode.closing.length := by
  obtain ⟨mode, last⟩ := state
  cases mode with
  | initial => exact absurd rfl hmode
  | frontMatter => exact congrArg Lexeme.length (if_pos h)
  | script => exact congrArg Lexeme.length (if_pos h)
  | style => exact congrArg Lexeme.length (if_pos h)
  | _ =>
    show (Lexeme.templateCloseOr cs _).length = _
    exact congrArg Lexeme.length (if_pos h)

namespace Lexeme

/-! Where its closing mark is not ahead, a section goes on. -/

theorem inFrontMatter_mode_ne {cs : List Char} (h : ¬ Delimiter.fence.isPrefixOf cs = true)
    (before : Option Char) : (inFrontMatter before cs).mode ≠ .initial := by
  rw [inFrontMatter, if_neg h]
  nofun

theorem inCode_mode_ne {close cs : List Char} {closeKind code : TokenKind} {mode : Mode}
    (h : ¬ close.isPrefixOf cs = true) (hmode : mode ≠ .initial) :
    (inCode close closeKind code mode cs).mode ≠ .initial := by
  rw [inCode, if_neg h]
  exact hmode

variable {cs : List Char} (h : ¬ Delimiter.templateClose.isPrefixOf cs = true)

include h

theorem inTemplate_mode_ne : (inTemplate cs).mode ≠ .initial := by
  unfold inTemplate templateCloseOr blanksOr modeInBraces
  rw [if_neg h]
  repeat' split
  all_goals simp

theorem inStartTag_mode_ne (last : Option TokenKind) : (inStartTag last cs).mode ≠ .initial := by
  unfold inStartTag templateCloseOr blanksOr bad
  rw [if_neg h]
  repeat' split
  all_goals simp

theorem inAttributeValue_mode_ne (last : Option TokenKind) :
    (inAttributeValue last cs).mode ≠ .initial := by
  have htag := inStartTag_mode_ne h last
  unfold inAttributeValue templateCloseOr blanksOr bad
  rw [if_neg h]
  repeat' split
  all_goals first | exact htag | simp

theorem inEndTag_mode_ne : (inEndTag cs).mode ≠ .initial := by
  unfold inEndTag templateCloseOr blanksOr bad
  rw [if_neg h]
  repeat' split
  all_goals simp

theorem inExpression_mode_ne : (inExpression cs).mode ≠ .initial := by
  unfold inExpression templateCloseOr blanksOr bad
  rw [if_neg h]
  repeat' split
  all_goals simp

theorem inDirective_mode_ne : (inDirective cs).mode ≠ .initial := by
  have hexpression := inExpression_mode_ne h
  unfold inDirective templateCloseOr blanksOr
  rw [if_neg h]
  repeat' split
  all_goals first | exact hexpression | simp

end Lexeme

/-- Only the closing mark leads out of a section: in all other cases the mode behind the lexeme
belongs to it (`…_mode_ne`). -/
theorem closing_of_initial {state : LexState} {before : Option Char} {cs : List Char}
    (hmode : state.mode ≠ .initial) (h : (lex state before cs).mode = .initial) :
    state.mode.closing.isPrefixOf cs = true := by
  obtain ⟨mode, last⟩ := state
  by_contra hclose
  revert h
  cases mode with
  | initial => exact absurd rfl hmode
  | frontMatter => exact Lexeme.inFrontMatter_mode_ne hclose before
  | script => exact Lexeme.inCode_mode_ne hclose nofun
  | style => exact Lexeme.inCode_mode_ne hclose nofun
  | template => exact Lexeme.inTemplate_mode_ne hclose
  | tagOpen => exact Lexeme.inStartTag_mode_ne hclose last
  | tagAttributeValue => exact Lexeme.inAttributeValue_mode_ne hclose last
  | tagClose => exact Lexeme.inEndTag_mode_ne hclose
  | interpolation => exact Lexeme.inExpression_mode_ne hclose
  | directive => exact Lexeme.inDirective_mode_ne hclose

/-- The characters ahead close the section around them, if they stand in one, and end with the
closing mark of a section: behind the lexeme ahead (`lex`) they go on so, unless that is the closing
mark. -/
structure Closes (state : LexState) (before : Option Char) (cs : List Char) : Prop where
  ends : EndsClosed cs
  long : 3 ≤ cs.length
  holds : state.mode.closing.length ≤ cs.length
  more : state.mode = .initial → (lex state before cs).length + 1 ≤ cs.length
  room : state.mode ≠ .initial → ¬ state.mode.closing.isPrefixOf cs = true →
    (lex state before cs).length + state.mode.closing.length ≤ cs.length

/-- The lexeme ahead (`lex`) does not reach beyond the characters, since the closing mark stops
it. -/
theorem Closes.length_le {state : LexState} {before : Option Char} {cs : List Char}
    (h : Closes state before cs) : (lex state before cs).length ≤ cs.length := by
  by_cases hmode : state.mode = .initial
  · have := h.more hmode
    omega
  · by_cases hclose : state.mode.closing.isPrefixOf cs = true
    · rw [lex_of_closing hmode hclose]
      exact h.holds
    · have := h.room hmode hclose
      omega

/-- **Text behind a closed section changes no lexeme in it** (`Closes`). The cases are the modes,
each with the lemma of its rule. -/
theorem lex_append {state : LexState} {before : Option Char} {cs : List Char} (more : List Char)
    (h : Closes state before cs) : lex state before (cs ++ more) = lex state before cs := by
  obtain ⟨mode, last⟩ := state
  obtain ⟨hends, hlong, hholds, hmore, hroom⟩ := h
  -- each mode asks for the room its own rules look ahead; `Closes` holds the room for all of them
  cases mode with
  | initial => exact Lexeme.betweenSections_append more hends hlong (hmore rfl)
  | frontMatter =>
    refine Lexeme.inFrontMatter_append more fun hno => ?_
    have hroom : (Lexeme.inFrontMatter before cs).length + 3 ≤ cs.length := hroom nofun hno
    omega
  | script =>
    have hpos : 0 < Delimiter.scriptClose.length := by decide
    apply Lexeme.inCode_append more (by decide)
    intro hno
    exact Nat.lt_of_lt_of_le (Nat.lt_add_of_pos_right hpos) (hroom nofun hno)
  | style =>
    have hpos : 0 < Delimiter.styleClose.length := by decide
    apply Lexeme.inCode_append more (by decide)
    intro hno
    exact Nat.lt_of_lt_of_le (Nat.lt_add_of_pos_right hpos) (hroom nofun hno)
  | template => exact Lexeme.inTemplate_append more ⟨hholds, hends, hroom nofun⟩
  | tagOpen => exact Lexeme.inStartTag_append more ⟨hholds, hends, hroom nofun⟩
  | tagAttributeValue => exact Lexeme.inAttributeValue_append more ⟨hholds, hends, hroom nofun⟩
  | tagClose => exact Lexeme.inEndTag_append more ⟨hholds, hends, hroom nofun⟩
  | interpolation => exact Lexeme.inExpression_append more ⟨hholds, hends, hroom nofun⟩
  | directive => exact Lexeme.inDirective_append more ⟨hholds, hends, hroom nofun⟩

end RsxInspect
