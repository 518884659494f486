import RsxInspect.Scanner
import RsxInspect.Proofs.Lexeme.Reading
import RsxInspect.Proofs.Lexeme.Transition
import RsxInspect.Proofs.Text.CodeWindow

/-!
# Lexemes in a shorter window

Which lexeme stands ahead when only the first `m` characters are visible. Every rule of `lex` looks
ahead, but a window that ends where a lexeme starts (`StartsAt`) hides what a rule looks for in two
places only: right behind the word that opens a section, which is then taken for the opening tag,
and right behind opening braces, where the first character of a directive is not seen. `lex_take`
says that nothing else is lost.

There is one lemma `…_take` for each rule. Most rules look no further than what they take, so the
length of the lexeme bounds what they need (`mark_take`). Where a rule looks further, the lemma asks
for what it looks for to be in sight, and the last section shows that it is: behind code, text or a
value the mark that ended it is read at once, so no window can end inside of the mark
(`fence_shown`, `close_shown`, `braces_shown`, `selfClose_shown`).
-/

namespace RsxInspect

/-! ### Where lexemes start

The window ends where a lexeme starts, and the recursion of `StartsAt` goes there from lexeme to
lexeme. `not_inside` is all that the rules need of it: no such place is inside of the lexeme ahead.
-/

/-- Behind `m` of the characters `cs` a lexeme starts, or all of them are read. `done` is what
stands before `cs`, and the recursion goes from lexeme to lexeme. -/
inductive StartsAt : LexState → List Char → List Char → Nat → Prop where
  | here (state : LexState) (done cs : List Char) : StartsAt state done cs 0
  | atEnd (state : LexState) (done cs : List Char) : StartsAt state done cs cs.length
  | later {state : LexState} {done cs : List Char} {m : Nat}
      (hpos : 0 < (lex state done.getLast? cs).length)
      (hnext : StartsAt (Scanner.stateAfter state (lex state done.getLast? cs))
        (done ++ cs.take (lex state done.getLast? cs).length)
        (cs.drop (lex state done.getLast? cs).length) m) :
      StartsAt state done cs ((lex state done.getLast? cs).length + m)

namespace StartsAt

/-- Inside of the characters, the next lexeme starts behind the one ahead (`StartsAt`). -/
theorem next {state : LexState} {done cs : List Char} {m : Nat} (h : StartsAt state done cs m)
    (hpos : 0 < m) (hlt : m < cs.length) :
    (lex state done.getLast? cs).length ≤ m ∧
      StartsAt (Scanner.stateAfter state (lex state done.getLast? cs))
        (done ++ cs.take (lex state done.getLast? cs).length)
        (cs.drop (lex state done.getLast? cs).length)
        (m - (lex state done.getLast? cs).length) := by
  cases h with
  | here => exact absurd hpos (Nat.lt_irrefl 0)
  | atEnd => exact absurd hlt (Nat.lt_irrefl _)
  | later _ hnext =>
    rw [Nat.add_sub_cancel_left]
    exact ⟨Nat.le_add_right _ _, hnext⟩

/-- Inside of the characters, the next lexeme starts behind the lexeme `x` ahead. -/
theorem next_of_lex {state : LexState} {done cs : List Char} {m : Nat} {x : Lexeme}
    (h : StartsAt state done cs m) (hlex : ∀ before, lex state before cs = x) (hpos : 0 < m)
    (hlt : m < cs.length) :
    x.length ≤ m ∧
      ∃ last done', StartsAt ⟨x.mode, last⟩ done' (cs.drop x.length) (m - x.length) := by
  obtain ⟨hle, hnext⟩ := h.next hpos hlt
  rw [hlex] at hle hnext
  exact ⟨hle, _, _, hnext⟩

/-- No lexeme starts inside of the one ahead, so the window shows all of that. -/
theorem not_inside {state : LexState} {done cs : List Char} {m : Nat}
    (h : StartsAt state done cs m) (hpos : 0 < m) (hlt : m < cs.length) :
    (lex state done.getLast? cs).length ≤ m :=
  (h.next hpos hlt).1

end StartsAt

namespace Lexeme

variable {cs : List Char} {m : Nat} {x y : Lexeme}

/-! ### Rules that look for a mark

A mark that stands ahead is taken, so the window shows it; one that does not is in no shorter window
either. -/

/-- A rule for a mark (`isPrefixOf`), and another one where the mark does not stand ahead: it is
enough to know the other one in the window. -/
theorem mark_take {mark : List Char} {here here' : Lexeme}
    (hlen : (if mark.isPrefixOf cs then here else x).length ≤ m) (hmark : mark.length ≤ here.length)
    (hhere : here.length ≤ m → here' = here)
    (helse : ¬ mark.isPrefixOf cs = true → x.length ≤ m → y = x) :
    (if mark.isPrefixOf (cs.take m) then here' else y)
      = if mark.isPrefixOf cs then here else x := by
  by_cases h : mark.isPrefixOf cs = true
  · rw [if_pos h] at hlen ⊢
    rw [if_pos (isPrefixOf_take.mpr ⟨h, Nat.le_trans hmark hlen⟩)]
    exact hhere hlen
  · rw [if_neg h] at hlen ⊢
    rw [if_neg (not_isPrefixOf_take h)]
    exact helse h hlen

theorem templateCloseOr_take (hlen : (templateCloseOr cs x).length ≤ m)
    (helse : ¬ Delimiter.templateClose.isPrefixOf cs = true → x.length ≤ m → y = x) :
    templateCloseOr (cs.take m) y = templateCloseOr cs x :=
  mark_take hlen (Nat.le_refl _) (fun _ => rfl) helse

theorem blanksOr_take {mode : Mode} (hpos : 0 < m) (hlen : (blanksOr mode cs x).length ≤ m)
    (helse : ¬ Text.blanks cs > 0 → x.length ≤ m → y = x) :
    blanksOr mode (cs.take m) y = blanksOr mode cs x := by
  have hblanks : Text.blanks (cs.take m) = min m (Text.blanks cs) :=
    Text.countWhile_take isBlank cs m
  unfold blanksOr at hlen ⊢
  rw [hblanks]
  by_cases h : Text.blanks cs > 0
  · rw [if_pos h] at hlen ⊢
    have hlen : Text.blanks cs ≤ m := hlen
    rw [if_pos (by omega), Nat.min_eq_right hlen]
  · rw [if_neg h] at hlen ⊢
    rw [if_neg (by omega)]
    exact helse h hlen

/-! ### Sections

The word of an opening tag is read with one character behind it, which may be out of sight. -/

/-- The words that open a section, as the scanner compares them. -/
def sectionTags : List (List Char) :=
  [Delimiter.scriptTag, Delimiter.templateTag, Delimiter.styleTag]

theorem opensWith_take {tag : List Char}
    (hroom : SectionTag.opensWith tag cs = true → tag.length ≤ m)
    (hcut : SectionTag.opensWith tag cs = false → cs.take m ≠ tag) :
    SectionTag.opensWith tag (cs.take m) = SectionTag.opensWith tag cs := by
  unfold SectionTag.opensWith at hroom hcut ⊢
  by_cases hleads : tag.isPrefixOf cs = true
  · rw [hleads, Bool.true_and] at hroom hcut ⊢
    rcases Nat.lt_trichotomy m tag.length with hlt | heq | hgt
    · -- the window does not show the whole word
      have hmiss : ¬ tag.isPrefixOf (cs.take m) = true := by
        rw [isPrefixOf_take]
        omega
      rw [Bool.not_eq_true] at hmiss
      rw [hmiss, Bool.false_and]
      cases hfull : (cs.drop tag.length).head?.all fun c => c == '>' || c == '/' || isBlank c
      · rfl
      · have := hroom hfull
        omega
    · have hword : cs.take m = tag := by
        rw [heq]
        exact (List.prefix_iff_eq_take.mp (List.isPrefixOf_iff_prefix.mp hleads)).symm
      cases hfull : (cs.drop tag.length).head?.all fun c => c == '>' || c == '/' || isBlank c
      · exact absurd hword (hcut hfull)
      · rw [hword, List.drop_length, List.isPrefixOf_iff_prefix.mpr List.prefix_rfl]
        rfl
    · rw [isPrefixOf_take_of_le (Nat.le_of_lt hgt), hleads, Bool.true_and, List.drop_take,
        List.head?_take, if_neg (by omega)]
  · have hmiss : ¬ tag.isPrefixOf (cs.take m) = true := not_isPrefixOf_take hleads
    rw [Bool.not_eq_true] at hleads hmiss
    rw [hleads, hmiss, Bool.false_and, Bool.false_and]

theorem sectionOpen_take {tag : List Char} {kind : TokenKind} {mode : Mode}
    (hlen : (sectionOpen tag kind mode cs).length ≤ m) :
    sectionOpen tag kind mode (cs.take m) = sectionOpen tag kind mode cs := by
  unfold sectionOpen at hlen ⊢
  have hlen : tag.length + (SectionTag.tagRest (cs.drop tag.length)).length ≤ m := hlen
  rw [List.drop_take, SectionTag.tagRest_take, Nat.min_eq_right (by omega)]

theorem sectionOr_take {tag : List Char} {kind : TokenKind} {mode : Mode}
    (hlen : (if SectionTag.opensWith tag cs then sectionOpen tag kind mode cs else x).length ≤ m)
    (hcut : SectionTag.opensWith tag cs = false → cs.take m ≠ tag)
    (helse : x.length ≤ m → y = x) :
    (if SectionTag.opensWith tag (cs.take m) then sectionOpen tag kind mode (cs.take m) else y)
      = if SectionTag.opensWith tag cs then sectionOpen tag kind mode cs else x := by
  by_cases h : SectionTag.opensWith tag cs = true
  · rw [if_pos h] at hlen
    have hroom : tag.length ≤ m := Nat.le_trans (Nat.le_add_right _ _) hlen
    rw [opensWith_take (fun _ => hroom) hcut, if_pos h, if_pos h, sectionOpen_take hlen]
  · rw [if_neg h] at hlen
    rw [opensWith_take (fun hopens => absurd hopens h) hcut, if_neg h, if_neg h, helse hlen]

/-- The word of a section without the end of a word behind it fits nowhere, so `betweenSections`
reads it as a bad character. -/
theorem kind_of_sectionTag {tag rest : List Char} (htag : tag ∈ sectionTags)
    (h : SectionTag.opensWith tag (tag ++ rest) = false) :
    (betweenSections (tag ++ rest)).kind = .badCharacter := by
  -- no tag is a fence, a blank or another tag, whatever stands behind it
  have hfence : Delimiter.fence.isPrefixOf (tag ++ rest) = false := by
    simp only [sectionTags, List.mem_cons, List.not_mem_nil, or_false] at htag
    rcases htag with rfl | rfl | rfl <;> rfl
  have hblanks : Text.blanks (tag ++ rest) = 0 := by
    simp only [sectionTags, List.mem_cons, List.not_mem_nil, or_false] at htag
    rcases htag with rfl | rfl | rfl <;> rfl
  have hother : ∀ other ∈ sectionTags, SectionTag.opensWith other (tag ++ rest) = false := by
    intro other hother
    simp only [sectionTags, List.mem_cons, List.not_mem_nil, or_false] at htag hother
    rcases htag with rfl | rfl | rfl <;> rcases hother with rfl | rfl | rfl <;>
      first
        | exact h
        | rfl
  unfold betweenSections blanksOr
  rw [hfence, hother _ (by simp [sectionTags]), hother _ (by simp [sectionTags]),
    hother _ (by simp [sectionTags]), hblanks]
  rfl

/-- Between sections, a window that does not end right behind the word of an opening tag
(`sectionTags`) shows the same lexeme. -/
theorem betweenSections_take (hpos : 0 < m) (hlen : (betweenSections cs).length ≤ m)
    (hcut : (betweenSections cs).kind = .badCharacter → cs.take m ∉ sectionTags) :
    betweenSections (cs.take m) = betweenSections cs := by
  have hword : ∀ tag ∈ sectionTags, SectionTag.opensWith tag cs = false → cs.take m ≠ tag := by
    intro tag htag hopens heq
    have hsplit : tag ++ cs.drop m = cs := by
      rw [← heq, List.take_append_drop]
    refine hcut ?_ (heq ▸ htag)
    rw [← hsplit]
    exact kind_of_sectionTag htag (by rw [hsplit]; exact hopens)
  unfold betweenSections at hlen ⊢
  refine mark_take hlen (Nat.le_refl _) (fun _ => rfl) fun _ hlen => ?_
  refine sectionOr_take hlen (hword _ (by simp [sectionTags])) fun hlen => ?_
  refine sectionOr_take hlen (hword _ (by simp [sectionTags])) fun hlen => ?_
  refine sectionOr_take hlen (hword _ (by simp [sectionTags])) fun hlen => ?_
  exact blanksOr_take hpos hlen fun _ _ => rfl

/-! ### Code -/

/-- Front-matter code in a window that ends with it, or shows the fence behind it (`fence_shown`
gives that). -/
theorem inFrontMatter_take {before : Option Char} (hm : m ≤ cs.length)
    (hlen : (inFrontMatter before cs).length ≤ m)
    (hclean : m = (inFrontMatter before cs).length
      ∨ (inFrontMatter before cs).kind = .frontMatterDelimiter
      ∨ (inFrontMatter before cs).length + 3 ≤ m) :
    inFrontMatter before (cs.take m) = inFrontMatter before cs := by
  unfold inFrontMatter at hlen hclean ⊢
  refine mark_take hlen (Nat.le_refl _) (fun _ => rfl) fun hfence _ => ?_
  rw [if_neg hfence] at hclean
  have hclean : m = FrontMatter.codeLength before cs ∨ FrontMatter.codeLength before cs + 3 ≤ m :=
    hclean.imp_right fun h => h.resolve_left (by simp)
  rw [FrontMatter.codeLength_take hm hclean]

/-- Script or style code (`inCode`) in a window that ends with it, or shows the closing tag behind
it. -/
theorem inCode_take {close : List Char} {closeKind code : TokenKind} {mode : Mode}
    (hm : m ≤ cs.length) (hclose : close ≠ [])
    (hlen : (inCode close closeKind code mode cs).length ≤ m)
    (hclean : ¬ close.isPrefixOf cs = true →
      close <+: cs.drop (inCode close closeKind code mode cs).length →
      m = (inCode close closeKind code mode cs).length
        ∨ (inCode close closeKind code mode cs).length + close.length ≤ m) :
    inCode close closeKind code mode (cs.take m) = inCode close closeKind code mode cs := by
  unfold inCode at hlen hclean ⊢
  refine mark_take hlen (Nat.le_refl _) (fun _ => rfl) fun hno hlen => ?_
  rw [if_neg hno] at hclean
  rw [Text.upTo_take hclose hm hlen (hclean hno)]

/-! ### Markup

Runs of text and values without quotes are one function with the marks as a parameter (`runUntil`),
so that one lemma about windows serves both. -/

theorem comment_take (hm : m ≤ cs.length)
    (hlen : 4 + (Text.past Delimiter.commentClose (cs.drop 4)).length ≤ m) :
    (Text.past Delimiter.commentClose ((cs.take m).drop 4)).length
      = (Text.past Delimiter.commentClose (cs.drop 4)).length := by
  rw [List.drop_take, Text.past_take (by decide) (by rw [List.length_drop]; omega)]
  omega

/-- The characters up to the first one that satisfies `p`, or to the first place where `mark`
stands. Texts and values without quotes are such runs. -/
def runUntil (p : Char → Bool) (mark : List Char) : List Char → Nat
  | [] => 0
  | c :: cs => if p c || mark.isPrefixOf (c :: cs) then 0 else runUntil p mark cs + 1

theorem textFrom_eq_runUntil (cs : List Char) :
    textFrom 0 cs = runUntil (fun c => c == '<' || isBlank c) Delimiter.openBraces cs := by
  induction cs with
  | nil => rfl
  | cons c cs ih => rw [textFrom_cons, runUntil, ih]

theorem bareValueFrom_eq_runUntil (cs : List Char) :
    bareValueFrom 0 cs = runUntil (fun c => isBlank c || c == '>') Delimiter.selfClose cs := by
  induction cs with
  | nil => rfl
  | cons c cs ih => rw [bareValueFrom_cons, runUntil, ih]

/-- A run (`runUntil`) in a window that does not cut the mark behind it has the same length, by
induction on the characters. -/
theorem runUntil_take {p : Char → Bool} {mark : List Char} (hlen : runUntil p mark cs ≤ m)
    (hclean : mark.isPrefixOf (cs.drop (runUntil p mark cs)) = true →
      m = runUntil p mark cs ∨ runUntil p mark cs + mark.length ≤ m) :
    runUntil p mark (cs.take m) = runUntil p mark cs := by
  induction cs generalizing m with
  | nil => rw [List.take_nil]
  | cons c cs ih =>
    cases m with
    | zero =>
      have hnone : runUntil p mark (c :: cs) = 0 := Nat.le_zero.mp hlen
      rw [hnone, List.take_zero, runUntil]
    | succ m =>
      rw [runUntil] at hlen hclean
      rw [List.take_succ_cons, runUntil, runUntil]
      -- a stop at a character is seen in any window; a stop at `mark` only in one that holds all of
      -- it
      by_cases hstop : (p c || mark.isPrefixOf (c :: cs)) = true
      · rw [if_pos hstop] at hclean
        have hwindow : (p c || mark.isPrefixOf (c :: cs.take m)) = true := by
          rw [Bool.or_eq_true] at hstop ⊢
          refine hstop.imp_right fun hmark => ?_
          have hroom : mark.length ≤ m + 1 := by
            rcases hclean hmark with hcut | hroom
            · cases hcut
            · rwa [Nat.zero_add] at hroom
          rw [← List.take_succ_cons]
          exact isPrefixOf_take.mpr ⟨hmark, hroom⟩
        rw [if_pos hstop, if_pos hwindow]
      · rw [if_neg hstop] at hlen hclean
        have hwindow : ¬ (p c || mark.isPrefixOf (c :: cs.take m)) = true := by
          intro h
          rw [Bool.or_eq_true, ← List.take_succ_cons] at h
          exact hstop (Bool.or_eq_true _ _ ▸ h.imp_right fun hmark => (isPrefixOf_take.mp hmark).1)
        rw [if_neg hstop, if_neg hwindow, ih (by omega)]
        intro hmark
        have := hclean (by rw [List.drop_succ_cons]; exact hmark)
        omega

/-- Behind opening braces, a window that shows the next character, if that starts a directive:
`modeInBraces` looks at no more. -/
theorem modeInBraces_take {rest : List Char} {k : Nat}
    (h : modeInBraces rest = .directive → k ≠ 0) :
    modeInBraces (rest.take k) = modeInBraces rest := by
  by_cases hk : k = 0
  · rw [hk, List.take_zero]
    rcases modeInBraces_cases rest with hmode | hmode
    · exact absurd hk (h hmode)
    · exact hmode.symm
  · unfold modeInBraces
    rw [List.head?_take, if_neg hk]

/-- In markup (`inTemplate`), a window that does not end right behind the braces of a directive, and
does not cut the braces behind a text. -/
theorem inTemplate_take (hm : m ≤ cs.length) (hpos : 0 < m) (hlen : (inTemplate cs).length ≤ m)
    (hbraces : (inTemplate cs).mode = .directive → m ≠ 2)
    (hclean : (inTemplate cs).kind = .text →
      Delimiter.openBraces.isPrefixOf (cs.drop (inTemplate cs).length) = true →
      m = (inTemplate cs).length ∨ (inTemplate cs).length + 2 ≤ m) :
    inTemplate (cs.take m) = inTemplate cs := by
  unfold inTemplate at hlen ⊢
  refine templateCloseOr_take hlen fun hclose hlen => ?_
  refine mark_take hlen (Nat.le_add_right _ _) (fun hlen => ?_) fun hcomment hlen => ?_
  · rw [comment_take hm hlen]
  refine mark_take hlen (Nat.le_refl _) (fun _ => rfl) fun hend hlen => ?_
  refine mark_take hlen (Nat.le_refl _) (fun _ => rfl) fun hstart hlen => ?_
  -- with the marks ruled out, the rule is down to braces and text, which is what the hypotheses
  -- speak about
  have hrules : inTemplate cs
      = if Delimiter.openBraces.isPrefixOf cs then
          ⟨.interpolationOpen, 2, modeInBraces (cs.drop 2)⟩
        else blanksOr .template cs ⟨.text, textFrom 0 cs, .template⟩ := by
    unfold inTemplate templateCloseOr
    rw [if_neg hclose, if_neg hcomment, if_neg hend, if_neg hstart]
  rw [hrules] at hbraces hclean
  by_cases hopen : Delimiter.openBraces.isPrefixOf cs = true
  · rw [if_pos hopen] at hlen hbraces ⊢
    have hroom : 2 ≤ m := hlen
    have hmode : modeInBraces ((cs.take m).drop 2) = modeInBraces (cs.drop 2) := by
      rw [List.drop_take]
      refine modeInBraces_take fun hdirective => ?_
      have := hbraces hdirective
      omega
    rw [if_pos (isPrefixOf_take.mpr ⟨hopen, hroom⟩), hmode]
  · rw [if_neg hopen] at hlen hclean ⊢
    rw [if_neg (not_isPrefixOf_take hopen)]
    refine blanksOr_take hpos hlen fun hblanks hlen => ?_
    unfold blanksOr at hclean
    rw [if_neg hblanks] at hclean
    simp only [textFrom_eq_runUntil] at hlen hclean ⊢
    rw [runUntil_take hlen (hclean trivial)]

/-- The end of an empty element is read before anything else in a tag. -/
theorem inStartTag_of_selfClose {last : Option TokenKind}
    (hclose : ¬ Delimiter.templateClose.isPrefixOf cs = true) (hblanks : ¬ Text.blanks cs > 0)
    (hself : Delimiter.selfClose.isPrefixOf cs = true) :
    inStartTag last cs = ⟨.selfClose, 2, .template⟩ := by
  unfold inStartTag templateCloseOr blanksOr
  rw [if_neg hclose, if_neg hblanks, if_pos hself]

theorem inStartTag_take {last : Option TokenKind} (hpos : 0 < m)
    (hlen : (inStartTag last cs).length ≤ m) :
    inStartTag last (cs.take m) = inStartTag last cs := by
  unfold inStartTag at hlen ⊢
  refine templateCloseOr_take hlen fun _ hlen => ?_
  refine blanksOr_take hpos hlen fun _ hlen => ?_
  refine mark_take hlen (Nat.le_refl _) (fun _ => rfl) fun _ hlen => ?_
  cases cs with
  | nil => rw [List.take_nil]
  -- the remaining rules look at the first character only, or take a run the window holds
  | cons c cs =>
    obtain ⟨m, rfl⟩ : ∃ j, m = j + 1 := ⟨m - 1, by omega⟩
    rw [List.take_succ_cons]
    simp only at hlen ⊢
    split
    · rfl
    · rename_i hgt
      rw [if_neg hgt] at hlen
      split
      · rfl
      · rename_i heq
        rw [if_neg heq] at hlen
        split
        · rename_i hquote
          rw [if_pos hquote] at hlen
          rw [← List.take_succ_cons, Quoted.extent_take (Nat.succ_ne_zero m), Nat.min_eq_right hlen]
        · rename_i hquote
          rw [if_neg hquote] at hlen
          split
          · rename_i hname
            rw [if_pos hname] at hlen
            rw [← List.take_succ_cons, Text.countWhile_take, Nat.min_eq_right hlen]
          · rfl

theorem inEndTag_take (hpos : 0 < m) (hlen : (inEndTag cs).length ≤ m) :
    inEndTag (cs.take m) = inEndTag cs := by
  unfold inEndTag at hlen ⊢
  refine templateCloseOr_take hlen fun _ hlen => ?_
  refine blanksOr_take hpos hlen fun _ hlen => ?_
  cases cs with
  | nil => rw [List.take_nil]
  -- here as in a start tag: one character decides, and the run it starts is in the window
  | cons c cs =>
    obtain ⟨m, rfl⟩ : ∃ j, m = j + 1 := ⟨m - 1, by omega⟩
    rw [List.take_succ_cons]
    simp only at hlen ⊢
    split
    · rfl
    · rename_i hgt
      rw [if_neg hgt] at hlen
      split
      · rename_i hname
        rw [if_pos hname] at hlen
        rw [← List.take_succ_cons, Text.countWhile_take, Nat.min_eq_right hlen]
      · rfl

/-- Behind `=`, a window that does not cut the end of the tag behind a bare value. -/
theorem inAttributeValue_take {last : Option TokenKind} (hm : m ≤ cs.length) (hpos : 0 < m)
    (hlen : (inAttributeValue last cs).length ≤ m)
    (hclean : (inAttributeValue last cs).kind = .attrValue →
      Delimiter.selfClose.isPrefixOf (cs.drop (inAttributeValue last cs).length) = true →
      m = (inAttributeValue last cs).length ∨ (inAttributeValue last cs).length + 2 ≤ m) :
    inAttributeValue last (cs.take m) = inAttributeValue last cs := by
  unfold inAttributeValue at hlen ⊢
  refine templateCloseOr_take hlen fun hclose hlen => ?_
  refine blanksOr_take hpos hlen fun hblanks hlen => ?_
  cases cs with
  | nil => rw [List.take_nil]
  | cons c cs =>
    -- what is left of the rule behind the quote and the braces, as `hclean` sees it
    have hrules : ∀ value : Lexeme, ¬ isQuote c = true →
        ¬ Delimiter.openBraces.isPrefixOf (c :: cs) = true →
        (if bareValueFrom 0 (c :: cs) = 0 then inStartTag last (c :: cs)
          else ⟨.attrValue, bareValueFrom 0 (c :: cs), .tagOpen⟩) = value →
        inAttributeValue last (c :: cs) = value := by
      intro value hquote hopen hvalue
      unfold inAttributeValue templateCloseOr blanksOr
      rw [if_neg hclose, if_neg hblanks]
      simp only
      rw [if_neg hquote, if_neg hopen, hvalue]
    have hself : (inStartTag last (c :: cs)).length ≤ m →
        inStartTag last ((c :: cs).take m) = inStartTag last (c :: cs) := inStartTag_take hpos
    obtain ⟨m, rfl⟩ : ∃ j, m = j + 1 := ⟨m - 1, by omega⟩
    rw [List.take_succ_cons]
    simp only at hlen ⊢
    -- quoted, in braces, or bare; only the bare value looks behind its end, at `/>`
    by_cases hquote : isQuote c = true
    · rw [if_pos hquote] at hlen
      rw [if_pos hquote, if_pos hquote, ← List.take_succ_cons,
        Quoted.extent_take (Nat.succ_ne_zero m), Nat.min_eq_right hlen]
    · rw [if_neg hquote] at hlen
      rw [if_neg hquote, if_neg hquote]
      rw [← List.take_succ_cons]
      by_cases hopen : Delimiter.openBraces.isPrefixOf (c :: cs) = true
      · rw [if_pos hopen] at hlen
        have hlen : (Text.past Delimiter.closeBraces (c :: cs)).length ≤ m + 1 := hlen
        have hroom : 2 ≤ m + 1 := by
          refine Nat.le_trans (Text.le_past (by decide) ?_) hlen
          exact (List.isPrefixOf_iff_prefix.mp hopen).length_le
        rw [if_pos hopen, if_pos (isPrefixOf_take.mpr ⟨hopen, hroom⟩),
          Text.past_take (by decide) hm, Nat.min_eq_right hlen]
      · rw [if_neg hopen] at hlen
        rw [if_neg hopen, if_neg (not_isPrefixOf_take hopen)]
        have hvalue := hrules _ hquote hopen rfl
        rw [hvalue] at hclean
        have hbare : bareValueFrom 0 ((c :: cs).take (m + 1)) = bareValueFrom 0 (c :: cs) := by
          rw [bareValueFrom_eq_runUntil, bareValueFrom_eq_runUntil]
          -- no bare value at all: then `/>` stands here and the rule for tags took it, so the
          -- window holds it
          by_cases hnone : bareValueFrom 0 (c :: cs) = 0
          · rw [if_pos hnone] at hlen
            rw [bareValueFrom_eq_runUntil] at hnone
            refine runUntil_take (by omega) fun hmark => .inr ?_
            rw [hnone, List.drop_zero] at hmark
            rw [inStartTag_of_selfClose hclose hblanks hmark] at hlen
            rw [hnone]
            exact hlen
          · rw [if_neg hnone] at hlen hclean
            rw [bareValueFrom_eq_runUntil] at hlen hclean
            exact runUntil_take hlen (hclean rfl)
        rw [hbare]
        split
        · rename_i hnone
          rw [if_pos hnone] at hlen
          exact hself hlen
        · rfl

/-! ### Expressions

A number takes a point only with a digit behind it, so what it takes does not end with the point,
and a window that shows all of it shows the digit as well. -/

/-- A number of `whole` digits, with its fraction if that stands behind it, so `numberLength` in
terms of its first part. -/
def numberEnd (whole : Nat) : List Char → Nat
  | '.' :: d :: fraction =>
    if d.isDigit then whole + 1 + Text.countWhile Char.isDigit (d :: fraction) else whole
  | _ => whole

theorem numberLength_eq (cs : List Char) :
    numberLength cs = numberEnd (Text.countWhile Char.isDigit cs)
      (cs.drop (Text.countWhile Char.isDigit cs)) := by
  unfold numberLength numberEnd
  rfl

theorem numberEnd_fraction {whole : Nat} {d : Char} {fraction : List Char}
    (h : d.isDigit = true) :
    numberEnd whole ('.' :: d :: fraction)
      = whole + 2 + Text.countWhile Char.isDigit fraction := by
  show (if d.isDigit then whole + 1 + Text.countWhile Char.isDigit (d :: fraction) else whole) = _
  rw [if_pos h, Text.countWhile_cons, if_pos h]
  omega

theorem numberEnd_cases (whole : Nat) (rest : List Char) :
    numberEnd whole rest = whole ∨
      ∃ d fraction, rest = '.' :: d :: fraction ∧ d.isDigit = true := by
  unfold numberEnd
  split
  · rename_i d fraction
    by_cases hdigit : d.isDigit = true
    · exact .inr ⟨d, fraction, rfl, hdigit⟩
    · exact .inl (if_neg hdigit)
  · exact .inl rfl

theorem numberEnd_take {whole k : Nat} {rest : List Char}
    (hlen : numberEnd whole rest ≤ whole + k) :
    numberEnd whole (rest.take k) = numberEnd whole rest := by
  rcases numberEnd_cases whole rest with hwhole | ⟨d, fraction, rfl, hdigit⟩
  · rcases numberEnd_cases whole (rest.take k) with hwindow | ⟨d, fraction, hwindow, hdigit⟩
    · rw [hwindow, hwhole]
    · -- a fraction in the window is one in the text
      obtain ⟨more, hmore⟩ : ∃ more, rest = '.' :: d :: more := by
        have hsplit := List.take_append_drop k rest
        rw [hwindow] at hsplit
        exact ⟨_, hsplit.symm⟩
      rw [hmore, numberEnd_fraction hdigit] at hwhole
      omega
  · rw [numberEnd_fraction hdigit] at hlen
    obtain ⟨k, rfl⟩ : ∃ j, k = j + 2 := ⟨k - 2, by omega⟩
    rw [List.take_succ_cons, List.take_succ_cons, numberEnd_fraction hdigit,
      numberEnd_fraction hdigit, Text.countWhile_take]
    omega

theorem le_numberEnd (whole : Nat) (rest : List Char) : whole ≤ numberEnd whole rest := by
  rcases numberEnd_cases whole rest with hwhole | ⟨d, fraction, rfl, hdigit⟩
  · exact Nat.le_of_eq hwhole.symm
  · rw [numberEnd_fraction hdigit]
    omega

theorem numberLength_take (hlen : numberLength cs ≤ m) :
    numberLength (cs.take m) = numberLength cs := by
  rw [numberLength_eq] at hlen
  have hwhole := Nat.le_trans (le_numberEnd _ _) hlen
  rw [numberLength_eq, numberLength_eq, Text.countWhile_take, Nat.min_eq_right hwhole,
    List.drop_take]
  exact numberEnd_take (by omega)

/-- The operator that stands ahead (`Vocabulary.operators`), in a window that shows it: no longer
one stands there, in the window or out of it. -/
theorem find?_operator_take {ops : List (List Char × TokenKind)}
    (hlen : ∀ op kind, ops.find? (·.1.isPrefixOf cs) = some (op, kind) → op.length ≤ m) :
    ops.find? (·.1.isPrefixOf (cs.take m)) = ops.find? (·.1.isPrefixOf cs) := by
  induction ops with
  | nil => rfl
  | cons op ops ih =>
    rw [List.find?_cons] at hlen
    rw [List.find?_cons, List.find?_cons]
    cases hfull : op.1.isPrefixOf cs with
    | true =>
      rw [hfull] at hlen
      rw [isPrefixOf_take.mpr ⟨hfull, hlen op.1 op.2 rfl⟩]
    | false =>
      rw [hfull] at hlen
      have hmiss : ¬ op.1.isPrefixOf (cs.take m) = true :=
        not_isPrefixOf_take (by rw [hfull]; decide)
      rw [Bool.not_eq_true] at hmiss
      rw [hmiss]
      exact ih hlen

theorem inExpression_take (hpos : 0 < m) (hlen : (inExpression cs).length ≤ m) :
    inExpression (cs.take m) = inExpression cs := by
  unfold inExpression at hlen ⊢
  refine templateCloseOr_take hlen fun _ hlen => ?_
  refine blanksOr_take hpos hlen fun _ hlen => ?_
  refine mark_take hlen (Nat.le_refl _) (fun _ => rfl) fun _ hlen => ?_
  have hop : Vocabulary.operators.find? (·.1.isPrefixOf (cs.take m))
      = Vocabulary.operators.find? (·.1.isPrefixOf cs) := by
    refine find?_operator_take fun op kind hfind => ?_
    rw [hfind] at hlen
    exact hlen
  rw [hop]
  cases hfind : Vocabulary.operators.find? (·.1.isPrefixOf cs) with
  | some op => rfl
  | none =>
    rw [hfind] at hlen
    cases cs with
    | nil => rw [List.take_nil]
    | cons c cs =>
      obtain ⟨m, rfl⟩ : ∃ j, m = j + 1 := ⟨m - 1, by omega⟩
      rw [List.take_succ_cons]
      simp only at hlen ⊢
      rw [← List.take_succ_cons]
      -- strings, numbers and names are runs, and `hlen` keeps each of them inside the window
      split
      · rename_i hquote
        rw [if_pos hquote] at hlen
        rw [Quoted.extent_take (Nat.succ_ne_zero m), Nat.min_eq_right hlen]
      · rename_i hquote
        rw [if_neg hquote] at hlen
        split
        · rename_i hdigit
          rw [if_pos hdigit] at hlen
          rw [numberLength_take hlen]
        · rename_i hdigit
          rw [if_neg hdigit] at hlen
          split
          · rename_i hname
            rw [if_pos hname] at hlen
            rw [Text.takeWhile_take hlen]
          · rfl

/-! ### Directives

Two words are looked for that may be longer than they look in the window: the keyword behind the
braces, and the `if` behind `:else`. But what would be seen as a word there is the beginning of a
lexeme, so the window does not end inside of it (`not_inside_word`). -/

/-- The keyword that stands ahead as a word (`Text.startsWithWord`), in a window that does not end
right behind the start of a longer word. -/
theorem find?_word_take {words : List (List Char × TokenKind)}
    (hlen : ∀ word kind, words.find? (Text.startsWithWord ·.1 cs) = some (word, kind) →
      word.length ≤ m)
    (hword : ∀ p ∈ words, p.1.isPrefixOf cs = true → Text.startsWithWord p.1 cs = false →
      m ≠ p.1.length) :
    words.find? (Text.startsWithWord ·.1 (cs.take m)) = words.find? (Text.startsWithWord ·.1 cs) := by
  induction words with
  | nil => rfl
  | cons word words ih =>
    rw [List.find?_cons] at hlen
    rw [List.find?_cons, List.find?_cons]
    -- a keyword found in the full text is found in the window; one missed there could be found only
    -- if the window cut the name behind it
    cases hfull : Text.startsWithWord word.1 cs with
    | true =>
      rw [hfull] at hlen
      have hroom : word.1.length ≤ m := hlen word.1 word.2 rfl
      rw [Text.startsWithWord_take hroom (by rw [hfull]; simp), hfull]
    | false =>
      rw [hfull] at hlen
      have hmiss : Text.startsWithWord word.1 (cs.take m) = false := by
        by_contra hwindow
        rw [Bool.not_eq_false] at hwindow
        have hleads := hwindow
        unfold Text.startsWithWord at hleads
        rw [Bool.and_eq_true, isPrefixOf_take] at hleads
        obtain ⟨⟨hleads, hroom⟩, -⟩ := hleads
        rw [Text.startsWithWord_take hroom fun _ _ => hword word (by simp) hleads hfull,
          hfull] at hwindow
        cases hwindow
      rw [hmiss]
      exact ih hlen fun p hp => hword p (by simp [hp])

/-- `:else if` is `:else`, blanks and the word `if`, of which `elseIfLength?` gives the length. -/
theorem elseIfLength?_eq_some_iff {n : Nat} :
    elseIfLength? cs = some n ↔
      n = 7 + Text.blanks (cs.drop 5) ∧ 0 < Text.blanks (cs.drop 5) ∧
        [':', 'e', 'l', 's', 'e'].isPrefixOf cs = true ∧
        Text.startsWithWord ['i', 'f'] (cs.drop (5 + Text.blanks (cs.drop 5))) = true := by
  unfold elseIfLength?
  simp only [Option.ite_none_right_eq_some, Option.some.injEq, Bool.and_eq_true,
    decide_eq_true_eq, List.length_cons, List.length_nil, Nat.reduceAdd]
  constructor
  · rintro ⟨⟨⟨hleads, hgap⟩, hif⟩, rfl⟩
    exact ⟨by omega, hgap, hleads, hif⟩
  · rintro ⟨rfl, hgap, hleads, hif⟩
    exact ⟨⟨⟨hleads, hgap⟩, hif⟩, by omega⟩

theorem elseIfLength?_take_of_some {n : Nat} (h : elseIfLength? cs = some n) (hlen : n ≤ m) :
    elseIfLength? (cs.take m) = some n := by
  obtain ⟨rfl, hgap, hleads, hif⟩ := elseIfLength?_eq_some_iff.mp h
  have hblanks : Text.blanks ((cs.take m).drop 5) = Text.blanks (cs.drop 5) := by
    rw [List.drop_take, Text.blanks, Text.countWhile_take]
    exact Nat.min_eq_right (by unfold Text.blanks at hlen; omega)
  refine elseIfLength?_eq_some_iff.mpr ⟨by rw [hblanks], by rw [hblanks]; exact hgap, ?_, ?_⟩
  · refine isPrefixOf_take.mpr ⟨hleads, ?_⟩
    show 5 ≤ m
    omega
  · rw [hblanks, List.drop_take, Text.startsWithWord_take _ fun hno => absurd hif (by rw [hno]; decide)]
    · exact hif
    · show 2 ≤ m - _
      omega

theorem inDirective_take (hpos : 0 < m) (hlen : (inDirective cs).length ≤ m)
    (hword : ∀ p ∈ Vocabulary.directiveKeywords, p.1.isPrefixOf cs = true →
      Text.startsWithWord p.1 cs = false → m ≠ p.1.length)
    (helse : elseIfLength? cs = none → elseIfLength? (cs.take m) = none) :
    inDirective (cs.take m) = inDirective cs := by
  unfold inDirective at hlen ⊢
  refine templateCloseOr_take hlen fun _ hlen => ?_
  refine blanksOr_take hpos hlen fun _ hlen => ?_
  refine mark_take hlen (Nat.le_refl _) (fun _ => rfl) fun _ hlen => ?_
  -- `else if` first, then the keywords, then the rules of an expression
  cases hfull : elseIfLength? cs with
  | some n =>
    rw [hfull] at hlen
    rw [elseIfLength?_take_of_some hfull hlen]
  | none =>
    rw [hfull] at hlen
    rw [helse hfull]
    have hsame : Vocabulary.directiveKeywords.find? (Text.startsWithWord ·.1 (cs.take m))
        = Vocabulary.directiveKeywords.find? (Text.startsWithWord ·.1 cs) := by
      refine find?_word_take (fun word kind hfind => ?_) hword
      rw [hfind] at hlen
      exact hlen
    rw [hsame]
    cases hfind : Vocabulary.directiveKeywords.find? (Text.startsWithWord ·.1 cs) with
    | some keyword => rfl
    | none =>
      rw [hfind] at hlen
      exact inExpression_take hpos hlen

end Lexeme

namespace StartsAt

open Lexeme

variable {done cs : List Char} {last : Option TokenKind} {m : Nat}

/-- Behind a word of an expression the next lexeme starts where the word ends, and not inside of
it. -/
theorem not_inside_word (word rest : List Char) {c d : Char}
    (h : StartsAt ⟨.interpolation, last⟩ done (c :: word ++ d :: rest) m) (hpos : 0 < m)
    (hlt : m < (c :: word ++ d :: rest).length) (hc : isNameStart c = true)
    (hword : ∀ x ∈ c :: word, isNamePart x = true) (hd : isNamePart d = true) :
    (c :: word).length < m := by
  -- the row would be read as one name, which ends behind `d` at the earliest
  have hinside := h.not_inside hpos hlt
  have hlex : lex ⟨.interpolation, last⟩ done.getLast? (c :: word ++ d :: rest)
      = inExpression (c :: (word ++ d :: rest)) := rfl
  rw [hlex, inExpression_of_isNameStart hc] at hinside
  have hall : ∀ x ∈ c :: word ++ [d], isNamePart x = true := by
    intro x hx
    rcases List.mem_append.mp hx with hx | hx
    · exact hword x hx
    · rw [List.mem_singleton.mp hx]
      exact hd
  have hrun := Text.le_countWhile_append rest hall
  rw [List.append_assoc] at hrun
  have hinside : Text.countWhile isNamePart (c :: word ++ [d] ++ rest) ≤ m := by
    rw [List.append_assoc]
    exact hinside
  rw [List.append_assoc] at hinside
  rw [List.length_append, List.length_singleton] at hrun
  exact Nat.lt_of_lt_of_le (Nat.lt_of_succ_le hrun) hinside

/-- Where a keyword goes on as a longer word, no lexeme starts behind the keyword, since the longer
word is one lexeme. -/
theorem ne_keyword_length (h : StartsAt ⟨.directive, last⟩ done cs m) (hpos : 0 < m)
    (hlt : m < cs.length) {p : List Char × TokenKind} (hp : p ∈ Vocabulary.directiveKeywords)
    (hleads : p.1.isPrefixOf cs = true) (hlonger : Text.startsWithWord p.1 cs = false) :
    m ≠ p.1.length := by
  intro hm
  obtain ⟨keyword, kind⟩ := p
  obtain ⟨d, c, word, rfl, hd, hc, hword⟩ := keyword_eq hp
  obtain ⟨tail, rfl⟩ := List.isPrefixOf_iff_prefix.mp hleads
  obtain ⟨e, rest, rfl, he⟩ : ∃ e rest, tail = e :: rest ∧ isNamePart e = true := by
    unfold Text.startsWithWord at hlonger
    rw [hleads, List.drop_left, Bool.true_and, Bool.not_eq_false'] at hlonger
    cases tail with
    | nil => cases hlonger
    | cons e rest => exact ⟨e, rest, rfl, hlonger⟩
  have hm : m = word.length + 2 := hm
  obtain ⟨hinside, last, done, hnext⟩ := h.next_of_lex
    (x := inDirective (d :: (c :: word ++ e :: rest))) (fun _ => rfl) hpos hlt
  -- a cut behind the keyword leaves three readings of the full text; each of them ends elsewhere
  cases helse : elseIfLength? (d :: (c :: word ++ e :: rest)) with
  | some n =>
    have hshort : ∀ p ∈ Vocabulary.directiveKeywords, p.1.length ≤ 7 := by decide
    have hm7 : word.length + 2 ≤ 7 := hshort _ hp
    obtain ⟨hn, hgap, -⟩ := elseIfLength?_eq_some_iff.mp helse
    rw [inDirective_of_start hd, helse] at hinside
    have hinside : n ≤ m := hinside
    omega
  | none =>
    cases hfind : Vocabulary.directiveKeywords.find?
        (Text.startsWithWord ·.1 (d :: (c :: word ++ e :: rest))) with
    | some other =>
      have hstands := List.find?_some hfind
      -- a longer keyword stands here
      have hbig := keyword_length_lt hp (List.mem_of_find?_eq_some hfind) hleads hlonger hstands
      rw [inDirective_of_start hd, helse, hfind] at hinside
      have hbig : word.length + 2 < other.1.length := hbig
      have hinside : other.1.length ≤ m := hinside
      omega
    | none =>
      -- the sign is read alone, and the name behind it reaches past the cut
      obtain ⟨hone, hmode⟩ := inDirective_of_no_keyword hd helse hfind
      rw [hone, hmode] at hnext
      have hword := hnext.not_inside_word word rest (by omega)
        (by simp only [List.length_append, List.length_cons] at hlt ⊢; omega) hc hword he
      have hword : word.length + 1 < m - 1 := hword
      omega

/-- Where `elseIfLength?` finds an `if` in the window only, the window cuts a longer word that starts
with it: behind `:else` and blanks it ends between the `if` and the rest of the word. -/
theorem exists_word_of_elseIfLength?_take {n : Nat} (hnone : elseIfLength? cs = none)
    (hsome : elseIfLength? (cs.take m) = some n) :
    ∃ rest e more, cs = [':', 'e', 'l', 's', 'e'] ++ rest ∧ 0 < Text.blanks rest ∧
      rest.drop (Text.blanks rest) = 'i' :: 'f' :: e :: more ∧ isNamePart e = true ∧
      m = 5 + Text.blanks rest + 2 := by
  obtain ⟨-, hgap, hleads, hif⟩ := elseIfLength?_eq_some_iff.mp hsome
  have hleads := (isPrefixOf_take.mp hleads).1
  obtain ⟨rest, rfl⟩ := List.isPrefixOf_iff_prefix.mp hleads
  have hrest : ([':', 'e', 'l', 's', 'e'] ++ rest).drop 5 = rest := rfl
  have hblanks : Text.blanks ((([':', 'e', 'l', 's', 'e'] ++ rest).take m).drop 5)
      = min (m - 5) (Text.blanks rest) := by
    rw [List.drop_take, hrest]
    exact Text.countWhile_take isBlank rest _
  rw [hblanks] at hgap hif
  by_cases hcut : m - 5 ≤ Text.blanks rest
  · -- the window ends inside the blanks
    rw [Nat.min_eq_left hcut, List.drop_eq_nil_of_le (by rw [List.length_take]; omega)] at hif
    cases hif
  · have hshown : Text.blanks rest < m - 5 := Nat.lt_of_not_le hcut
    rw [Nat.min_eq_right (Nat.le_of_lt hshown)] at hgap hif
    rw [List.drop_take, ← List.drop_drop, hrest] at hif
    have hlonger : Text.startsWithWord ['i', 'f'] (rest.drop (Text.blanks rest)) = false := by
      by_contra hfull
      rw [Bool.not_eq_false] at hfull
      rw [← hrest, List.drop_drop] at hfull
      have hsome : elseIfLength? ([':', 'e', 'l', 's', 'e'] ++ rest)
          = some (7 + Text.blanks rest) :=
        elseIfLength?_eq_some_iff.mpr ⟨rfl, hgap, hleads, hfull⟩
      rw [hnone] at hsome
      cases hsome
    have hword := hif
    unfold Text.startsWithWord at hword
    rw [Bool.and_eq_true, isPrefixOf_take] at hword
    obtain ⟨⟨hword, hroom⟩, -⟩ := hword
    have hend : m - (5 + Text.blanks rest) = 2 := by
      by_contra hne
      rw [Text.startsWithWord_take hroom fun _ _ => hne, hlonger] at hif
      cases hif
    obtain ⟨tail, htail⟩ := List.isPrefixOf_iff_prefix.mp hword
    obtain ⟨e, more, rfl, he⟩ : ∃ e more, tail = e :: more ∧ isNamePart e = true := by
      unfold Text.startsWithWord at hlonger
      rw [hword, ← htail, List.drop_left, Bool.true_and, Bool.not_eq_false'] at hlonger
      cases tail with
      | nil => cases hlonger
      | cons e more => exact ⟨e, more, rfl, hlonger⟩
    exact ⟨rest, e, more, rfl, hgap, htail.symm, he, by omega⟩

/-- Where `:else` and a longer word than `if` stand, no lexeme starts inside that word. -/
theorem elseIfLength?_take_of_none (h : StartsAt ⟨.directive, last⟩ done cs m) (hpos : 0 < m)
    (hlt : m < cs.length) (hnone : elseIfLength? cs = none) :
    elseIfLength? (cs.take m) = none := by
  by_contra hsome
  obtain ⟨n, hsome⟩ := Option.ne_none_iff_exists'.mp hsome
  obtain ⟨rest, e, more, rfl, hgap, htail, he, hm⟩ :=
    exists_word_of_elseIfLength?_take hnone hsome
  obtain ⟨b, rest, rfl, hb⟩ : ∃ b more, rest = b :: more ∧ isBlank b = true := by
    cases rest with
    | nil => exact absurd hgap (Nat.lt_irrefl 0)
    | cons b more =>
      refine ⟨b, more, rfl, ?_⟩
      by_contra hb
      rw [Bool.not_eq_true] at hb
      exact not_blanks hb hgap
  have hrest : ([':', 'e', 'l', 's', 'e'] ++ b :: rest).drop 5 = b :: rest := rfl
  have hsize : m < 5 + (b :: rest).length := by
    rw [List.length_append] at hlt
    exact hlt
  have hgapSize : (b :: rest).length
      = Text.blanks (b :: rest) + ((b :: rest).drop (Text.blanks (b :: rest))).length := by
    have := Text.countWhile_le isBlank (b :: rest)
    rw [List.length_drop, Text.blanks]
    omega
  rw [htail] at hgapSize
  -- `:else`, the blanks and the word are read one after the other
  obtain ⟨-, last, done, hblanks⟩ := h.next_of_lex
    (x := ⟨.elseBranch, 5, .interpolation⟩) (fun _ => inDirective_of_else hb hnone) hpos hlt
  simp only at hblanks
  rw [hrest] at hblanks
  obtain ⟨-, last, done, hif⟩ := hblanks.next_of_lex
    (x := ⟨.whitespace, Text.blanks (b :: rest), .interpolation⟩)
    (fun _ => inExpression_of_isBlank hb) (by omega) (by omega)
  simp only at hif
  rw [htail] at hif
  have hall : ['i', 'f'].all isNamePart = true := by decide +kernel
  have hinside := hif.not_inside_word ['f'] more (by omega)
    (by simp only [List.length_append, List.length_cons] at hgapSize ⊢; omega)
    (by decide +kernel) (List.all_eq_true.mp hall) he
  have hinside : 2 < m - 5 - Text.blanks (b :: rest) := hinside
  omega

/-- Behind front-matter code (`FrontMatter.codeLength`) the fence is read at once, so the window
ends in front of it or behind it. -/
theorem fence_shown (h : StartsAt ⟨.frontMatter, last⟩ done cs m) (hpos : 0 < m)
    (hlt : m < cs.length) :
    m = (inFrontMatter done.getLast? cs).length
      ∨ (inFrontMatter done.getLast? cs).kind = .frontMatterDelimiter
      ∨ (inFrontMatter done.getLast? cs).length + 3 ≤ m := by
  by_cases hfence : Delimiter.fence.isPrefixOf cs = true
  · right
    left
    unfold inFrontMatter
    rw [if_pos hfence]
  · have hcode : inFrontMatter done.getLast? cs
        = ⟨.frontMatterCode, FrontMatter.codeLength done.getLast? cs, .frontMatter⟩ := by
      unfold inFrontMatter
      rw [if_neg hfence]
    have hnext := h.next hpos hlt
    have hlex : lex ⟨.frontMatter, last⟩ done.getLast? cs = inFrontMatter done.getLast? cs := rfl
    rw [hlex, hcode] at hnext
    rw [hcode]
    simp only at hnext ⊢
    -- otherwise a fence stands behind the code, and the token read there would reach past the cut
    by_contra hcut
    have hbehind : Delimiter.fence <+: cs.drop (FrontMatter.codeLength done.getLast? cs) :=
      FrontMatter.fence_behind_code (by omega)
    have hinside := hnext.2.not_inside (by omega) (by rw [List.length_drop]; omega)
    unfold Scanner.stateAfter lex inFrontMatter at hinside
    simp only [List.isPrefixOf_iff_prefix.mpr hbehind, if_true] at hinside
    have hinside : 3 ≤ m - _ := hinside
    omega

/-- Behind script or style code (`inCode`) the closing tag is read at once, so no window ends inside
of it. -/
theorem close_shown {close : List Char} {closeKind code : TokenKind} {mode : Mode}
    (h : StartsAt ⟨mode, last⟩ done cs m) (hpos : 0 < m) (hlt : m < cs.length)
    (hlex : ∀ last before cs, lex ⟨mode, last⟩ before cs = inCode close closeKind code mode cs)
    (hno : ¬ close.isPrefixOf cs = true)
    (hclose : close <+: cs.drop (inCode close closeKind code mode cs).length) :
    m = (inCode close closeKind code mode cs).length
      ∨ (inCode close closeKind code mode cs).length + close.length ≤ m := by
  have hcode : inCode close closeKind code mode cs = ⟨code, (Text.upTo close cs).length, mode⟩ := by
    unfold inCode
    rw [if_neg hno]
  obtain ⟨hle, last, done, hnext⟩ := h.next_of_lex (fun _ => hlex _ _ cs) hpos hlt
  rw [hcode] at hle hnext hclose ⊢
  simp only at hle hnext hclose ⊢
  -- otherwise the closing tag is the next token, and it would reach past the cut
  by_contra hcut
  have hinside := hnext.not_inside (by omega) (by rw [List.length_drop]; omega)
  rw [hlex] at hinside
  unfold inCode at hinside
  rw [if_pos (List.isPrefixOf_iff_prefix.mpr hclose)] at hinside
  have hinside : close.length ≤ m - _ := hinside
  omega

/-- Behind a text the braces (`Delimiter.openBraces`) are read at once, as one lexeme. -/
theorem braces_shown (h : StartsAt ⟨.template, last⟩ done cs m) (hpos : 0 < m) (hlt : m < cs.length)
    (htext : (inTemplate cs).kind = .text)
    (hbraces : Delimiter.openBraces.isPrefixOf (cs.drop (inTemplate cs).length) = true) :
    m = (inTemplate cs).length ∨ (inTemplate cs).length + 2 ≤ m := by
  have hmode : (inTemplate cs).mode = .template := by
    have hallowed := allowed_inTemplate cs
    rw [Allowed, htext] at hallowed
    generalize (inTemplate cs).mode = mode at hallowed
    cases hallowed
    rfl
  obtain ⟨hle, last, done, hnext⟩ := h.next_of_lex (x := inTemplate cs) (fun _ => rfl) hpos hlt
  rw [hmode] at hnext
  by_contra hcut
  have hinside := hnext.not_inside (by omega) (by rw [List.length_drop]; omega)
  obtain ⟨rest, hrest⟩ := List.isPrefixOf_iff_prefix.mp hbraces
  rw [← hrest] at hinside
  have hinside : 2 ≤ m - (inTemplate cs).length := hinside
  omega

/-- Behind a bare value the end of the tag (`Delimiter.selfClose`) is read at once, as one
lexeme. -/
theorem selfClose_shown (h : StartsAt ⟨.tagAttributeValue, last⟩ done cs m) (hpos : 0 < m)
    (hlt : m < cs.length) (hvalue : (inAttributeValue last cs).kind = .attrValue)
    (hself : Delimiter.selfClose.isPrefixOf (cs.drop (inAttributeValue last cs).length) = true) :
    m = (inAttributeValue last cs).length ∨ (inAttributeValue last cs).length + 2 ≤ m := by
  have hmode : (inAttributeValue last cs).mode = .tagOpen := by
    have hallowed : Allowed .tagAttributeValue (inAttributeValue last cs) :=
      allowed_inAttributeValue last (by rintro rfl; cases hlt)
    rw [Allowed, hvalue] at hallowed
    generalize (inAttributeValue last cs).mode = mode at hallowed
    cases hallowed
    rfl
  obtain ⟨hle, last', done, hnext⟩ := h.next_of_lex (x := inAttributeValue last cs) (fun _ => rfl)
    hpos hlt
  rw [hmode] at hnext
  -- otherwise `/>` is the next token, and it would reach past the cut
  by_contra hcut
  have hinside := hnext.not_inside (by omega) (by rw [List.length_drop]; omega)
  obtain ⟨rest, hrest⟩ := List.isPrefixOf_iff_prefix.mp hself
  rw [← hrest] at hinside
  have hinside : 2 ≤ m - (inAttributeValue last cs).length := hinside
  omega

end StartsAt

/-- **A window that ends where a lexeme starts shows the same lexeme ahead**, unless it ends right
behind the word of an opening tag that goes on, or right behind the braces of a directive. The cases
are the modes. -/
theorem lex_take {state : LexState} {done cs : List Char} {m : Nat}
    (h : StartsAt state done cs m) (hpos : 0 < m) (hm : m ≤ cs.length)
    (hsection : state.mode = .initial → (lex state done.getLast? cs).kind = .badCharacter →
      cs.take m ∉ Lexeme.sectionTags)
    (hbraces : state.mode = .template → (lex state done.getLast? cs).mode = .directive → m ≠ 2) :
    lex state done.getLast? (cs.take m) = lex state done.getLast? cs := by
  rcases Nat.eq_or_lt_of_le hm with hall | hlt
  · rw [hall, List.take_length]
  · have hinside := h.not_inside hpos hlt
    obtain ⟨mode, last⟩ := state
    -- the look-ahead of each mode, with the lemma that shows it inside the window
    cases mode with
    | initial => exact Lexeme.betweenSections_take hpos hinside (hsection rfl)
    | frontMatter => exact Lexeme.inFrontMatter_take hm hinside (h.fence_shown hpos hlt)
    | script =>
      exact Lexeme.inCode_take hm (by decide) hinside
        (h.close_shown hpos hlt (fun _ _ _ => rfl))
    | template =>
      exact Lexeme.inTemplate_take hm hpos hinside (hbraces rfl) (h.braces_shown hpos hlt)
    | style =>
      exact Lexeme.inCode_take hm (by decide) hinside
        (h.close_shown hpos hlt (fun _ _ _ => rfl))
    | tagOpen => exact Lexeme.inStartTag_take hpos hinside
    | tagAttributeValue =>
      exact Lexeme.inAttributeValue_take hm hpos hinside (h.selfClose_shown hpos hlt)
    | tagClose => exact Lexeme.inEndTag_take hpos hinside
    | interpolation => exact Lexeme.inExpression_take hpos hinside
    | directive =>
      exact Lexeme.inDirective_take hpos hinside
        (fun p hp => h.ne_keyword_length hpos hlt hp)
        (h.elseIfLength?_take_of_none hpos hlt)

end RsxInspect
