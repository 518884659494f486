import RsxInspect.Proofs.Scan.Literal
import RsxInspect.Proofs.Scan.Tiling

/-!
# Tokens that open a section by a tag

Such a token starts with the mark of its section and goes on to the `>` of the tag, or to the end of
the range if no `>` stands outside of quoted values (`tagRest`). The scan forgets which of the two
it was. If the tag has an end, then `>` is the last character of the token (`Scanner.openTag_next`);
the converse does not hold, since the range may end behind a `>` in a value that is left open.
-/

namespace RsxInspect

/-- The mark at the start of a token that opens a section by a tag, `none` for all other kinds. -/
def TokenKind.openTag? : TokenKind → Option (List Char)
  | .scriptOpen => some Delimiter.scriptTag
  | .templateOpen => some Delimiter.templateTag
  | .styleOpen => some Delimiter.styleTag
  | _ => none

/-- A tag opens a section only where no other one is open, in the mode `initial`. -/
theorem Transition.initial_of_openTag {m n : Mode} {k : TokenKind} (h : Transition m k n)
    (hk : k.openTag? ≠ none) : m = .initial := by
  cases h with
  | expression h | plainExpression h | keyword h =>
    revert h hk
    cases k <;> decide
  | scriptOpen | templateOpen | styleOpen => rfl
  | _ => exact absurd rfl hk

namespace SectionTag

variable {quote : Option Char} {n : Nat} {cs : List Char}

/-- The rest of a tag ends with its `>`, or takes all that lies ahead. The induction is on what lies
ahead, for any quote that is open. -/
theorem tagRestFrom_cases (quote : Option Char) (n : Nat) (cs : List Char) :
    (∃ inner behind, cs = inner ++ '>' :: behind ∧
        tagRestFrom quote n cs = ⟨n + inner.length + 1, true⟩) ∨
      tagRestFrom quote n cs = ⟨n + cs.length, false⟩ := by
  induction cs generalizing quote n with
  | nil => exact .inr rfl
  | cons c cs ih =>
    -- one more character in front of what is left
    have hmore : ∀ quote', tagRestFrom quote n (c :: cs) = tagRestFrom quote' (n + 1) cs →
        (∃ inner behind, c :: cs = inner ++ '>' :: behind ∧
            tagRestFrom quote n (c :: cs) = ⟨n + inner.length + 1, true⟩) ∨
          tagRestFrom quote n (c :: cs) = ⟨n + (c :: cs).length, false⟩ := by
      intro quote' hstep
      rw [hstep, List.length_cons]
      rcases ih quote' (n + 1) with ⟨inner, behind, hcs, hfound⟩ | hnone
      · refine .inl ⟨c :: inner, behind, by rw [hcs]; rfl, ?_⟩
        rw [hfound, List.length_cons, Nat.add_assoc n, Nat.add_comm 1]
      · exact .inr (by rw [hnone, Nat.add_assoc, Nat.add_comm 1])
    cases quote with
    | some q => exact hmore _ rfl
    | none =>
      by_cases hend : c = '>'
      · subst hend
        exact .inl ⟨[], cs, rfl, rfl⟩
      · exact hmore _ (by rw [tagRestFrom, if_neg (by simpa using hend)])

theorem endsWith_tagRest (h : (tagRest cs).closed = true) :
    ['>'] <:+ cs.take (tagRest cs).length := by
  rcases tagRestFrom_cases none 0 cs with ⟨inner, behind, hcs, hfound⟩ | hnone
  · rw [tagRest, hfound, hcs, Nat.zero_add]
    refine ⟨inner, ?_⟩
    rw [List.take_length_add_append, List.take_succ_cons, List.take_zero]
  · rw [tagRest, hnone] at h
    cases h

theorem length_tagRest_of_open (h : (tagRest cs).closed = false) :
    (tagRest cs).length = cs.length := by
  rcases tagRestFrom_cases none 0 cs with ⟨inner, behind, -, hfound⟩ | hnone
  · rw [tagRest, hfound] at h
    cases h
  · rw [tagRest, hnone, Nat.zero_add]

end SectionTag

/-- A lexeme that opens a section by a tag is the mark and the rest of the tag behind it, as
`tagRest` delimits it. -/
theorem lex_openTag {state : LexState} {before : Option Char} {cs tag : List Char} (hcs : cs ≠ [])
    (h : (lex state before cs).kind.openTag? = some tag) :
    tag <+: cs ∧ (lex state before cs).length
      = tag.length + (SectionTag.tagRest (cs.drop tag.length)).length := by
  have hmode : state.mode = .initial :=
    (lex_transition state before hcs).initial_of_openTag (by rw [h]; simp)
  have hlex : lex state before cs = Lexeme.betweenSections cs := by
    rw [lex, hmode]
  have hopens : ∀ {mark : List Char}, SectionTag.opensWith mark cs = true → mark <+: cs :=
    fun hmark => List.isPrefixOf_iff_prefix.mp (Bool.and_eq_true_iff.mp hmark).1
  rw [hlex] at h ⊢
  unfold Lexeme.betweenSections Lexeme.blanksOr at h
  unfold Lexeme.betweenSections
  -- only the branches of the three tags make an opening tag; the rest contradict `h`
  repeat' split at h
  case isFalse.isTrue hfence hscript =>
    rw [if_neg hfence, if_pos hscript]
    cases h
    exact ⟨hopens hscript, rfl⟩
  case isFalse.isFalse.isTrue hfence hscript htemplate =>
    rw [if_neg hfence, if_neg hscript, if_pos htemplate]
    cases h
    exact ⟨hopens htemplate, rfl⟩
  case isFalse.isFalse.isFalse.isTrue hfence hscript htemplate hstyle =>
    rw [if_neg hfence, if_neg hscript, if_neg htemplate, if_pos hstyle]
    cases h
    exact ⟨hopens hstyle, rfl⟩
  all_goals cases h

namespace Scanner

/-- **The scan of an opening tag.** The search for the `>` behind the mark delimits the token
(`tagRest`). If it finds one, then the token ends with it, and otherwise the token ends with the
range. -/
theorem openTag_next {source : String} {stop : Nat} {s : Scanner} {tag : List Char}
    (h : s.InWindow source stop) (hkind : s.next.1.kind.openTag? = some tag) :
    let search := (s.cursor.advance tag.length).skipTagRest
    s.next.2.cursor = search.2 ∧
      (search.1 = true → ['>'] <:+ (s.next.1.text source).toList) ∧
      (search.1 = false → s.next.1.span.stop = stop) := by
  intro search
  have hspan := h.span_next
  have hnext := h.next
  obtain ⟨done, rest, beyond, hsource, -, hs⟩ := h
  generalize s.state = state at hs
  subst hs
  have hrest : rest ≠ [] := by
    rintro rfl
    rw [next_of_end rfl] at hkind
    cases hkind
  have htoken : (behind done rest state).next = _ := next_behind hrest
  have htext : (behind done rest state).next.1.text source = _ := text_next_behind hsource hrest
  rw [htoken] at hkind
  obtain ⟨hmark, hlength⟩ := lex_openTag hrest hkind
  obtain ⟨inner, rfl⟩ := hmark
  have hdrop : (tag ++ inner).drop tag.length = inner := List.drop_left
  rw [hdrop] at hlength
  have hsearch : search = (Cursor.behind (done ++ tag) inner).skipTagRest := by
    show ((behind done (tag ++ inner) state).cursor.advance _).skipTagRest = _
    rw [behind_cursor, Cursor.advance_behind, hdrop, List.take_left]
  have htaken : (tag ++ inner).take (lex state done.getLast? (tag ++ inner)).length
      = tag ++ inner.take (SectionTag.tagRest inner).length := by
    rw [hlength, List.take_length_add_append]
  have hleft : (tag ++ inner).drop (lex state done.getLast? (tag ++ inner)).length
      = inner.drop (SectionTag.tagRest inner).length := by
    rw [hlength, List.drop_length_add_append]
  rw [hsearch]
  refine ⟨?_, fun hfound => ?_, fun hopen => ?_⟩
  · rw [htoken, behind_cursor, htaken, hleft, Cursor.skipTagRest, Cursor.over?,
      Cursor.advance_behind, Cursor.behind_rest, List.append_assoc]
  · rw [htext, htaken, String.toList_ofList]
    exact (SectionTag.endsWith_tagRest hfound).trans (List.suffix_append tag _)
  · -- nothing is left to see behind the token
    have hopen : (SectionTag.tagRest inner).closed = false := hopen
    rw [hspan]
    refine hnext.rest_eq_nil_iff.mp ?_
    rw [htoken, behind_cursor, Cursor.behind_rest, hleft, SectionTag.length_tagRest_of_open hopen,
      List.drop_length]

end Scanner

end RsxInspect
