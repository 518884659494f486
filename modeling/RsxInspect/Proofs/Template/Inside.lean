import RsxInspect.Proofs.Scan.OpenTag
import RsxInspect.Proofs.Template.MadeFiles

/-!
# What is taken inside of a section

A piece of a template never takes the tag that closes the template, whatever is wrong with it
(`Piece.read_inside`). As long as that tag has not been read the scan is inside of the template,
where no section opens (`Trace.openTag_inside`); and a section of code takes nothing but its code
and its closing delimiter (`readCode_openTag`).

So every token that opens a section by a tag is found at the top of the loop over sections, and
becomes the opening delimiter of one (`Document.Reaches.opens`).
-/

namespace RsxInspect

/-- None of the tokens is a `templateClose`. -/
def AllInside (ts : List Token) : Prop := AllKinds (· ≠ .templateClose) ts

/-! ### Pieces

The first token of a piece is in the template, and behind it a piece takes only tokens that can
stand in tags or between braces (`AllKinds`). -/

section Pieces

variable {r : Reading} {first : Token} {ts : List Token}

theorem TagTokens.inside {us : List Token} {as : List Attribute} {last : Option TokenKind}
    {ds : List Diagnostic} (h : TagTokens r us as last ds) : AllInside us := by
  induction h with
  | unended => exact .nil
  | ended ht => exact .cons (by rcases ht with ht | ht <;> rw [ht] <;> decide) .nil
  | attr ha _ ih =>
    refine .append (fun t ht => ?_) ih
    rcases ha.kinds t ht with hkind | hkind | hkind <;> rw [hkind] <;> decide
  | bad ht _ ih => exact .cons (by rw [ht]; decide) ih
  | stray _ _ hclose _ ih => exact .cons hclose ih

/-- Between braces nothing is taken behind the end of the run, and a `templateClose` ends it. -/
theorem readBraces_inside : AllInside (ts.take (readBraces r first ts).taken) := by
  refine readBraces_kinds (fun t ht hclose => ?_) (by decide)
  have hruns : (!t.kind.endsRun) = true := List.all_eq_true.mp List.all_takeWhile t ht
  rw [hclose] at hruns
  cases hruns

/-- **A piece stays inside of its template.** None of the tokens that it takes is the closing tag.
The cases are those of `Piece.read`. -/
theorem Piece.read_inside : AllInside (ts.take (Piece.read r first ts).taken) := by
  unfold Piece.read
  split
  · exact readStartTag_kinds (by decide) fun us as last ds _ htokens => htokens.inside
  · exact readEndTag_kinds (by decide) (by decide) (by decide)
  · exact readText_kinds (by decide)
  · exact .nil
  · exact readBraces_inside
  · exact .nil
  · exact .nil

end Pieces

/-! ### Templates and sections

A token that opens a section is read between sections only. As long as a template is not closed the
scan is in one of its modes (`Mode.inTemplate`), so no such token comes. -/

/-- The modes of a scan inside of a template: markup, tags, and braces. -/
def Mode.inTemplate : Mode → Bool
  | .initial | .frontMatter | .script | .style => false
  | _ => true

/-- Only the closing tag leads out of a template; every other `Transition` stays in it. -/
theorem Transition.inTemplate {m n : Mode} {k : TokenKind} (h : Transition m k n)
    (hm : m.inTemplate = true) (hk : k ≠ .templateClose) : n.inTemplate = true := by
  cases h with
  | expression | keyword | plainExpression => rfl
  | _ => first | rfl | exact absurd rfl hk | cases hm

/-- Inside of a template no section opens, by induction on the tokens that are `AllInside`. -/
theorem Trace.openTag_inside {m : Mode} {us ts : List Token} (h : Trace m (us ++ ts))
    (hm : m.inTemplate = true) (hus : AllInside us) : ∀ t ∈ us, t.kind.openTag? = none := by
  induction us generalizing m with
  | nil => exact List.forall_mem_nil _
  | cons t us ih =>
    obtain ⟨ht, hus⟩ := List.forall_mem_cons.mp hus
    obtain ⟨n, hstep, hrest⟩ := Trace.of_cons h
    refine List.forall_mem_cons.mpr ⟨?_, ih hrest (hstep.inTemplate hm ht) hus⟩
    by_contra htag
    rw [hstep.initial_of_openTag htag] at hm
    cases hm

/-- All that the loop over pieces takes is inside of the template, by induction on
`Builder.Reaches`. -/
theorem Builder.Reaches.inside {r : Reading} {p₀ p : Builder.Progress} {ts₀ ts : List Token}
    (h : Builder.Reaches r p₀ ts₀ p ts) : ∃ us, ts₀ = us ++ ts ∧ AllInside us := by
  induction h with
  | start => exact ⟨[], rfl, .nil⟩
  | @piece p t ts h ht ih =>
    obtain ⟨us, rfl, hus⟩ := ih
    refine ⟨us ++ t :: ts.take (Piece.read r t ts).taken, ?_, hus.append (.cons ht Piece.read_inside)⟩
    rw [List.append_assoc, List.cons_append, List.take_append_drop]

namespace Document

variable {r : Reading} {notes : Notes} {opening : Token} {ts : List Token} {source : String}
  {a b : Nat}

/-- No section opens in what `readCode` takes: its code is one token, and what closes it another. -/
theorem readCode_openTag (r : Reading) (notes : Notes) (kind : SectionKind) (opening : Token)
    (ts : List Token) :
    AllKinds (·.openTag? = none) (ts.take (readCode r notes kind opening ts).taken) :=
  readCode_kinds r notes opening ts (by cases kind <;> rfl) (by cases kind <;> rfl)

/-- **No section opens in another one**: no token that `readSection` takes is an opening tag, be it
of code or of markup. -/
theorem readSection_openTag {kind : SectionKind} (htrace : Trace kind.mode ts)
    (hspaced : Spaced source a (ts.map Token.span) b) :
    ∀ t ∈ ts.take (readSection r notes kind opening ts).taken, t.kind.openTag? = none := by
  cases kind with
  | frontMatter => exact readCode_openTag r notes .frontMatter opening ts
  | script => exact readCode_openTag r notes .script opening ts
  | style => exact readCode_openTag r notes .style opening ts
  | template =>
    obtain ⟨p, k, hread⟩ := exists_readsTemplate r notes opening htrace hspaced
    obtain ⟨us, hsplit, hus⟩ := hread.reaches.inside
    obtain rfl : us = ts.take k := by
      rw [← List.append_left_inj (ts.drop k), ← hsplit, List.take_append_drop]
    rw [← List.take_append_drop k ts] at htrace
    have hinside := htrace.openTag_inside rfl hus
    show ∀ t ∈ ts.take (readTemplate r notes opening ts).taken, t.kind.openTag? = none
    rw [hread.taken, List.take_add]
    refine List.forall_mem_append.mpr ⟨hinside, fun t ht => ?_⟩
    -- what stands behind the pieces is the closing tag
    have hended := hread.ended
    generalize ts.drop k = us at ht hended
    cases us with
    | nil => simp at ht
    | cons u us =>
      obtain rfl : t = u := by
        split at ht
        · simpa using ht
        · simp at ht
      rw [hended t rfl]
      rfl

/-- **Opening tags open sections.** The loop over sections has a token that opens a section by a tag
still in front of it, or has made it the opening delimiter of a section; the induction is on
`Document.Reaches`. -/
theorem Reaches.opens {done : Array Section} {t : Token}
    (h : Reaches r #[] .empty (significantTokens source) done notes ts)
    (ht : t ∈ significantTokens source) (htag : t.kind.openTag? ≠ none) :
    t ∈ ts ∨ ∃ s ∈ done.toList, s.kind ≠ .frontMatter ∧ s.opening = t.span := by
  induction h with
  | start => exact .inl ht
  | @opened done notes u ts kind s h hkind hs ih =>
    have hbetween := h.between
    rw [Array.toList_push]
    -- the tag is the one that opens this section, stands behind the section, or in it, which cannot
    -- be
    rcases ih with hnext | ⟨x, hx, hsection⟩
    · rcases List.mem_cons.mp hnext with rfl | hbehind
      · refine .inr ⟨s.content, List.mem_append_right _ (List.mem_singleton_self _), ?_, ?_⟩
        · rw [hs, readSection_kind]
          rintro rfl
          revert hkind htag
          cases t.kind <;> simp [sectionOpenedBy?, TokenKind.openTag?]
        · rw [hs, readSection_opening]
      · rw [← List.take_append_drop s.taken ts] at hbehind
        rcases List.mem_append.mp hbehind with hinside | hbehind
        · rw [hs] at hinside
          exact absurd (readSection_openTag (hbetween.mode hkind) hbetween.spaced_behind t hinside)
            htag
        · exact .inl hbehind
    · exact .inr ⟨x, List.mem_append_left _ hx, hsection⟩
  | @skipped done notes u ts h hkind ih =>
    rcases ih with hnext | hsection
    · rcases List.mem_cons.mp hnext with rfl | hbehind
      · refine absurd ?_ htag
        rw [h.between.bad hkind]
        rfl
      · exact .inl hbehind
    · exact .inr hsection

end Document

end RsxInspect
