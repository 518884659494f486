import Mathlib.Data.List.Chain
import RsxInspect.Proofs.Scan.Trace
import RsxInspect.Template.Piece

/-!
# Runs of text

A token of text is a stretch without blanks and without markup (`take_textFrom`), and behind it stands
something that is no text. So blanks stand between two such tokens that follow each other, and the whole
run from the first to the last one is a text (`TextChars`): nothing in it starts a tag or an
interpolation, and it has no blanks at its ends (`TextRun.foldl`).
-/

namespace RsxInspect

open String (utf8Len)

/-- The characters of a text: there are some, no markup starts among them, and neither the first nor
the last one is blank (`isBlank`). -/
structure TextChars (cs : List Char) : Prop where
  nonempty : cs ≠ []
  noTag : '<' ∉ cs
  noBraces : cs.IsChain fun c d => ¬ (c = '\x7b' ∧ d = '\x7b')
  first : ∀ c ∈ cs.head?, isBlank c = false
  last : ∀ c ∈ cs.getLast?, isBlank c = false

namespace TextChars

variable {xs ys gap : List Char}

/-- Opening braces do not stand in what are `TextChars`. -/
theorem openBraces_not_infix (h : TextChars xs) : ¬ Delimiter.openBraces <:+: xs := by
  rintro ⟨before, behind, rfl⟩
  have hchain := h.noBraces
  rw [List.append_assoc] at hchain
  have hpair := (List.isChain_append.mp hchain).2.1
  exact (List.isChain_cons_cons.mp hpair).1 ⟨rfl, rfl⟩

/-- Two texts (`TextChars`) with blanks between them are one text. Nothing that starts markup can
come about at the seams, since a blank is no part of a mark. -/
theorem join (hx : TextChars xs) (hgap : ∀ c ∈ gap, isBlank c = true) (hne : gap ≠ [])
    (hy : TextChars ys) : TextChars (xs ++ gap ++ ys) := by
  have hbrace : ∀ c ∈ gap, c ≠ '\x7b' := by
    rintro c hc rfl
    exact absurd (hgap _ hc) (by decide)
  have hchain : gap.IsChain fun c d => ¬ (c = '\x7b' ∧ d = '\x7b') := by
    refine List.Pairwise.isChain (List.Pairwise.imp_of_mem (fun hc _ _ => ?_)
      (List.pairwise_of_forall (R := fun _ _ => True) fun _ _ => trivial))
    exact fun hcd => hbrace _ hc hcd.1
  refine ⟨?_, ?_, ?_, ?_, ?_⟩
  · simp [hx.nonempty]
  · intro h
    rcases List.mem_append.mp h with h | h
    · rcases List.mem_append.mp h with h | h
      · exact hx.noTag h
      · exact absurd (hgap _ h) (by decide)
    · exact hy.noTag h
  · -- at both joints stands a blank, which is no brace
    refine List.isChain_append.mpr ⟨List.isChain_append.mpr ⟨hx.noBraces, hchain, ?_⟩, hy.noBraces,
      ?_⟩
    · exact fun c hc d hd hcd => hbrace d (List.mem_of_mem_head? hd) hcd.2
    · intro c hc d hd hcd
      rw [List.getLast?_append_of_ne_nil _ hne] at hc
      exact hbrace c (List.mem_of_mem_getLast? hc) hcd.1
  · rw [List.append_assoc, List.head?_append_of_ne_nil _ hx.nonempty]
    exact hx.first
  · rw [List.getLast?_append_of_ne_nil _ hy.nonempty]
    exact hy.last

end TextChars

/-! ### One token -/

namespace Lexeme

/-- No markup starts in a text, and no blank stands in it: `textFrom` stops in front of both. -/
theorem take_textFrom (cs : List Char) :
    (∀ c ∈ cs.take (textFrom 0 cs), c ≠ '<' ∧ isBlank c = false) ∧
      (cs.take (textFrom 0 cs)).IsChain fun c d => ¬ (c = '\x7b' ∧ d = '\x7b') := by
  induction cs with
  | nil => exact ⟨nofun, .nil⟩
  | cons c cs ih =>
    rw [textFrom_cons]
    split
    · exact ⟨nofun, .nil⟩
    · rename_i hgoes
      simp only [Bool.or_eq_true, not_or, Bool.not_eq_true] at hgoes
      obtain ⟨⟨htag, hblank⟩, hbraces⟩ := hgoes
      rw [List.take_succ_cons]
      refine ⟨List.forall_mem_cons.mpr ⟨⟨by simpa using htag, hblank⟩, ih.1⟩, ?_⟩
      refine List.isChain_cons.mpr ⟨fun d hd hcd => ?_, ih.2⟩
      -- two braces would end the text
      obtain ⟨rest, hrest⟩ : ∃ rest, cs = d :: rest := by
        cases cs with
        | nil => cases hd
        | cons e rest =>
          refine ⟨rest, ?_⟩
          cases hn : textFrom 0 (e :: rest) with
          | zero =>
            rw [hn] at hd
            cases hd
          | succ n =>
            rw [hn] at hd
            exact congrArg (· :: rest) (Option.some.inj hd)
      rw [hrest, hcd.1, hcd.2] at hbraces
      exact absurd hbraces (by simp [Delimiter.openBraces])

/-- Behind a text (`Lexeme.textFrom`) stands something else, so a token of text is never followed by
another one without blanks. -/
theorem textFrom_drop (cs : List Char) : textFrom 0 (cs.drop (textFrom 0 cs)) = 0 := by
  induction cs with
  | nil => rfl
  | cons c cs ih =>
    rw [textFrom_cons]
    split
    · rename_i hstops
      rw [List.drop_zero, textFrom_cons, if_pos hstops]
    · exact ih

theorem textChars_take {cs : List Char} (h : 0 < textFrom 0 cs) :
    TextChars (cs.take (textFrom 0 cs)) := by
  obtain ⟨hall, hchain⟩ := take_textFrom cs
  refine ⟨?_, fun hmem => (hall _ hmem).1 rfl, hchain,
    fun c hc => (hall c (List.mem_of_mem_head? hc)).2,
    fun c hc => (hall c (List.mem_of_mem_getLast? hc)).2⟩
  cases cs with
  | nil => exact absurd h (by decide)
  | cons c cs =>
    obtain ⟨n, hn⟩ := Nat.exists_eq_succ_of_ne_zero h.ne'
    rw [hn, List.take_succ_cons]
    exact List.cons_ne_nil _ _

/-- A lexeme of kind `text` is the text ahead. -/
theorem inTemplate_of_text {cs : List Char} :
    (inTemplate cs).kind = .text → (inTemplate cs).length = textFrom 0 cs := by
  unfold inTemplate templateCloseOr blanksOr
  repeat' split
  all_goals first
    | exact fun _ => rfl
    | (intro h; cases h)

end Lexeme

/-- Every token of a file is read at some place of it, by splitting the run there. -/
theorem exists_place {source : String} {t : Token}
    (ht : t ∈ (Scanner.ofSource source).toEnd.1.toList) :
    ∃ done rest state, rest ≠ [] ∧ source.toList = done ++ rest ∧
      t = (Scanner.behind done rest state).next.1 := by
  obtain ⟨before, behind, hsplit⟩ := List.append_of_mem ht
  have hreads := (Scanner.ofSource source).reads_toEnd
  rw [hsplit, Scanner.ofSource_eq_behind] at hreads
  obtain ⟨s, hbefore, hhere⟩ := hreads.split
  obtain ⟨mid, rest, hrest, hs⟩ := hbefore.exists_behind
  obtain ⟨htoken, hmove, -⟩ := hhere.of_cons
  refine ⟨mid, rest, s.state, ?_, hrest, ?_⟩
  · have hahead := Scanner.rest_ne_nil_of_moves hmove
    rw [hs] at hahead
    exact hahead
  · rw [htoken]
    conv => lhs; rw [hs]
    rfl

/-- Where a token of text stands, text stands in the source, and `textFrom` finds no more behind
it. -/
theorem exists_text {source : String} {t : Token} (ht : t ∈ significantTokens source)
    (hkind : t.kind = .text) :
    ∃ done rest, source.toList = done ++ rest ∧ 0 < Lexeme.textFrom 0 rest ∧
      t.span = ⟨utf8Len done, utf8Len (done ++ rest.take (Lexeme.textFrom 0 rest))⟩ := by
  have hnonempty := ((spaced_significantTokens source).mem (List.mem_map_of_mem ht)).2.1
  obtain ⟨done, rest, state, hrest, hsource, rfl⟩ := exists_place (List.mem_of_mem_filter ht)
  rw [Scanner.next_behind hrest] at hkind hnonempty ⊢
  dsimp only at hkind hnonempty ⊢
  have hstep := lex_transition state done.getLast? hrest
  obtain ⟨mode, last⟩ := state
  -- only `textFrom` makes a text, and only in template mode; the other kinds in the table are no
  -- text
  have hmode : mode = .template := by
    rw [hkind] at hstep
    generalize (lex ⟨mode, last⟩ done.getLast? rest).mode = n at hstep
    cases hstep with
    | text => rfl
    | expression h | keyword h | plainExpression h => exact absurd h (by decide)
  subst hmode
  have hlength : (lex ⟨.template, last⟩ done.getLast? rest).length = Lexeme.textFrom 0 rest :=
    Lexeme.inTemplate_of_text hkind
  rw [hlength] at hnonempty ⊢
  refine ⟨done, rest, hsource, Nat.pos_of_ne_zero fun hzero => ?_, rfl⟩
  rw [hzero, List.take_zero, List.append_nil] at hnonempty
  exact Nat.lt_irrefl _ hnonempty

/-! ### Runs of tokens -/

/-- The span covers a text (`TextChars`), and what stands behind it is no text. -/
def TextRun (source : String) (s : Span) : Prop :=
  ∃ before inside behind, source.toList = before ++ inside ++ behind ∧
    s = ⟨utf8Len before, utf8Len (before ++ inside)⟩ ∧ TextChars inside ∧
      Lexeme.textFrom 0 behind = 0

namespace TextRun

variable {source : String} {s : Span} {t : Token}

theorem of_text (ht : t ∈ significantTokens source) (hkind : t.kind = .text) :
    TextRun source t.span := by
  obtain ⟨done, rest, hsource, hpos, hspan⟩ := exists_text ht hkind
  refine ⟨done, rest.take _, rest.drop _, ?_, hspan, Lexeme.textChars_take hpos,
    Lexeme.textFrom_drop rest⟩
  rw [List.append_assoc, List.take_append_drop]
  exact hsource

/-- A token of text that follows behind blanks becomes part of the run, by `TextChars.join`; the
blanks are not empty, since no text is behind the run. -/
theorem cover (h : TextRun source s) (ht : t ∈ significantTokens source) (hkind : t.kind = .text)
    (hgap : Blank source s.stop t.span.start) : TextRun source (s.cover t.span) := by
  obtain ⟨before, inside, behind, hsource, rfl, hplain, hbehind⟩ := h
  obtain ⟨done, rest, hsource', hpos, hspan⟩ := exists_text ht hkind
  rw [hspan] at hgap ⊢
  obtain ⟨front, gap, back, hsplit, hfront, hback, hblank⟩ := hgap
  -- the three of them cut the source at the same places
  rw [List.append_assoc front, hsource] at hsplit
  obtain ⟨rfl, hfrom⟩ := eq_of_utf8Len_eq hsplit hfront
  subst hfrom
  have hsource'' : source.toList = (before ++ inside ++ gap) ++ back := by
    rw [hsource, List.append_assoc (before ++ inside)]
  obtain ⟨rfl, rfl⟩ := eq_of_utf8Len_eq (hsource'.symm.trans hsource'') hback
  have hne : gap ≠ [] := by
    rintro rfl
    rw [List.nil_append] at hbehind
    omega
  refine ⟨before, inside ++ gap ++ rest.take (Lexeme.textFrom 0 rest),
    rest.drop (Lexeme.textFrom 0 rest), ?_, ?_, hplain.join hblank hne (Lexeme.textChars_take hpos),
    Lexeme.textFrom_drop rest⟩
  · rw [hsource']
    conv => lhs; rw [← List.take_append_drop (Lexeme.textFrom 0 rest) rest]
    simp only [List.append_assoc]
  · unfold Span.cover
    simp only [String.utf8Len_append, Span.mk.injEq]
    omega

/-- So do all that follow each other, by induction on the tokens. -/
theorem foldl {more : List Token} {behind : List Span} {b : Nat} (h : TextRun source s)
    (hmem : ∀ t ∈ more, t ∈ significantTokens source) (hkinds : ∀ t ∈ more, t.kind = .text)
    (hspaced : Spaced source s.stop (more.map Token.span ++ behind) b) :
    TextRun source (more.foldl (fun s t => s.cover t.span) s) := by
  induction more generalizing s with
  | nil => exact h
  | cons t more ih =>
    obtain ⟨ht, hmem⟩ := List.forall_mem_cons.mp hmem
    obtain ⟨hkind, hkinds⟩ := List.forall_mem_cons.mp hkinds
    cases hspaced with
    | span gap nonempty rest =>
      -- the run ends with its last token now
      have hstop : (s.cover t.span).stop = t.span.stop :=
        Nat.max_eq_right (Nat.le_trans gap.le (Nat.le_of_lt nonempty))
      exact ih (h.cover ht hkind gap) hmem hkinds (hstop ▸ rest)

end TextRun

end RsxInspect
