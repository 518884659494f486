import RsxInspect.Proofs.Lexeme.Transition
import RsxInspect.Proofs.Scan.Run
import RsxInspect.Proofs.Text.Measure

/-!
# Spacing of tokens

Blanks are the only characters between the significant tokens of a scan. `Spaced source a spans b`
says this of any list of spans: they follow each other from offset `a` to offset `b`, none of them
is empty, and nothing but blanks stands before, between and behind them.

The bricks are one lemma for each rule of the scanner, which says that a lexeme of kind `whitespace`
is made of blanks (`BlankRun`), and lemmas that take spaced spans apart and put them together
(`Spaced.split`, `Spaced.trans`, `Spaced.merge`). `Reads.spaced` is the run: by induction on it,
each token is a blank stretch or one more span.
-/

namespace RsxInspect

open String (utf8Len)

/-! ### Runs of blanks

One lemma for each rule: where it takes blanks, it takes all there are, so the blanks between two
tokens are one token. -/

namespace Lexeme

variable {cs : List Char}

/-- A lexeme of kind `whitespace` is the run of blanks ahead; one of another kind may be
anything. -/
def BlankRun (cs : List Char) (x : Lexeme) : Prop :=
  x.kind = .whitespace → x.length = Text.blanks cs

theorem BlankRun.of_kind {x : Lexeme} (h : x.kind ≠ .whitespace) : BlankRun cs x :=
  fun hx => absurd hx h

theorem blankRun_bad (mode : Mode) : BlankRun cs (bad mode) := .of_kind (by simp [bad])

theorem blankRun_blanksOr {mode : Mode} {other : Lexeme} (h : BlankRun cs other) :
    BlankRun cs (blanksOr mode cs other) := by
  unfold blanksOr
  split
  · intro _
    rfl
  · exact h

theorem blankRun_templateCloseOr {other : Lexeme} (h : BlankRun cs other) :
    BlankRun cs (templateCloseOr cs other) := by
  unfold templateCloseOr
  split
  · exact .of_kind (by simp)
  · exact h

theorem blankRun_betweenSections : BlankRun cs (betweenSections cs) := by
  unfold betweenSections
  repeat' split
  all_goals first
    | exact blankRun_blanksOr (blankRun_bad _)
    | exact .of_kind (by simp [sectionOpen])

theorem blankRun_inTemplate : BlankRun cs (inTemplate cs) := by
  refine blankRun_templateCloseOr ?_
  repeat' split
  all_goals first
    | exact blankRun_blanksOr (.of_kind (by simp))
    | exact .of_kind (by simp)

theorem blankRun_inStartTag {last : Option TokenKind} : BlankRun cs (inStartTag last cs) := by
  refine blankRun_templateCloseOr (blankRun_blanksOr ?_)
  repeat' split
  all_goals first
    | exact blankRun_bad _
    | exact .of_kind (by simp)

theorem blankRun_inAttributeValue {last : Option TokenKind} :
    BlankRun cs (inAttributeValue last cs) := by
  refine blankRun_templateCloseOr (blankRun_blanksOr ?_)
  repeat' split
  all_goals first
    | exact blankRun_bad _
    | exact blankRun_inStartTag
    | exact .of_kind (by simp)

theorem blankRun_inEndTag : BlankRun cs (inEndTag cs) := by
  refine blankRun_templateCloseOr (blankRun_blanksOr ?_)
  repeat' split
  all_goals first
    | exact blankRun_bad _
    | exact .of_kind (by simp)

theorem blankRun_inExpression : BlankRun cs (inExpression cs) := by
  refine blankRun_templateCloseOr (blankRun_blanksOr ?_)
  split
  · exact .of_kind (by simp)
  · split
    · rename_i hop
      exact .of_kind (kind_ne_of_operator hop)
    · repeat' split
      all_goals first
        | exact blankRun_bad _
        | exact .of_kind (expressionKeyword_ne _)
        | exact .of_kind (by simp)

theorem blankRun_inDirective : BlankRun cs (inDirective cs) := by
  refine blankRun_templateCloseOr (blankRun_blanksOr ?_)
  split
  · exact .of_kind (by simp)
  · split
    · exact .of_kind (by simp)
    · split
      · rename_i hkeyword
        exact .of_kind (kind_ne_of_keyword hkeyword)
      · exact blankRun_inExpression

end Lexeme

theorem lex_length_of_whitespace {state : LexState} {before : Option Char} {cs : List Char}
    (h : (lex state before cs).kind = .whitespace) :
    (lex state before cs).length = Text.blanks cs := by
  revert h
  show Lexeme.BlankRun cs (lex state before cs)
  obtain ⟨mode, last⟩ := state
  -- the code modes never make whitespace, and in the others the rule for blanks takes all of them
  cases mode with
  | initial => exact Lexeme.blankRun_betweenSections
  | frontMatter =>
    show Lexeme.BlankRun cs (Lexeme.inFrontMatter before cs)
    unfold Lexeme.inFrontMatter
    split <;> exact .of_kind (by simp)
  | script =>
    show Lexeme.BlankRun cs (Lexeme.inCode _ _ _ _ cs)
    unfold Lexeme.inCode
    split <;> exact .of_kind (by simp)
  | template => exact Lexeme.blankRun_inTemplate
  | style =>
    show Lexeme.BlankRun cs (Lexeme.inCode _ _ _ _ cs)
    unfold Lexeme.inCode
    split <;> exact .of_kind (by simp)
  | tagOpen => exact Lexeme.blankRun_inStartTag
  | tagAttributeValue => exact Lexeme.blankRun_inAttributeValue
  | tagClose => exact Lexeme.blankRun_inEndTag
  | interpolation => exact Lexeme.blankRun_inExpression
  | directive => exact Lexeme.blankRun_inDirective

/-! ### Blank stretches of a source -/

/-- Nothing but blanks stands between the offsets `a` and `b`, which are boundaries of the
source. -/
def Blank (source : String) (a b : Nat) : Prop :=
  ∃ done gap rest, source.toList = done ++ gap ++ rest ∧ a = utf8Len done ∧
    b = utf8Len (done ++ gap) ∧ ∀ c ∈ gap, isBlank c = true

namespace Blank

variable {source : String} {a b c : Nat}

theorem le (h : Blank source a b) : a ≤ b := by
  obtain ⟨done, gap, rest, -, rfl, rfl, -⟩ := h
  rw [String.utf8Len_append]
  exact Nat.le_add_right _ _

theorem refl_of_left (h : Blank source a b) : Blank source a a := by
  obtain ⟨done, gap, rest, hsource, rfl, -, -⟩ := h
  exact ⟨done, [], gap ++ rest, by rw [hsource]; simp, rfl, by rw [List.append_nil], by simp⟩

theorem refl_of_right (h : Blank source a b) : Blank source b b := by
  obtain ⟨done, gap, rest, hsource, -, rfl, -⟩ := h
  exact ⟨done ++ gap, [], rest, by rw [hsource]; simp, rfl, by rw [List.append_nil], by simp⟩

end Blank

theorem Blank.trans {source : String} {a b c : Nat} (h : Blank source a b)
    (h' : Blank source b c) : Blank source a c := by
  obtain ⟨done, gap, rest, hsource, rfl, hb, hgap⟩ := h
  obtain ⟨done', gap', rest', hsource', rfl, rfl, hgap'⟩ := h'
  rw [hsource, List.append_assoc done' gap'] at hsource'
  obtain ⟨rfl, rfl⟩ := eq_of_utf8Len_eq hsource' hb.symm
  refine ⟨done, gap ++ gap', rest', by rw [hsource]; simp, rfl, by rw [List.append_assoc], ?_⟩
  intro c hc
  exact (List.mem_append.mp hc).elim (hgap c) (hgap' c)

/-! ### Spaced spans

Spans are `Spaced` if nothing but blanks stands between them. This is the form in which places are
handed on: it composes, splits, and has all spans in order. -/

/-- The spans follow each other between two offsets. None is empty, and only blanks (`Blank`) stand
before, between and behind them. -/
inductive Spaced (source : String) : Nat → List Span → Nat → Prop where
  | blank {a b : Nat} (gap : Blank source a b) : Spaced source a [] b
  | span {a b : Nat} {s : Span} {spans : List Span} (gap : Blank source a s.start)
      (nonempty : s.start < s.stop) (rest : Spaced source s.stop spans b) :
      Spaced source a (s :: spans) b

namespace Spaced

variable {source : String} {a b : Nat} {s : Span} {spans more : List Span}

theorem le (h : Spaced source a spans b) : a ≤ b := by
  induction h with
  | blank gap => exact gap.le
  | span gap nonempty _ ih => exact Nat.le_trans gap.le (Nat.le_trans (Nat.le_of_lt nonempty) ih)

theorem blank_trans {z : Nat} (hgap : Blank source z a) (h : Spaced source a spans b) :
    Spaced source z spans b := by
  cases h with
  | blank gap => exact .blank (hgap.trans gap)
  | span gap nonempty rest => exact .span (hgap.trans gap) nonempty rest

theorem trans {c : Nat} (h : Spaced source a spans b) (h' : Spaced source b more c) :
    Spaced source a (spans ++ more) c := by
  induction h with
  | blank gap => exact blank_trans gap h'
  | span gap nonempty _ ih => exact .span gap nonempty (ih h')

/-- A span of a `Spaced` list splits it into what ends at its start and what starts at its end. -/
theorem split (h : Spaced source a (spans ++ s :: more) b) :
    Spaced source a spans s.start ∧ s.start < s.stop ∧ Spaced source s.stop more b := by
  induction spans generalizing a with
  | nil =>
    cases h with
    | span gap nonempty rest => exact ⟨.blank gap, nonempty, rest⟩
  | cons t spans ih =>
    cases h with
    | span gap nonempty rest =>
      obtain ⟨hbefore, hs, hbehind⟩ := ih rest
      exact ⟨.span gap nonempty hbefore, hs, hbehind⟩

/-- The spans behind some of them are `Spaced` as well. -/
theorem behind (h : Spaced source a (spans ++ more) b) : ∃ c, Spaced source c more b := by
  induction spans generalizing a with
  | nil => exact ⟨a, h⟩
  | cons t spans ih =>
    cases h with
    | span _ _ rest => exact ih rest

theorem mem (h : Spaced source a spans b) (hs : s ∈ spans) :
    a ≤ s.start ∧ s.start < s.stop ∧ s.stop ≤ b := by
  obtain ⟨before, behind, rfl⟩ := List.append_of_mem hs
  obtain ⟨hbefore, hnonempty, hbehind⟩ := h.split
  exact ⟨hbefore.le, hnonempty, hbehind.le⟩

theorem blank_left (h : Spaced source a spans b) : Blank source a a := by
  cases h with
  | blank gap => exact gap.refl_of_left
  | span gap _ _ => exact gap.refl_of_left

theorem blank_right (h : Spaced source a spans b) : Blank source b b := by
  induction h with
  | blank gap => exact gap.refl_of_right
  | span _ _ _ ih => exact ih

/-- All spans of a `Spaced` list lie between the start of the first and the end of the last one. -/
theorem within {first last : Span} (h : Spaced source a spans b) (hfirst : spans.head? = some first)
    (hlast : spans.getLast? = some last) (hs : s ∈ spans) :
    first.start ≤ s.start ∧ s.stop ≤ last.stop := by
  constructor
  · obtain ⟨tail, rfl⟩ := List.head?_eq_some_iff.mp hfirst
    cases h with
    | span _ hnonempty rest =>
      rcases List.mem_cons.mp hs with rfl | hs'
      · exact Nat.le_refl _
      · exact Nat.le_trans (Nat.le_of_lt hnonempty) (rest.mem hs').1
  · obtain ⟨init, rfl⟩ := List.getLast?_eq_some_iff.mp hlast
    obtain ⟨hbefore, hnonempty, -⟩ := h.split
    rcases List.mem_append.mp hs with hs' | hs'
    · exact Nat.le_trans (hbefore.mem hs').2.2 (Nat.le_of_lt hnonempty)
    · rw [List.mem_singleton.mp hs']

/-- The spans up to one of them end where that ends. -/
theorem upTo_last (h : Spaced source a (spans ++ s :: more) b) :
    Spaced source a (spans ++ [s]) s.stop := by
  obtain ⟨hbefore, hnonempty, hbehind⟩ := h.split
  exact hbefore.trans (.span hbefore.blank_right hnonempty (.blank hbehind.blank_left))

/-- The span from the first to the last one of some spans in a row can stand for all of them, as
that of a node does for its tokens. -/
theorem merge {first last : Span} {inner : List Span}
    (h : Spaced source a (first :: inner ++ last :: more) b) :
    Spaced source a (⟨first.start, last.stop⟩ :: more) b := by
  obtain ⟨hbefore, hlast, hbehind⟩ := h.split
  cases hbefore with
  | span gap hfirst rest =>
    have hstarts : first.start < last.stop :=
      Nat.lt_trans hfirst (Nat.lt_of_le_of_lt rest.le hlast)
    exact .span gap hstarts hbehind

/-- Two spans of a `Spaced` list that share some bytes are the same. -/
theorem eq_of_overlap {t : Span} (h : Spaced source a spans b) (hs : s ∈ spans) (ht : t ∈ spans)
    (hst : s.start < t.stop) (hts : t.start < s.stop) : s = t := by
  induction h with
  | blank => cases hs
  | @span a b first spans gap nonempty rest ih =>
    rcases List.mem_cons.mp hs with heq | hs'
    · rcases List.mem_cons.mp ht with heq' | ht'
      · rw [heq, heq']
      · -- what follows starts behind the first one
        have := (rest.mem ht').1
        rw [heq] at hts
        omega
    · rcases List.mem_cons.mp ht with heq' | ht'
      · have := (rest.mem hs').1
        rw [heq'] at hst
        omega
      · exact ih hs' ht'

end Spaced

/-! ### Significant tokens

So the significant tokens of a source are spaced, from the induction over the calls of the scan. -/

/-- The tokens that are not blanks (`isTrivia`). Comments stay. -/
def significant (ts : List Token) : List Token := ts.filter (!·.kind.isTrivia)

/-- The tokens of a file that are not blanks. -/
def significantTokens (source : String) : List Token :=
  significant (Scanner.ofSource source).toEnd.1.toList

theorem significant_cons_of_blank {t : Token} {ts : List Token} (h : t.kind = .whitespace) :
    significant (t :: ts) = significant ts := by
  rw [significant, List.filter_cons_of_neg]
  · rfl
  · rw [h]
    decide

theorem significant_cons {t : Token} {ts : List Token} (h : t.kind ≠ .whitespace) :
    significant (t :: ts) = t :: significant ts := by
  rw [significant, List.filter_cons_of_pos]
  · rfl
  · simpa [TokenKind.isTrivia] using h

theorem significant_append (ts us : List Token) :
    significant (ts ++ us) = significant ts ++ significant us :=
  List.filter_append ts us

namespace Scanner

/-- Where the scanner stands in the source is a boundary, so an empty stretch of blanks starts
there. -/
theorem blank_here {source : String} {done rest : List Char} (h : source.toList = done ++ rest) :
    Blank source (utf8Len done) (utf8Len done) :=
  ⟨done, [], rest, by simpa using h, rfl, by rw [List.append_nil], by simp⟩

/-- The `significant` tokens of a run are `Spaced`, by induction on the run. -/
theorem Reads.spaced {source : String} {done rest : List Char} {state : LexState}
    {ts : List Token} {s' : Scanner} (hsource : source.toList = done ++ rest)
    (h : Reads (Scanner.behind done rest state) ts s') :
    Spaced source (utf8Len done) ((significant ts).map Token.span) s'.offset := by
  generalize hs : Scanner.behind done rest state = s at h
  induction h generalizing done rest state with
  | done s =>
    subst hs
    exact .blank (blank_here hsource)
  | step hmove _ ih =>
    subst hs
    have hend : rest ≠ [] := by
      rintro rfl
      rw [next_of_end rfl] at hmove
      exact Nat.lt_irrefl _ hmove
    generalize hx : lex state done.getLast? rest = x
    have hread : (Scanner.behind done rest state).next
        = (⟨x.kind, ⟨utf8Len done, utf8Len (done ++ rest.take x.length)⟩⟩,
          Scanner.behind (done ++ rest.take x.length) (rest.drop x.length)
            (stateAfter state x)) := by
      rw [next_behind hend, hx]
    rw [hread] at hmove ih ⊢
    have hsource' : source.toList = (done ++ rest.take x.length) ++ rest.drop x.length := by
      rw [List.append_assoc, List.take_append_drop]
      exact hsource
    have hrest := ih hsource' rfl
    by_cases hkind : x.kind = .whitespace
    · -- a token of blanks adds to the gap in front of what follows
      rw [significant_cons_of_blank hkind]
      have hlength : x.length = Text.blanks rest := by
        rw [← hx]
        exact lex_length_of_whitespace (by rw [hx]; exact hkind)
      refine Spaced.blank_trans ⟨done, rest.take x.length, rest.drop x.length, hsource', rfl, rfl,
        ?_⟩ hrest
      intro c hc
      rw [hlength, Text.blanks, Text.take_countWhile] at hc
      exact List.all_eq_true.mp List.all_takeWhile c hc
    · rw [significant_cons hkind, List.map_cons]
      exact .span (blank_here hsource) hmove hrest

end Scanner

/-- The `significantTokens` of a file are `Spaced` from its start to where the scan stops. -/
theorem spaced_significantTokens (source : String) :
    Spaced source 0 ((significantTokens source).map Token.span)
      (Scanner.ofSource source).toEnd.2.offset := by
  have hreads := (Scanner.ofSource source).reads_toEnd
  rw [Scanner.ofSource_eq_behind] at hreads ⊢
  have hsource : source.toList = [] ++ source.toList := rfl
  have h := hreads.spaced hsource
  rw [String.utf8Len_nil, ← Scanner.ofSource_eq_behind] at h
  rw [← Scanner.ofSource_eq_behind]
  exact h

/-- Two tokens of a file that share some bytes are the same, as spans of one spaced list are. -/
theorem eq_of_overlap {source : String} {t u : Token} (ht : t ∈ significantTokens source)
    (hu : u ∈ significantTokens source) (htu : t.span.start < u.span.stop)
    (hut : u.span.start < t.span.stop) : t = u := by
  obtain ⟨before, behind, hsplit⟩ := List.append_of_mem ht
  have hspaced := spaced_significantTokens source
  rw [hsplit, List.map_append, List.map_cons] at hspaced
  obtain ⟨hbefore, -, hbehind⟩ := hspaced.split
  rw [hsplit] at hu
  rcases List.mem_append.mp hu with hu | hu
  · have := hbefore.mem (List.mem_map_of_mem hu)
    omega
  · rcases List.mem_cons.mp hu with rfl | hu
    · rfl
    · have := hbehind.mem (List.mem_map_of_mem hu)
      omega

end RsxInspect
