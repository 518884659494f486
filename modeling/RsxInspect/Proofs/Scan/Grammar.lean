import RsxInspect.Document
import RsxInspect.Proofs.Scan.Locality
import RsxInspect.Proofs.Lexeme.Append

/-!
# The grammar of token streams

The kinds of the tokens that a scan reads obey a grammar of their own, which knows nothing of modes:
`Follows ks k` says that a token of kind `k` may come behind tokens of the kinds `ks`. Code stands
between the delimiters of its section; names, attribute values, keywords and operands stand in tags
and braces that were opened before. `obeysGrammar_take` says that the tokens of a file obey it.

The proof keeps one invariant along the calls of the scanner, `Scanner.Context`: the mode tells
which section is open (`Mode.section?`), and which tokens may have come since the tag or the braces
were opened (`Mode.within?`). Both are kept by each transition of the modes (`section?_eq`,
`within?_eq`), so a token that is read may follow those before it (`Context.follows`), and the
invariant goes on (`Context.next`).
-/

namespace RsxInspect

/-! ### The grammar

All of it is said of the kinds that came before, the last of which is the latest. -/

namespace TokenKind

/-- What may stand in a start tag, behind its `<` and in front of what ends it. -/
def inStartTag : TokenKind → Bool
  | tagName | attrName | equals | attrValue | badCharacter | whitespace => true
  | _ => false

/-- What may stand in an end tag, behind its `</` and in front of what ends it. -/
def inEndTag : TokenKind → Bool
  | tagName | badCharacter | whitespace => true
  | _ => false

/-- What may stand between braces: tokens of an expression, keywords of a directive, bad characters
and blanks. -/
def inBraces (k : TokenKind) : Bool :=
  k.isExpression || k.isDirective || k == badCharacter || k == whitespace

end TokenKind

/-- The section that is open behind a token, if `outer?` was open in front of it: an opening token
opens its section, what closes the open one ends it. -/
def SectionKind.behind (outer? : Option SectionKind) (k : TokenKind) : Option SectionKind :=
  match outer? with
  | none => Document.sectionOpenedBy? k
  | some s => if k = (Document.codeKinds s).2 then none else some s

/-- The section that is open behind tokens of the given kinds, if one is: `SectionKind.behind` from
left to right. -/
def openSection? (ks : List TokenKind) : Option SectionKind :=
  ks.foldl SectionKind.behind none

/-- The last one of the kinds, blanks aside (`isTrivia`). -/
def lastSignificant? (ks : List TokenKind) : Option TokenKind :=
  (ks.filter (!·.isTrivia)).getLast?

/-- A token of kind `opener` has been read, and since then only tokens that `inner` allows. -/
def Within (opener : TokenKind) (inner : TokenKind → Bool) (ks : List TokenKind) : Prop :=
  ∃ front more, ks = front ++ opener :: more ∧ ∀ k ∈ more, inner k = true

/-- The last token opened the section `s`, so its code or its markup starts right here. -/
def JustOpened (s : SectionKind) (ks : List TokenKind) : Prop :=
  ∃ front opener, ks = front ++ [opener] ∧ openSection? front = none ∧
    Document.sectionOpenedBy? opener = some s

/-- A token of kind `k` may come behind tokens of the kinds `ks`. There is one field for each group
of kinds. -/
structure Follows (ks : List TokenKind) (k : TokenKind) : Prop where
  /-- Between sections stand blanks, bad characters and what opens a section. -/
  between : openSection? ks = none →
    k = .eof ∨ k = .whitespace ∨ k = .badCharacter ∨ (Document.sectionOpenedBy? k).isSome = true
  /-- Code stands right behind the opening token of its section. -/
  code : ∀ s ≠ SectionKind.template, k = (Document.codeKinds s).1 → JustOpened s ks
  /-- Right behind the code stands the closing token of its section. -/
  close : ∀ s ≠ SectionKind.template, ks.getLast? = some (Document.codeKinds s).1 →
    k = (Document.codeKinds s).2 ∨ k = .eof
  /-- The name of a tag stands right behind `<`, or in an end tag. -/
  tagName : k = .tagName → openSection? ks = some .template ∧
    (lastSignificant? ks = some .tagOpen ∨ Within .tagEndOpen TokenKind.inEndTag ks)
  /-- Attributes and the mark of a tag that closes itself stand in a start tag that has not ended. -/
  attr : k ∈ [.attrName, .equals, .attrValue, .selfClose] →
    openSection? ks = some .template ∧ Within .tagOpen TokenKind.inStartTag ks
  /-- The keyword of a directive stands right behind opening braces. -/
  directive : k.isDirective = true →
    openSection? ks = some .template ∧ lastSignificant? ks = some .interpolationOpen
  /-- Expressions stand between braces that have not been closed. -/
  expression : k.isExpression = true →
    openSection? ks = some .template ∧ Within .interpolationOpen TokenKind.inBraces ks

/-- Each of the kinds may come behind those in front of it, as `Follows` has it. -/
def ObeysGrammar (ks : List TokenKind) : Prop :=
  ∀ before k behind, ks = before ++ k :: behind → Follows before k

/-! ### One more token

What may come next depends on the section that is open and on the last token that is no blank. Both
are functions of the tokens so far, and there is one equation for each when a token is added. -/

section Append

variable {ks : List TokenKind} {k : TokenKind}

theorem openSection?_append (ks : List TokenKind) (k : TokenKind) :
    openSection? (ks ++ [k]) = SectionKind.behind (openSection? ks) k := by
  simp [openSection?]

theorem lastSignificant?_append (ks : List TokenKind) (k : TokenKind) :
    lastSignificant? (ks ++ [k]) = if k.isTrivia then lastSignificant? ks else some k := by
  unfold lastSignificant?
  split <;> simp_all

theorem Within.append {opener : TokenKind} {inner : TokenKind → Bool} (h : Within opener inner ks)
    (hk : inner k = true) : Within opener inner (ks ++ [k]) := by
  obtain ⟨front, more, rfl, hmore⟩ := h
  refine ⟨front, more ++ [k], by simp, fun k' hk' => ?_⟩
  rcases List.mem_append.mp hk' with hk' | hk'
  · exact hmore k' hk'
  · rw [List.mem_singleton.mp hk']
    exact hk

/-- At the end of the input everything may have come before. -/
theorem follows_eof (ks : List TokenKind) : Follows ks .eof where
  between _ := .inl rfl
  code s hs hk := by cases s <;> cases hk
  close _ _ _ := .inr rfl
  tagName h := by cases h
  attr h := by simp at h
  directive h := by cases h
  expression h := by cases h

theorem ObeysGrammar.append (h : ObeysGrammar ks) (hk : Follows ks k) : ObeysGrammar (ks ++ [k]) := by
  intro before k' behind hsplit
  cases behind using List.reverseRecOn with
  | nil =>
    obtain ⟨rfl, hkk⟩ := List.append_inj' hsplit rfl
    cases hkk
    exact hk
  | append_singleton behind last =>
    rw [← List.cons_append, ← List.append_assoc] at hsplit
    obtain ⟨rfl, -⟩ := List.append_inj' hsplit rfl
    exact h before k' behind rfl

end Append

/-! ### What modes say of the tokens before

A mode belongs to one section at most, and to one tag or pair of braces. -/

namespace Mode

/-- The section that a mode belongs to, none for `initial`. -/
def section? : Mode → Option SectionKind
  | initial => none
  | frontMatter => some .frontMatter
  | script => some .script
  | style => some .style
  | _ => some .template

/-- The token that opened the tag or the braces of a mode, and what may stand in them. -/
def within? : Mode → Option (TokenKind × (TokenKind → Bool))
  | tagOpen | tagAttributeValue => some (.tagOpen, TokenKind.inStartTag)
  | tagClose => some (.tagEndOpen, TokenKind.inEndTag)
  | directive | interpolation => some (.interpolationOpen, TokenKind.inBraces)
  | _ => none

end Mode

namespace Transition

variable {m n : Mode} {k : TokenKind}

/-- The mode behind a token belongs to the section that is open there. The cases are those of
`Transition`. -/
theorem section?_eq (h : Transition m k n) : SectionKind.behind m.section? k = n.section? := by
  -- no expression and no keyword closes a template
  have hopen : k.isExpression = true ∨ k.isDirective = true →
      SectionKind.behind (some .template) k = some .template := by
    cases k <;> decide
  cases h with
  | expression h => exact hopen (.inl h)
  | keyword h => exact hopen (.inr h)
  | plainExpression h => exact hopen (.inl h)
  | _ => rfl

/-- A tag or braces go on, or are opened: what `within?` says of the next mode it said before, and
`k` is allowed, or `k` is the opener. -/
theorem within?_eq (h : Transition m k n) {opener : TokenKind} {inner : TokenKind → Bool}
    (hn : n.within? = some (opener, inner)) :
    k = opener ∨ (m.within? = some (opener, inner) ∧ inner k = true) := by
  cases h with
  | expression h | keyword h | plainExpression h =>
    cases hn
    exact .inr ⟨rfl, by simp [TokenKind.inBraces, h]⟩
  | _ => cases hn <;> first | exact .inl rfl | exact .inr ⟨rfl, rfl⟩

/-- Keywords are looked for right behind opening braces: the mode `.directive` comes from there, or
stays over blanks. -/
theorem behind_braces (h : Transition m k .directive) :
    k = .interpolationOpen ∨ (m = .directive ∧ k.isTrivia = true) := by
  cases h with
  | directiveBraces => exact .inl rfl
  | blankDirective => exact .inr ⟨rfl, rfl⟩

theorem between (h : Transition .initial k n) :
    k = .whitespace ∨ k = .badCharacter ∨ (Document.sectionOpenedBy? k).isSome = true := by
  cases h <;> simp [Document.sectionOpenedBy?]

/-- The kinds that an expression or a directive does not share with anything else are read between
braces (`Mode.within?`). -/
theorem within_braces (h : Transition m k n)
    (hk : k.isExpression = true ∨ k.isDirective = true) :
    m.section? = some .template ∧ m.within? = some (.interpolationOpen, TokenKind.inBraces) := by
  cases h with
  | expression | plainExpression | keyword => exact ⟨rfl, rfl⟩
  | _ => exact absurd hk (by decide)

/-- Attributes are read in start tags only. -/
theorem within_tag (h : Transition m k n)
    (hk : k ∈ [.attrName, .equals, .attrValue, .selfClose]) :
    m.section? = some .template ∧ m.within? = some (.tagOpen, TokenKind.inStartTag) := by
  have hplain : k.isExpression = false ∧ k.isDirective = false := by
    revert hk
    cases k <;> decide
  cases h with
  | expression h | plainExpression h => exact absurd h (by simp [hplain])
  | keyword h => exact absurd h (by simp [hplain])
  | equals | looseValue | attrName | selfClose | value | valueSelfClose => exact ⟨rfl, rfl⟩
  | _ => exact absurd hk (by decide)

/-- The name of a tag is read in a start tag or in an end tag. -/
theorem within_name (h : Transition m .tagName n) : m = .tagOpen ∨ m = .tagClose := by
  cases h with
  | startTagName => exact .inl rfl
  | endTagName => exact .inr rfl
  | expression h | keyword h | plainExpression h => cases h

/-- A section of code goes on, or is opened from between sections (`Document.sectionOpenedBy?`). -/
theorem code_cases (h : Transition m k n) {s : SectionKind} (hs : s ≠ .template)
    (hn : n.section? = some s) :
    m = n ∨ (m.section? = none ∧ Document.sectionOpenedBy? k = some s) := by
  cases h with
  | fenceOpen | scriptOpen | styleOpen =>
    cases hn
    exact .inr ⟨rfl, rfl⟩
  | frontMatterCode | scriptCode | styleCode => exact .inl rfl
  | _ => cases hn <;> exact absurd rfl hs

/-- Code (`Document.codeKinds`) is read in the mode of its section and leaves it there. -/
theorem code_mode (h : Transition m k n) {s : SectionKind} (hs : s ≠ .template)
    (hk : k = (Document.codeKinds s).1) : m.section? = some s ∧ n = m := by
  have hplain : k.isExpression = false ∧ k.isDirective = false := by
    rw [hk]
    cases s <;> decide
  cases h with
  | expression h | plainExpression h => exact absurd h (by simp [hplain])
  | keyword h => exact absurd h (by simp [hplain])
  | frontMatterCode | scriptCode | styleCode =>
    cases s <;> first | exact ⟨rfl, rfl⟩ | cases hk
  | text =>
    cases s <;> first | exact absurd rfl hs | cases hk
  | _ => cases s <;> cases hk

end Transition

/-! ### Code and its end

Code runs up to what closes it, so behind code stands the closing delimiter or the end. -/

/-- Behind the code of a script or style (`Text.upTo`) its closing tag stands, or nothing. -/
theorem Text.mark_behind_upTo {mark cs : List Char} (hmark : mark ≠ []) :
    cs.drop (Text.upTo mark cs).length = [] ∨ mark <+: cs.drop (Text.upTo mark cs).length := by
  unfold Text.upTo
  cases hindex : Text.indexOf? mark cs with
  | none => exact .inl List.drop_length
  | some k => exact .inr ((Text.indexOf?_eq_some_iff hmark).mp hindex).1

/-- Up to the closing tag of a script or style: the rule reads the tag if it stands ahead, and else
the code in front of it. -/
theorem inCode_cases {close : List Char} (closeKind code : TokenKind) (m : Mode) (cs : List Char)
    (hclose : close ≠ []) :
    let x := Lexeme.inCode close closeKind code m cs
    if close.isPrefixOf cs then x.kind = closeKind
    else x.kind = code ∧
      (cs.drop x.length = [] ∨ close.isPrefixOf (cs.drop x.length) = true) := by
  unfold Lexeme.inCode
  split
  · rfl
  · simp only [List.isPrefixOf_iff_prefix]
    exact ⟨trivial, Text.mark_behind_upTo hclose⟩

/-- Up to the closing fence, with the lengths that `codeLength` gives. -/
theorem inFrontMatter_cases (before : Option Char) (cs : List Char) :
    let x := Lexeme.inFrontMatter before cs
    if Delimiter.fence.isPrefixOf cs then x.kind = .frontMatterDelimiter
    else x.kind = .frontMatterCode ∧
      (cs.drop x.length = [] ∨ Delimiter.fence.isPrefixOf (cs.drop x.length) = true) := by
  unfold Lexeme.inFrontMatter
  split
  · rfl
  · refine ⟨rfl, ?_⟩
    rcases Nat.lt_or_ge (FrontMatter.codeLength before cs) cs.length with hlt | hge
    · exact .inr (List.isPrefixOf_iff_prefix.mpr (FrontMatter.fence_behind_code hlt))
    · exact .inl (List.drop_eq_nil_of_le hge)

/-- In the mode of a section of code, the closing mark is read where it stands, and elsewhere all
the code up to it. The two rules agree in this. -/
theorem lex_code {state : LexState} (before : Option Char) (cs : List Char) {s : SectionKind}
    (hs : s ≠ .template) (hmode : state.mode.section? = some s) :
    let x := lex state before cs
    if state.mode.closing.isPrefixOf cs then x.kind = (Document.codeKinds s).2
    else x.kind = (Document.codeKinds s).1 ∧
      (cs.drop x.length = [] ∨ state.mode.closing.isPrefixOf (cs.drop x.length) = true) := by
  obtain ⟨mode, last⟩ := state
  -- only the three code sections are left; each has one rule with two outcomes
  cases mode with
  | initial => cases hmode
  | frontMatter =>
    cases hmode
    exact inFrontMatter_cases before cs
  | script =>
    cases hmode
    exact inCode_cases _ _ _ cs (List.cons_ne_nil _ _)
  | style =>
    cases hmode
    exact inCode_cases _ _ _ cs (List.cons_ne_nil _ _)
  | template | tagOpen | tagAttributeValue | tagClose | interpolation | directive =>
    cases hmode
    exact absurd rfl hs

/-- Only right behind `<` a name in a start tag is that of the tag, which is what `LexState.last` is
kept for. -/
theorem Lexeme.last_of_tagName {last : Option TokenKind} {cs : List Char}
    (h : (inStartTag last cs).kind = .tagName) : last = some .tagOpen := by
  unfold inStartTag templateCloseOr blanksOr at h
  repeat' split at h
  all_goals first
    | assumption
    | simp_all [bad]

/-! ### The scan

At the end of the input `Eof` may come behind anything, so the invariant is about the calls before
it. -/

namespace Scanner

/-- What is known of a scanner that has read tokens of the kinds `ks` and is not at the end: its
`last`, its section, what came since the tag or the braces were opened, and what code may start. -/
structure Context (ks : List TokenKind) (s : Scanner) : Prop where
  last : s.state.last = lastSignificant? ks
  openSection : openSection? ks = s.state.mode.section?
  within : ∀ opener inner, s.state.mode.within? = some (opener, inner) → Within opener inner ks
  directive : s.state.mode = .directive → lastSignificant? ks = some .interpolationOpen
  /-- A section of code was just opened, or its closing mark is ahead. -/
  code : ∀ sk ≠ SectionKind.template, s.state.mode.section? = some sk →
    JustOpened sk ks ∨ s.state.mode.closing.isPrefixOf s.cursor.rest = true
  behindCode : ∀ sk ≠ SectionKind.template, ks.getLast? = some (Document.codeKinds sk).1 →
    s.state.mode.section? = some sk

variable {s : Scanner} {ks : List TokenKind}

theorem context_ofSource (source : String) : Context [] (ofSource source) where
  last := rfl
  openSection := rfl
  within _ _ h := by cases h
  directive h := by cases h
  code _ _ h := by cases h
  behindCode _ _ h := by cases h

/-- No code is an opening token, so no section is `JustOpened` behind it. -/
theorem not_justOpened {sk sk' : SectionKind} (hsk : sk ≠ .template)
    (h : ks.getLast? = some (Document.codeKinds sk).1) : ¬ JustOpened sk' ks := by
  rintro ⟨front, opener, rfl, -, hopens⟩
  rw [List.getLast?_concat, Option.some.injEq] at h
  rw [h] at hopens
  cases sk <;> cases hopens

/-- A token that is read may come behind those before it: the kind is one that a `Transition` of the
mode gives, and `Context` says what the mode means. -/
theorem Context.follows (h : s.Context ks) (hrest : s.cursor.rest ≠ []) :
    Follows ks s.next.1.kind := by
  have hstep := lex_transition s.state s.cursor.before hrest
  have hcode := @lex_code s.state s.cursor.before s.cursor.rest
  rw [next_of_rest hrest]
  generalize hx : lex s.state s.cursor.before s.cursor.rest = x at hstep hcode
  show Follows ks x.kind
  -- one clause of the grammar after the other, each from the transitions that give its kinds
  refine ⟨fun hopen => ?_, fun sk hs hk => ?_, fun sk hs hlast => ?_, fun hk => ?_, fun hk => ?_,
    fun hk => ?_, fun hk => ?_⟩
  · -- where no section is open the mode is that between sections
    have hmode : s.state.mode = .initial := by
      rw [h.openSection] at hopen
      revert hopen
      cases s.state.mode <;> simp [Mode.section?]
    rw [hmode] at hstep
    exact .inr hstep.between
  · -- in front of its closing mark no code would be read
    have hmode := (hstep.code_mode hs hk).1
    refine (h.code sk hs hmode).resolve_right fun hahead => ?_
    have hclose := hcode hs hmode
    simp only [if_pos hahead] at hclose
    rw [hclose] at hk
    cases sk <;> cases hk
  · -- behind code the section is not just opened, so its closing mark is ahead
    have hmode := h.behindCode sk hs hlast
    have hahead := (h.code sk hs hmode).resolve_left (not_justOpened hs hlast)
    have hclose := hcode hs hmode
    simp only [if_pos hahead] at hclose
    exact .inl hclose
  · rcases (hk ▸ hstep).within_name with hmode | hmode
    · -- in a start tag the lexer looks at the last token
      have hlex : lex s.state s.cursor.before s.cursor.rest
          = Lexeme.inStartTag s.state.last s.cursor.rest := by
        unfold lex
        rw [hmode]
      rw [hlex] at hx
      refine ⟨by rw [h.openSection, hmode]; rfl, .inl ?_⟩
      rw [← h.last]
      exact Lexeme.last_of_tagName (by rw [hx, hk])
    · refine ⟨by rw [h.openSection, hmode]; rfl, .inr (h.within _ _ ?_)⟩
      rw [hmode]
      rfl
  · obtain ⟨hsection, hwithin⟩ := hstep.within_tag hk
    exact ⟨h.openSection.trans hsection, h.within _ _ hwithin⟩
  · have hmode := hstep.eq_directive hk
    exact ⟨by rw [h.openSection, hmode]; rfl, h.directive hmode⟩
  · obtain ⟨hsection, hwithin⟩ := hstep.within_braces (.inl hk)
    exact ⟨h.openSection.trans hsection, h.within _ _ hwithin⟩

/-- Behind a token that is not the last one the same is known (`Context`), of one kind more. -/
theorem Context.next (h : s.Context ks) (hrest : s.cursor.rest ≠ [])
    (hrest' : s.next.2.cursor.rest ≠ []) : s.next.2.Context (ks ++ [s.next.1.kind]) := by
  have hstep := lex_transition s.state s.cursor.before hrest
  have hcode := @lex_code s.state s.cursor.before s.cursor.rest
  rw [next_of_rest hrest] at hrest' ⊢
  generalize lex s.state s.cursor.before s.cursor.rest = x at hstep hcode hrest'
  simp only [Cursor.advance_rest] at hrest'
  have hopen : openSection? (ks ++ [x.kind]) = x.mode.section? := by
    rw [openSection?_append, h.openSection, hstep.section?_eq]
  refine ⟨?_, hopen, fun opener inner hwithin => ?_, fun hmode => ?_, fun sk hs hmode => ?_,
    fun sk hs hlast => ?_⟩
  · show (if x.kind.isTrivia then s.state.last else some x.kind) = lastSignificant? (ks ++ [x.kind])
    rw [lastSignificant?_append, h.last]
  · -- the tag or the braces are opened here, or go on
    rcases hstep.within?_eq hwithin with hk | ⟨hbefore, hk⟩
    · subst hk
      exact ⟨ks, [], rfl, fun _ hk' => (nomatch hk')⟩
    · exact (h.within opener inner hbefore).append hk
  · show lastSignificant? (ks ++ [x.kind]) = _
    rw [lastSignificant?_append]
    have hmode' : x.mode = .directive := hmode
    rcases (hmode' ▸ hstep).behind_braces with hk | ⟨hbefore, hk⟩
    · rw [hk]
      rfl
    · rw [if_pos hk]
      exact h.directive hbefore
  · have hmode' : x.mode.section? = some sk := hmode
    -- the section was open before, or this token opens it
    rcases hstep.code_cases hs hmode' with hsame | ⟨hbetween, hopens⟩
    · have hread := hcode hs (hsame ▸ hmode')
      right
      simp only [Cursor.advance_rest]
      split at hread
      · -- its closing mark would have closed it
        have hclosed := hstep.section?_eq
        rw [hread, hsame, hmode', SectionKind.behind, if_pos rfl] at hclosed
        cases hclosed
      · show x.mode.closing.isPrefixOf _ = true
        rw [← hsame]
        exact hread.2.resolve_left hrest'
    · exact .inl ⟨ks, x.kind, rfl, h.openSection.trans hbetween, hopens⟩
  · rw [List.getLast?_concat, Option.some.injEq] at hlast
    obtain ⟨hbefore, hsame⟩ := hstep.code_mode hs hlast
    show x.mode.section? = _
    rw [hsame]
    exact hbefore

/-- The kinds that `n` calls read obey the grammar, and what is known then. The induction is on
`n`. -/
theorem obeysGrammar_calls (source : String) (n : Nat) :
    let ks := (List.range n).map fun k => ((ofSource source).tokenAt k).kind
    ObeysGrammar ks ∧
      (((ofSource source).after n).cursor.rest ≠ [] → ((ofSource source).after n).Context ks) := by
  induction n with
  | zero =>
    refine ⟨fun before k behind h => ?_, fun _ => context_ofSource source⟩
    simp at h
  | succ n ih =>
    obtain ⟨hobeys, hcontext⟩ := ih
    rw [List.range_succ, List.map_append]
    by_cases hend : ((ofSource source).after n).cursor.rest = []
    · -- the end is read again and again
      have hnext := next_of_end hend
      have hkind : ((ofSource source).tokenAt n).kind = .eof := by rw [tokenAt, hnext]
      have hafter : (ofSource source).after (n + 1) = (ofSource source).after n := by
        rw [after_succ, hnext]
      rw [hafter]
      refine ⟨?_, fun hrest => absurd hend hrest⟩
      rw [List.map_singleton, hkind]
      exact hobeys.append (follows_eof _)
    · exact ⟨hobeys.append ((hcontext hend).follows hend), (hcontext hend).next hend⟩

end Scanner

/-- **The token stream obeys its grammar.** However many tokens of a file are read, each of them may
come behind those before it (`Follows`). -/
theorem obeysGrammar_take (source : String) (n : Nat) :
    ObeysGrammar (((Scanner.ofSource source).take n).1.toList.map Token.kind) := by
  rw [Scanner.take_eq]
  simp only [List.map_map]
  exact (Scanner.obeysGrammar_calls source n).1

end RsxInspect
