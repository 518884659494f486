import RsxInspect.Proofs.Template.Grouping
import RsxInspect.Proofs.Template.Readable

/-!
# Templates lose nothing

The parts of the tree of a template stand in document order between its tags, with nothing but
blanks between them; every significant token there belongs to exactly one part; and the expressions
in braces hold exactly the tokens between the braces (`Lossless`). The bricks:

* `Grouped.spaced`, `Grouped.exists_group` and `Grouped.exists_part`: tokens that fall into groups
  give parts that stand in a row, one for each group.
* `Part.ReadFrom.encloses` and `Part.ReadFrom.tokensIn_eq`: the tokens in the place of a part are
  exactly those of its group, since the tokens of a file do not overlap.
* `contentEnd_readTemplate` and `spaced_content`: the groups fill the place between the tags.
* `lossless_readTemplate`: so a template loses nothing, from whatever tokens behind its opening tag
  it is read.
* `Trace.section_cases`, `readSection_stops` and `readFrom_templates`: each section ends where the
  next one can come, so every template of a file is read like that.

`lossless` says so of every file, whatever is wrong with it: an end tag without its start tag,
braces that are not closed and frames that are never closed lose nothing either.
-/

namespace RsxInspect

/-- The other span lies in this one. -/
def Span.Encloses (s t : Span) : Prop := s.start ≤ t.start ∧ t.stop ≤ s.stop

instance (s t : Span) : Decidable (s.Encloses t) := inferInstanceAs (Decidable (_ ∧ _))

/-- The significant tokens of a file that lie in a span. -/
def tokensIn (source : String) (s : Span) : List Token :=
  (significantTokens source).filter fun t => s.Encloses t.span

namespace TemplateSection

/-- The parts of a template in document order: for each node what is shown of it alone
(`Node.partsAll`). -/
def parts (t : TemplateSection) : List Part := Node.partsAll t.children

/-- Where the markup of a template ends: at its closing tag, or at its end if that is missing. -/
def contentEnd (t : TemplateSection) : Nat := (t.closing.map Span.start).getD t.span.stop

end TemplateSection

/-- The tree of a template accounts for all that stands between its tags. -/
structure Lossless (source : String) (t : TemplateSection) : Prop where
  /-- The parts follow each other between the tags, none of them empty, with blanks between them. -/
  spaced : Spaced source t.opening.stop (t.parts.map Part.span) t.contentEnd
  /-- Every significant token between the tags lies in one part and no other. -/
  covered : ∀ token ∈ significantTokens source, t.opening.stop ≤ token.span.start →
    token.span.stop ≤ t.contentEnd →
    ∃! s : Span, s ∈ t.parts.map Part.span ∧ s.Encloses token.span
  /-- An interpolation holds the tokens between its braces, behind its keyword. -/
  interpolations : ∀ i, Part.interpolation i ∈ t.parts →
    HoldsExpression (tokensIn source i.span) i.keywords i.expression
  /-- A condition holds the tokens between the braces of its head, behind the keyword. -/
  conditions : ∀ h, Part.head h ∈ t.parts → h.HasCondition →
    HoldsExpression (tokensIn source h.span) [h.keyword] h.expression

/-! ### Groups in their places

Tokens in a file do not overlap, so the place of a part tells which tokens are its own
(`Part.ReadFrom.tokensIn_eq`). -/

namespace Grouped

variable {source : String} {ts : List Token} {parts : List Part} {a b : Nat}

/-- The parts that tokens are `Grouped` into stand where these stand: in a row, with blanks between
them. -/
theorem spaced (h : Grouped ts parts) (hspaced : Spaced source a (ts.map Token.span) b) :
    Spaced source a (parts.map Part.span) b := by
  induction h generalizing a with
  | nil => exact hspaced
  | @cons group ts p parts hp _ ih =>
    obtain ⟨first, last, hfirst, hlast, hplace⟩ := hp.place
    rw [List.map_append] at hspaced
    obtain ⟨init, rfl⟩ := List.getLast?_eq_some_iff.mp hlast
    rw [List.map_append, List.append_assoc] at hspaced
    obtain ⟨hbefore, hnonempty, hbehind⟩ := hspaced.split
    rw [List.map_cons, hplace]
    -- the group starts with its last token, or with one before that
    cases init with
    | nil =>
      cases hfirst
      cases hbefore with
      | blank gap => exact .span gap hnonempty (ih hbehind)
    | cons t init =>
      cases hfirst
      cases hbefore with
      | span gap ht rest =>
        exact .span gap (Nat.lt_trans ht (Nat.lt_of_le_of_lt rest.le hnonempty)) (ih hbehind)

/-- Each part has a group of tokens of its own. -/
theorem exists_group (h : Grouped ts parts) {p : Part} (hp : p ∈ parts) :
    ∃ before group behind, ts = before ++ group ++ behind ∧ p.ReadFrom group := by
  induction h with
  | nil => cases hp
  | @cons group ts q parts hq _ ih =>
    rcases List.mem_cons.mp hp with rfl | hp'
    · exact ⟨[], group, ts, rfl, hq⟩
    · obtain ⟨before, group', behind, rfl, hread⟩ := ih hp'
      exact ⟨group ++ before, group', behind, by simp, hread⟩

/-- Each token is in the group of some part. -/
theorem exists_part (h : Grouped ts parts) {t : Token} (ht : t ∈ ts) :
    ∃ p ∈ parts, ∃ before group behind, ts = before ++ group ++ behind ∧ p.ReadFrom group
      ∧ t ∈ group := by
  induction h with
  | nil => cases ht
  | @cons group ts q parts hq _ ih =>
    rcases List.mem_append.mp ht with ht' | ht'
    · exact ⟨q, List.mem_cons_self .., [], group, ts, rfl, hq, ht'⟩
    · obtain ⟨p, hp, before, group', behind, rfl, hread, hmem⟩ := ih ht'
      exact ⟨p, List.mem_cons_of_mem q hp, group ++ before, group', behind, by simp, hread, hmem⟩

end Grouped

/-- A part lies around the tokens that it is read from (`Part.ReadFrom`). -/
theorem Part.ReadFrom.encloses {p : Part} {before group behind : List Token} {source : String}
    {a b : Nat} (h : p.ReadFrom group)
    (hspaced : Spaced source a ((before ++ group ++ behind).map Token.span) b) {t : Token}
    (ht : t ∈ group) : p.span.Encloses t.span := by
  obtain ⟨first, last, hfirst, hlast, hplace⟩ := h.place
  rw [List.map_append, List.map_append, List.append_assoc] at hspaced
  obtain ⟨c, hgroup⟩ := hspaced.behind
  rw [hplace]
  -- the row up to the last token of the group is all that is needed of what stands behind
  have hinit : ∃ d, Spaced source c (group.map Token.span) d := by
    obtain ⟨init, rfl⟩ := List.getLast?_eq_some_iff.mp hlast
    rw [List.map_append, List.append_assoc] at hgroup
    rw [List.map_append]
    exact ⟨_, hgroup.upTo_last⟩
  obtain ⟨d, hgroup⟩ := hinit
  have hfirst' : (group.map Token.span).head? = some first.span := by
    rw [List.head?_map, hfirst]
    rfl
  have hlast' : (group.map Token.span).getLast? = some last.span := by
    rw [List.getLast?_map, hlast]
    rfl
  show first.span.start ≤ t.span.start ∧ t.span.stop ≤ last.span.stop
  exact hgroup.within hfirst' hlast' (List.mem_map_of_mem ht)

/-- The `tokensIn` the place of a part are those that it is read from: all others end in front of it
or start behind it. -/
theorem Part.ReadFrom.tokensIn_eq {p : Part} {before group behind : List Token} {source : String}
    (h : p.ReadFrom group) (hall : significantTokens source = before ++ group ++ behind) :
    tokensIn source p.span = group := by
  have hspaced := spaced_significantTokens source
  rw [hall] at hspaced
  have hinside : ∀ t ∈ group, p.span.Encloses t.span := fun t ht => h.encloses hspaced ht
  obtain ⟨first, last, hfirst, hlast, hplace⟩ := h.place
  -- a token before the group ends before the part starts, one behind it starts behind its end
  have hbefore : ∀ t ∈ before, ¬ p.span.Encloses t.span := by
    intro t ht henc
    obtain ⟨tail, rfl⟩ := List.head?_eq_some_iff.mp hfirst
    rw [List.append_assoc, List.map_append, List.cons_append, List.map_cons] at hspaced
    have hmem := hspaced.split.1.mem (List.mem_map_of_mem ht)
    have hstart := henc.1
    rw [hplace] at hstart
    simp only at hstart
    omega
  have hbehind : ∀ t ∈ behind, ¬ p.span.Encloses t.span := by
    intro t ht henc
    obtain ⟨init, rfl⟩ := List.getLast?_eq_some_iff.mp hlast
    rw [← List.append_assoc, List.append_assoc _ [last], List.map_append, List.cons_append,
      List.map_cons] at hspaced
    have hmem := hspaced.split.2.2.mem (List.mem_map_of_mem ht)
    have hstop := henc.2
    rw [hplace] at hstop
    simp only at hstop
    omega
  let inside : Token → Bool := fun t => p.span.Encloses t.span
  have hnone : before.filter inside = [] := List.filter_eq_nil_iff.mpr (by simpa [inside] using hbefore)
  have hall' : group.filter inside = group := List.filter_eq_self.mpr (by simpa [inside] using hinside)
  have hnone' : behind.filter inside = [] :=
    List.filter_eq_nil_iff.mpr (by simpa [inside] using hbehind)
  show (significantTokens source).filter inside = group
  rw [hall, List.filter_append, List.filter_append, hnone, hall', hnone', List.nil_append,
    List.append_nil]

/-- Each token lies in one part and in no other: the part of its group is around it, and parts do
not overlap. -/
theorem Grouped.existsUnique_encloses {source : String} {ts : List Token} {parts : List Part}
    {a b : Nat} (h : Grouped ts parts) (hspaced : Spaced source a (ts.map Token.span) b) {t : Token}
    (ht : t ∈ ts) : ∃! s : Span, s ∈ parts.map Part.span ∧ s.Encloses t.span := by
  have hnonempty := (hspaced.mem (List.mem_map_of_mem ht)).2.1
  have hparts := h.spaced hspaced
  obtain ⟨p, hp, before, group, behind, rfl, hread, hin⟩ := h.exists_part ht
  have hplace : p.span ∈ parts.map Part.span := List.mem_map_of_mem hp
  have henc : p.span.Encloses t.span := hread.encloses hspaced hin
  refine ⟨p.span, ⟨hplace, henc⟩, ?_⟩
  rintro s ⟨hs, hs'⟩
  -- both are around the token, which has bytes
  refine hparts.eq_of_overlap hs hplace ?_ ?_
  · exact Nat.lt_of_le_of_lt hs'.1 (Nat.lt_of_lt_of_le hnonempty henc.2)
  · exact Nat.lt_of_le_of_lt henc.1 (Nat.lt_of_lt_of_le hnonempty hs'.2)

/-! ### One template

The parts are in order and stand for all tokens between the tags of the template, whatever was left
open at its end. -/

section Template

variable {source : String} {r : Reading} {notes : Notes} {opening : Token} {behind : List Token}
  {b k : Nat}

/-- The `contentEnd` of a template depends on what stands behind the tokens taken: at the closing
tag, or where the last token ends. -/
theorem contentEnd_readTemplate
    (htaken : (Builder.readFrom r ⟨⟨.empty, notes.reportAll r.source
      (Document.openTagProblem r opening)⟩, 0, opening.span.stop⟩ behind).taken = k)
    (hended : ∀ t, (behind.drop k).head? = some t → t.kind = .templateClose) :
    (Document.readTemplate r notes opening behind).content.contentEnd
      = ((behind.drop k).head?.map (·.span.start)).getD (endOf opening behind k) := by
  unfold Document.readTemplate TemplateSection.contentEnd
  simp only [htaken]
  cases hrest : (behind.drop k).head? with
  | none => rfl
  | some t =>
    rw [Option.filter_some, if_pos (by rw [hended t hrest]; rfl)]
    rfl

/-- The tokens that a template takes stand between its opening tag and the end of its content, and
all others behind that. -/
theorem spaced_content {source : String} {a contentEnd : Nat}
    (hspaced : Spaced source a ((opening :: behind).map Token.span) b) (hk : k ≤ behind.length)
    (hend : contentEnd = ((behind.drop k).head?.map (·.span.start)).getD (endOf opening behind k)) :
    Spaced source opening.span.stop ((behind.take k).map Token.span) contentEnd
      ∧ ∀ t ∈ behind.drop k, contentEnd ≤ t.span.start := by
  have hsplit : behind = behind.take k ++ behind.drop k := (List.take_append_drop k behind).symm
  cases hrest : behind.drop k with
  | nil =>
    -- nothing is left: the content ends with the last token
    rw [hrest, List.append_nil] at hsplit
    have hlength : behind.length = k := by
      have := List.drop_eq_nil_iff.mp hrest
      omega
    obtain ⟨_, last, -, hlast, hplace⟩ := place_spanOf opening hk
    have hstop : contentEnd = last.span.stop := by
      rw [hend, hrest]
      exact (Span.mk.inj hplace).2
    rw [← hsplit] at hlast ⊢
    obtain ⟨init, hinit⟩ := List.getLast?_eq_some_iff.mp hlast
    have hupTo : Spaced source a ((opening :: behind).map Token.span) last.span.stop := by
      rw [hinit, List.map_append] at hspaced ⊢
      exact hspaced.upTo_last
    rw [hstop]
    cases hupTo with
    | span _ _ rest => exact ⟨rest, fun t ht => (nomatch ht)⟩
  | cons t rest =>
    rw [hrest] at hsplit hend
    cases hspaced with
    | span _ _ hbehind =>
      rw [hsplit, List.map_append] at hbehind
      obtain ⟨hcontent, hclosing, hrest'⟩ := hbehind.split
      have hstop : contentEnd = t.span.start := hend
      rw [hstop]
      refine ⟨hcontent, fun u hu => ?_⟩
      rcases List.mem_cons.mp hu with rfl | hu'
      · exact Nat.le_refl _
      · have := (hrest'.mem (List.mem_map_of_mem hu')).1
        exact Nat.le_trans (Nat.le_of_lt hclosing) this

/-- A token between the opening tag and the end of the content is one of those that are taken: the
tokens in front end too early, and those behind start too late. -/
theorem mem_content {source : String} {before : List Token} {contentEnd : Nat} {t : Token}
    (hall : significantTokens source = before ++ opening :: behind)
    (hrest : ∀ t ∈ behind.drop k, contentEnd ≤ t.span.start) (ht : t ∈ significantTokens source)
    (hfirst : opening.span.stop ≤ t.span.start) (hlast : t.span.stop ≤ contentEnd) :
    t ∈ behind.take k := by
  have hspaced := spaced_significantTokens source
  have hnonempty := (hspaced.mem (List.mem_map_of_mem ht)).2.1
  rw [hall, List.map_append, List.map_cons] at hspaced
  obtain ⟨hfront, hopening, -⟩ := hspaced.split
  rw [hall, ← List.take_append_drop k behind] at ht
  rcases List.mem_append.mp ht with hin | hin
  · have := (hfront.mem (List.mem_map_of_mem hin)).2.2
    omega
  · rcases List.mem_cons.mp hin with rfl | hin
    · omega
    · rcases List.mem_append.mp hin with hin | hin
      · exact hin
      · have := hrest t hin
        omega

/-- A template behind its opening tag loses nothing: spaced parts and groups come from
`readFrom_gathered`, and the expressions of groups from `Part.ReadFrom`. -/
theorem lossless_readTemplate {before : List Token}
    (hall : significantTokens source = before ++ opening :: behind)
    (htrace : Trace .template behind) :
    Lossless source (Document.readTemplate r notes opening behind).content := by
  have hspaced := spaced_significantTokens source
  rw [hall, List.map_append] at hspaced
  obtain ⟨c, hfrom⟩ := hspaced.behind
  obtain ⟨-, -, hbehind⟩ := hspaced.split
  let t := (Document.readTemplate r notes opening behind).content
  let start : Builder.Progress :=
    ⟨⟨.empty, notes.reportAll r.source (Document.openTagProblem r opening)⟩, 0, opening.span.stop⟩
  obtain ⟨k, parts, hread⟩ := Builder.readFrom_gathered r start htrace hbehind
  have hparts : t.parts = parts := by
    show Node.partsAll ((Builder.readFrom r start behind).builder.finish
      r.source _).forest.roots.toList = parts
    rw [Builder.parts_finish, hread.forest]
    rfl
  have htaken : (Builder.readFrom r start behind).taken = k := hread.taken.trans (Nat.zero_add k)
  obtain ⟨hcontent, hrest⟩ :=
    spaced_content hfrom hread.stops.1 (contentEnd_readTemplate htaken hread.ended)
  -- the group of a part is a group of tokens of the file, which are those in its place
  have hgroup : ∀ p ∈ t.parts, p.ReadFrom (tokensIn source p.span) := by
    intro p hp
    rw [hparts] at hp
    obtain ⟨before', group, behind', htake, hp'⟩ := hread.grouped.exists_group hp
    have hfile : significantTokens source
        = (before ++ [opening] ++ before') ++ group ++ (behind' ++ behind.drop k) := by
      have hsplit := List.take_append_drop k behind
      rw [htake] at hsplit
      rw [hall]
      conv_lhs => rw [← hsplit]
      simp only [List.append_assoc, List.cons_append, List.nil_append]
    rw [hp'.tokensIn_eq hfile]
    exact hp'
  refine ⟨?_, fun token htoken hfirst hlast => ?_, fun i hi => ?_, fun h hh hcondition => ?_⟩
  · show Spaced source opening.span.stop (t.parts.map Part.span) t.contentEnd
    rw [hparts]
    exact hread.grouped.spaced hcontent
  · show ∃! s : Span, s ∈ t.parts.map Part.span ∧ s.Encloses token.span
    rw [hparts]
    exact hread.grouped.existsUnique_encloses hcontent (mem_content hall hrest htoken hfirst hlast)
  · exact (hgroup _ hi).interpolation i rfl
  · exact (hgroup _ hh).condition h rfl hcondition

end Template

/-! ### Sections in a row

Here the kinds of tokens are enough: what a section takes is found from the `Trace` of the scan, one
mode after the other. -/

/-- Behind code of the given kind its closing delimiter can come, and the next section behind that. -/
theorem Trace.drop_code {m : Mode} {code close : TokenKind}
    (hmode : ∀ k n, Transition m k n → (k = code ∧ n = m) ∨ (k = close ∧ n = .initial))
    (hcode : close ≠ code) {ts : List Token} (h : Trace m ts) :
    let codes := ts.takeWhile (·.kind == code)
    let closing := (ts.drop codes.length).head?.filter (·.kind == close)
    Trace .initial (ts.drop (codes.length + if closing.isSome then 1 else 0)) := by
  intro codes closing
  induction ts with
  | nil => exact .nil _
  | cons t ts ih =>
    obtain ⟨n, hstep, hrest⟩ := h.of_cons
    rcases hmode _ _ hstep with ⟨hkind, rfl⟩ | ⟨hkind, rfl⟩
    -- code goes on in the same mode; the first other token is the closing one
    · have hcodes : codes = t :: ts.takeWhile (·.kind == code) :=
        List.takeWhile_cons_of_pos (by simpa using hkind)
      have hmore := ih hrest
      unfold closing
      rw [hcodes, List.length_cons, Nat.add_right_comm]
      exact hmore
    · have hcodes : codes = [] :=
        List.takeWhile_cons_of_neg (by rw [hkind]; simpa using hcode)
      have hclosing : closing = some t := by
        unfold closing
        rw [hcodes]
        simp [hkind]
      rw [hcodes, hclosing]
      exact hrest

/-- The mode behind the opening delimiter of a section. -/
def SectionKind.mode : SectionKind → Mode
  | .frontMatter => .frontMatter
  | .script => .script
  | .template => .template
  | .style => .style

/-- A token between sections opens one, or is bad; it leads to the mode of the section, or
nowhere. -/
theorem Trace.section_cases {t : Token} {ts : List Token} (h : Trace .initial (t :: ts)) :
    (∃ kind, Document.sectionOpenedBy? t.kind = some kind ∧ Trace kind.mode ts)
      ∨ (Document.sectionOpenedBy? t.kind = none ∧ Trace .initial ts) := by
  obtain ⟨n, hstep, hrest⟩ := h.of_cons
  have hblank := h.kind_ne_whitespace
  generalize t.kind = k at hstep hblank
  cases hstep with
  | fenceOpen => exact .inl ⟨.frontMatter, rfl, hrest⟩
  | scriptOpen => exact .inl ⟨.script, rfl, hrest⟩
  | templateOpen => exact .inl ⟨.template, rfl, hrest⟩
  | styleOpen => exact .inl ⟨.style, rfl, hrest⟩
  | blankBetween => exact absurd rfl hblank
  | badBetween => exact .inr ⟨rfl, hrest⟩

namespace Document

variable {r : Reading} {notes : Notes} {opening : Token} {ts : List Token} {source : String}
  {a b : Nat}

/-- `readCode` ends where the next section can come, with its closing delimiter or at the end. -/
theorem readCode_stops {kind : SectionKind} (hkind : kind ≠ .template)
    (h : Trace kind.mode ts) :
    Trace .initial (ts.drop (readCode r notes kind opening ts).taken) := by
  have hmode : ∀ k n, Transition kind.mode k n →
      (k = (codeKinds kind).1 ∧ n = kind.mode) ∨ (k = (codeKinds kind).2 ∧ n = .initial) := by
    intro k n hstep
    cases kind with
    | template => exact absurd rfl hkind
    | _ => cases hstep <;> simp [codeKinds, SectionKind.mode]
  have hcode : (codeKinds kind).2 ≠ (codeKinds kind).1 := by
    cases kind <;> decide
  have hrest := h.drop_code hmode hcode
  unfold readCode
  simp only [Option.isSome_map]
  exact hrest

/-- `readTemplate` ends there as well: behind its closing tag the scan is between sections. -/
theorem readTemplate_stops (htrace : Trace .template ts)
    (hspaced : Spaced source a (ts.map Token.span) b) :
    Trace .initial (ts.drop (readTemplate r notes opening ts).taken) := by
  let start : Builder.Progress :=
    ⟨⟨.empty, notes.reportAll r.source (openTagProblem r opening)⟩, 0, opening.span.stop⟩
  obtain ⟨k, parts, hread⟩ := Builder.readFrom_gathered r start htrace hspaced
  have htaken : (Builder.readFrom r start ts).taken = k := hread.taken.trans (Nat.zero_add k)
  obtain ⟨hle, hrest⟩ := hread.stops
  have hended := hread.ended
  show Trace .initial (ts.drop ((Builder.readFrom r start ts).taken
    + if (((ts.drop (Builder.readFrom r start ts).taken).head?.filter
        (·.kind == .templateClose)).map (·.span)).isSome then 1 else 0))
  rw [htaken, ← List.drop_drop]
  -- the pieces stop at a closing tag, if they stop before the end
  cases hbehind : ts.drop k with
  | nil =>
    rw [List.drop_nil]
    exact .nil _
  | cons t us =>
    rw [hbehind] at hrest hended
    have hclose : t.kind = .templateClose := hended t rfl
    obtain ⟨n, hstep, hus⟩ := hrest.of_cons
    rw [hclose] at hstep
    cases hstep
    rw [List.head?_cons, Option.filter_some, if_pos (by rw [hclose]; rfl)]
    exact hus

/-- `readSection` ends where the next one can come. -/
theorem readSection_stops {kind : SectionKind} (htrace : Trace kind.mode ts)
    (hspaced : Spaced source a (ts.map Token.span) b) :
    Trace .initial (ts.drop (readSection r notes kind opening ts).taken) := by
  cases kind with
  | template => exact readTemplate_stops htrace hspaced
  | frontMatter =>
    show Trace .initial (ts.drop (readCode r notes .frontMatter opening ts).taken)
    exact readCode_stops (by decide) htrace
  | script =>
    show Trace .initial (ts.drop (readCode r notes .script opening ts).taken)
    exact readCode_stops (by decide) htrace
  | style =>
    show Trace .initial (ts.drop (readCode r notes .style opening ts).taken)
    exact readCode_stops (by decide) htrace

/-- Only templates are read as templates, so their content is that of `readTemplate`. -/
theorem readSection_template {kind : SectionKind} {t : TemplateSection}
    (h : (readSection r notes kind opening ts).content = .template t) :
    kind = .template ∧ t = (readTemplate r notes opening ts).content := by
  cases kind with
  | template => exact ⟨rfl, (Section.template.inj h).symm⟩
  | frontMatter => cases h
  | script => cases h
  | style => cases h

/-- Every template of a file is read from the tokens behind an opening tag, with the scan in markup.
By induction on the loop over sections. -/
theorem readFrom_templates {done : Array Section} (htrace : Trace .initial ts)
    (hspaced : Spaced source a (ts.map Token.span) b) {t : TemplateSection}
    (ht : Section.template t ∈ (readFrom r done notes ts).1) :
    Section.template t ∈ done ∨ ∃ notes before opening behind, ts = before ++ opening :: behind
      ∧ Trace .template behind ∧ t = (readTemplate r notes opening behind).content := by
  induction done, notes, ts using Document.readFrom.induct r generalizing a with
  | case1 done notes =>
    rw [readFrom] at ht
    exact .inl ht
  | case2 done notes opening ts kind hkind notes' s =>
    rename_i ih
    -- the section is a template itself, or the template is among those behind it
    rcases htrace.section_cases with ⟨kind', hkind', hmode⟩ | ⟨hnone, -⟩
    · cases hkind.symm.trans hkind'
      have hbehind : Spaced source opening.span.stop (ts.map Token.span) b := by
        cases hspaced with
        | span _ _ rest => exact rest
      have hrest : Trace .initial (ts.drop s.taken) := readSection_stops hmode hbehind
      obtain ⟨c, hdrop⟩ : ∃ c, Spaced source c ((ts.drop s.taken).map Token.span) b := by
        rw [← List.take_append_drop s.taken ts, List.map_append] at hbehind
        exact hbehind.behind
      rw [readFrom, hkind] at ht
      rcases ih hrest hdrop ht with hdone | ⟨notes, before, opening', behind, hsplit, hbehind, rfl⟩
      · rcases Array.mem_push.mp hdone with hdone | hnew
        · exact .inl hdone
        · obtain ⟨rfl, rfl⟩ := readSection_template hnew.symm
          exact .inr ⟨_, [], opening, ts, rfl, hmode, rfl⟩
      · refine .inr ⟨notes, opening :: ts.take s.taken ++ before, opening', behind, ?_, hbehind, rfl⟩
        rw [List.append_assoc, ← hsplit, List.cons_append, List.take_append_drop]
    · rw [hkind] at hnone
      cases hnone
  | case3 done notes t' ts hkind notes' =>
    rename_i ih
    rcases htrace.section_cases with ⟨kind', hkind', -⟩ | ⟨-, hrest⟩
    · rw [hkind] at hkind'
      cases hkind'
    · obtain ⟨c, hdrop⟩ : ∃ c, Spaced source c (ts.map Token.span) b :=
        (show Spaced source a ([t'.span] ++ ts.map Token.span) b from hspaced).behind
      rw [readFrom, hkind] at ht
      rcases ih hrest hdrop ht with hdone | ⟨notes, before, opening', behind, rfl, hbehind, rfl⟩
      · exact .inl hdone
      · exact .inr ⟨notes, t' :: before, opening', behind, rfl, hbehind, rfl⟩

end Document

/-- **Templates lose nothing.** Let the scan of a file reach the end. The file is read exactly if the
scans of its values do (`Document.valuesEnd`), and then the tree of each of its templates accounts for
all that stands between the tags of the template (`Lossless`). -/
theorem lossless (source : String) (withTrees : Bool)
    (h : (Scanner.ofSource source).toEnd?.isSome = true) :
    (Document.parse? source withTrees).isSome
        = Document.valuesEnd source (significantTokens source) ∧
      ∀ parsed, Document.parse? source withTrees = some parsed →
        ∀ t, Section.template t ∈ parsed.document.sections → Lossless source t := by
  refine Document.forall_parse? withTrees h fun t ht => ?_
  have htrace := trace_significantTokens source
  have hspaced := spaced_significantTokens source
  rcases Document.readFrom_templates htrace hspaced (Array.mem_toList_iff.mp ht) with
    hdone | ⟨notes, before, opening, behind, hsplit, hbehind, rfl⟩
  · cases hdone
    contradiction
  · exact lossless_readTemplate hsplit hbehind

/-- A template with braces that are not closed, and without a closing tag. -/
theorem lossless_unclosed :
    ∃ source parsed t, source.toList
        = Delimiter.templateTag ++ ['>', 'a'] ++ Delimiter.openBraces ++ ['b'] ∧
      Document.parse? source true = some parsed ∧
      Section.template t ∈ parsed.document.sections ∧ Lossless source t := by
  let source := String.ofList (Delimiter.templateTag ++ ['>', 'a'] ++ Delimiter.openBraces ++ ['b'])
  have hend : (Scanner.ofSource source).toEnd?.isSome = true := by decide +kernel
  obtain ⟨-, hall⟩ := lossless source true hend
  have hkinds : (Document.parse? source true).map (·.document.sections.map Section.kind)
      = some [.template] := by
    decide +kernel
  obtain ⟨parsed, hparsed, hkinds⟩ := Option.map_eq_some_iff.mp hkinds
  obtain ⟨s, hs, hkind⟩ := List.map_eq_singleton_iff.mp hkinds
  cases s with
  | template t =>
    have ht : Section.template t ∈ parsed.document.sections := by
      rw [hs]
      exact List.mem_singleton_self _
    exact ⟨source, parsed, t, String.toList_ofList, hparsed, ht, hall parsed hparsed t ht⟩
  | _ => cases hkind

end RsxInspect
