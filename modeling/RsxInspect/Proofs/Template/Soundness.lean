import RsxInspect.Proofs.Diagnostic.Log
import RsxInspect.Proofs.Scan.Literal
import RsxInspect.Proofs.Template.Loops
import RsxInspect.Proofs.Template.StartTag

/-!
# Files without diagnostics are well formed

Whatever is wrong with a node is reported where it is noticed: with the piece that it is read from,
when the piece is added, or when what is open is closed. So the trees of a file without diagnostics
are sound (`sound_of_clean`). The bricks follow these three places:

* `Piece.read_sound`: a piece without a report is sound, by one lemma for each reader;
* `Forest.Adds.sound`: a step that reports nothing keeps the forest sound. In particular it abandons
  no frame (`eq_zero_of_neverClosed`);
* `ReadsTemplate.sound` and `readSection_sound`: at the end of a section without a report nothing is
  open.

The invariant of the loops (`Builder.Reaches.sound`, `Document.Reaches.sound`) says all this as long
as the log is empty: it is empty behind a step only if it was before.
-/

namespace RsxInspect

/-! ### What is well formed

The terms are those of the tree and of the source, and say nothing of how the tree was read. -/

/-- An attribute with an equals sign, a token that its span encloses, has a value. -/
def Attribute.Sound (source : String) (a : Attribute) : Prop :=
  (∃ t ∈ significantTokens source, t.kind = .equals ∧ a.span.Encloses t.span) →
    a.value.isSome = true

/-- The head of a branch has what its keyword asks for: a condition, a list with a binding, or
nothing for `elseBranch`. -/
def BranchHead.Sound (h : BranchHead) : Prop :=
  match h.keyword with
  | .ifBlock | .elseIf => h.expression.isSome = true
  | .eachBlock => h.expression.isSome = true ∧ h.binding.isSome = true
  | .elseBranch => h.expression = none
  | _ => False

/-- The node is no error, closed if it has to be (`Element.isOpen`), and has what belongs to it. -/
def Node.Sound (source : String) : Node → Prop
  | .element e _ =>
    (Vocabulary.isVoidElement e.name = true ∨ e.selfClosing = true ∨ e.endTag.isSome = true) ∧
      ∀ a ∈ e.attributes, a.Sound source
  | .text _ | .comment _ => True
  | .interpolation i => i.terminated = true ∧ i.expression.isSome = true
  | .directive d branches => d.closing.isSome = true ∧ ∀ b ∈ branches, b.head.Sound
  | .error _ => False

/-- The sections of a file are closed, each kind stands there once and nothing but blanks stands
between them; every node is `Sound`, and every literal among the tokens is closed. -/
structure Document.Sound (source : String) (d : Document) : Prop where
  terminated : ∀ s ∈ d.sections, s.isTerminated = true
  distinct : (d.sections.map Section.kind).Nodup
  spaced : Spaced source 0 (d.sections.map Section.span) source.utf8ByteSize
  nodes : ∀ n ∈ d.allNodes, n.Sound source
  literals : ∀ t ∈ (Scanner.ofSource source).toEnd.1.toList, t.Terminated source

/-! ### Forests

The invariant of a forest in which nothing was reported: what is in it is sound, and so will be what
is open, if a tag or braces close it. A frame that is abandoned would have been reported. -/

/-- Closed by a tag or by braces, the frame would be a sound node. -/
def Frame.Sound (source : String) : Frame → Prop
  | .element e _ => ∀ a ∈ e.attributes, a.Sound source
  | .block b => ∀ branch ∈ b.branches, branch.head.Sound

namespace Frame

variable {source : String} {f : Frame}

theorem Sound.close (h : f.Sound source) (stop : Nat) (s : Span) :
    (f.close stop (some s)).Sound source := by
  cases f with
  | element e children => exact ⟨.inr (.inr rfl), h⟩
  | block b => exact ⟨rfl, h⟩

theorem Sound.push (h : f.Sound source) (n : Node) : (f.push n).Sound source := by
  cases f with
  | element e children => exact h
  | block b =>
    intro branch hbranch
    have hmem : branch ∈ b.done.toList ++ [⟨b.head, (b.children.push n).toList⟩] := by
      rw [← Array.toList_push]
      exact hbranch
    -- the heads are those that were there before
    have hall : ∀ x ∈ b.done.toList ++ [⟨b.head, b.children.toList⟩], x.head.Sound := by
      rw [← Array.toList_push]
      exact h
    rcases List.mem_append.mp hmem with hdone | hlast
    · exact hall branch (List.mem_append_left _ hdone)
    · rw [List.mem_singleton.mp hlast]
      exact hall ⟨b.head, b.children.toList⟩ (List.mem_append_right _ (List.mem_singleton_self _))

theorem Sound.startBranch {b : OpenBlock} (h : (block b).Sound source) {head : BranchHead}
    (hhead : head.Sound) : (block (b.startBranch head)).Sound source := by
  intro branch hbranch
  have hmem : branch ∈ b.branches ++ [⟨head, []⟩] := by
    rw [← b.branches_startBranch head #[]]
    exact hbranch
  rcases List.mem_append.mp hmem with hold | hnew
  · exact h branch hold
  · rw [List.mem_singleton.mp hnew]
    exact hhead

end Frame

namespace Forest

/-- All that is complete in a forest is sound, and so is what is open as far as it goes
(`Frame.Sound`). -/
structure Sound (source : String) (f : Forest) : Prop where
  nodes : ∀ n ∈ f.nodes, n.Sound source
  frames : ∀ frame ∈ f.frames, frame.Sound source

variable {source : String} {f : Forest}

theorem Sound.push (h : f.Sound source) {n : Node} (hn : n.Sound source) (hchildren : n.children = []) :
    (f.push n).Sound source := by
  refine ⟨fun m hm => ?_, fun frame hframe => ?_⟩
  · rcases List.mem_append.mp ((f.nodes_push n).mem_iff.mp hm) with hm | hm
    · rw [Node.subtree_eq, hchildren] at hm
      rw [List.mem_singleton.mp hm]
      exact hn
    · exact h.nodes m hm
  · have hframes := h.frames
    obtain ⟨roots, frames⟩ := f
    cases frames with
    | nil => cases hframe
    | cons inner outer =>
      rcases List.mem_cons.mp hframe with rfl | hframe
      · exact (hframes inner (List.mem_cons_self ..)).push n
      · exact hframes frame (List.mem_cons_of_mem _ hframe)

theorem Sound.openFrame (h : f.Sound source) {frame : Frame} (hframe : frame.Sound source)
    (hempty : frame.children = []) : (f.openFrame frame).Sound source := by
  refine ⟨fun n hn => ?_, fun other hother => ?_⟩
  · rw [f.nodes_openFrame hempty] at hn
    exact h.nodes n hn
  · rcases List.mem_cons.mp hother with rfl | hother
    · exact hframe
    · exact h.frames other hother

/-- The innermost frame is closed by what stands at the span, so it becomes a sound node. -/
theorem Sound.closeInnermost (h : f.Sound source) (stop : Nat) (s : Span) :
    (f.closeInnermost stop (some s)).Sound source := by
  cases hframes : f.frames with
  | nil =>
    rw [Forest.closeInnermost, hframes]
    exact h
  | cons inner outer =>
    have hinner : inner.Sound source := h.frames inner (by rw [hframes]; exact List.mem_cons_self ..)
    refine ⟨fun n hn => ?_, fun frame hframe => ?_⟩
    · rcases List.mem_cons.mp ((f.nodes_closeInnermost hframes stop _).mem_iff.mp hn) with rfl | hn
      · exact hinner.close stop s
      · exact h.nodes n hn
    · -- the frame around it takes the node that it becomes
      have hall := h.frames
      obtain ⟨roots, frames⟩ := f
      obtain rfl : frames = inner :: outer := hframes
      cases outer with
      | nil => cases hframe
      | cons next outer =>
        rcases List.mem_cons.mp hframe with rfl | hframe
        · exact (hall next (List.mem_cons_of_mem _ (List.mem_cons_self ..))).push _
        · exact hall frame (List.mem_cons_of_mem _ (List.mem_cons_of_mem _ hframe))

/-- Nothing is reported only if no frame is abandoned: `neverClosed` names each one that is. -/
theorem eq_zero_of_neverClosed {n : Nat} {p : Frame → Bool} (htarget : f.frames.findIdx? p = some n)
    (h : f.neverClosed n = []) : n = 0 := by
  have hlt : n < f.frames.length := (List.findIdx?_eq_some_iff_getElem.mp htarget).1
  have hlength := congrArg List.length h
  rw [neverClosed, List.length_map, List.length_take, List.length_nil] at hlength
  omega

end Forest

/-- What the piece stands for is sound. An end tag or a closer stands for nothing of its own. -/
def Piece.Sound (source : String) : Piece → Prop
  | .node n => n.Sound source ∧ n.children = []
  | .startTag e => ∀ a ∈ e.attributes, a.Sound source
  | .opener _ head => head.Sound
  | _ => True

/-- What is reported when it is missing is there, if nothing is reported. -/
theorem isSome_of_unreported {α : Type} {x : Option α} {d : Diagnostic}
    (h : (if x.isNone then [d] else []) = []) : x.isSome = true := by
  cases x with
  | some a => rfl
  | none => cases h

/-- The condition of a further branch is what its keyword asks for, if `branchExpression` reports
nothing. -/
theorem Builder.sound_branch {r : Reading} {word : BranchWord} {run : List Token} {span : Span}
    (h : (branchExpression r word run span).2 = []) :
    BranchHead.Sound ⟨keywordOf word, (branchExpression r word run span).1, none, span⟩ := by
  cases word with
  | elseBranch => rfl
  | elseIf =>
    have hall : (Expression.ofRun? r run true).2 ++ (if (Expression.ofRun? r run true).1.isNone then
        [Problem.elseIfWithoutCondition.on span] else []) = [] := h
    exact isSome_of_unreported (List.append_eq_nil_iff.mp hall).2

/-- **Steps that report nothing keep a forest sound.** The stray ones among the cases of
`Forest.Adds` report something, and in the others nothing is abandoned. -/
theorem Forest.Adds.sound {r : Reading} {f f' : Forest} {piece : Piece} {source : String}
    (h : f.Adds r piece f' []) (hf : f.Sound source) (hpiece : piece.Sound source) :
    f'.Sound source := by
  -- the steps that report something are out, so no frame is abandoned
  generalize hds : ([] : List Diagnostic) = ds at h
  cases h with
  | node n => exact hf.push hpiece.1 hpiece.2
  | startTag e => exact hf.openFrame hpiece rfl
  | opener kind head =>
    have hhead : (Frame.block ⟨kind, #[], head, #[]⟩).Sound source := by
      intro branch hbranch
      rw [List.mem_singleton.mp hbranch]
      exact hpiece
    exact hf.openFrame hhead rfl
  | @branch word run span block outer hframes hkind =>
    have hblock := hf.frames (.block block) (by rw [hframes]; exact List.mem_cons_self ..)
    refine ⟨fun n hn => ?_, fun frame hframe => ?_⟩
    · rw [nodes_startBranch hframes] at hn
      exact hf.nodes n hn
    · rcases List.mem_cons.mp hframe with rfl | hframe
      · exact hblock.startBranch (Builder.sound_branch hds.symm)
      · exact hf.frames frame (by rw [hframes]; exact List.mem_cons_of_mem _ hframe)
  | endTag htarget =>
    obtain rfl := eq_zero_of_neverClosed htarget hds.symm
    exact hf.closeInnermost _ _
  | closer htarget => exact hf.closeInnermost _ _
  | closerOver | strayEndTag | strayBranch | strayCloser => cases hds

/-! ### Pieces

An empty list of reports is the only thing that is known of the piece, so each lemma goes through
what its reader reports. -/

section Pieces

variable {r : Reading} {first : Token} {ts : List Token} {source : String}

/-- An attribute without a report has a value, or stands where its name stands, as `AttributeTokens`
has it. -/
theorem AttributeTokens.value_or_name {us : List Token} {a : Attribute}
    (h : AttributeTokens r us a []) :
    a.value.isSome = true ∨ ∃ t ∈ us, t.kind = .attrName ∧ a.span = t.span := by
  generalize hds : ([] : List Diagnostic) = ds at h
  cases h with
  | bare ht => exact .inr ⟨_, List.mem_cons_self .., ht, rfl⟩
  | unvalued => cases hds
  | valued => exact .inl rfl

theorem TagTokens.value_or_name {us : List Token} {as : List Attribute} {last : Option TokenKind}
    (h : TagTokens r us as last []) :
    ∀ a ∈ as, a.value.isSome = true ∨ ∃ t ∈ us, t.kind = .attrName ∧ a.span = t.span := by
  generalize hds : ([] : List Diagnostic) = ds at h
  -- with nothing reported, an attribute has its value or is a name alone
  induction h with
  | unended | ended => exact fun a ha => nomatch ha
  | attr ha rest ih =>
    obtain ⟨rfl, rfl⟩ := List.append_eq_nil_iff.mp hds.symm
    intro b hb
    rcases List.mem_cons.mp hb with rfl | hb
    · refine ha.value_or_name.imp_right ?_
      rintro ⟨t, ht, hname⟩
      exact ⟨t, List.mem_append_left _ ht, hname⟩
    · refine (ih rfl b hb).imp_right ?_
      rintro ⟨t, ht, hname⟩
      exact ⟨t, List.mem_append_right _ ht, hname⟩
  | bad ht rest ih =>
    intro b hb
    refine (ih hds b hb).imp_right ?_
    rintro ⟨t, ht, hname⟩
    exact ⟨t, List.mem_cons_of_mem _ ht, hname⟩
  | stray => cases hds

/-- An attribute where only its name stands has no equals sign, since no name holds one. -/
theorem Attribute.sound_of_value_or_name {a : Attribute}
    (h : a.value.isSome = true ∨
      ∃ t ∈ significantTokens source, t.kind = .attrName ∧ a.span = t.span) :
    a.Sound source := by
  rcases h with hvalue | ⟨t, ht, hname, hspan⟩
  · exact fun _ => hvalue
  · -- an equals sign inside the name would be the name itself
    rintro ⟨u, hu, hequals, henc⟩
    rw [hspan] at henc
    obtain ⟨hstart, hstop⟩ := henc
    have hnonempty := ((spaced_significantTokens source).mem (List.mem_map_of_mem hu)).2.1
    rw [eq_of_overlap ht hu (by omega) (by omega), hequals] at hname
    cases hname

theorem readStartTag_sound (hts : ∀ t ∈ ts, t ∈ significantTokens source)
    (h : (readStartTag r first ts).diagnostics = []) :
    (readStartTag r first ts).piece.Sound source := by
  rcases readStartTag_cases r first ts with
    ⟨-, hreported⟩ | ⟨name, us, as, last, ds, htake, -, -, htokens, hpiece, hdiagnostics⟩
  · exact absurd h hreported
  · rw [h] at hdiagnostics
    obtain ⟨rfl, hended⟩ := List.append_eq_nil_iff.mp hdiagnostics.symm
    have hlast := isSome_of_unreported hended
    have hattributes : ∀ a ∈ as, a.Sound source := by
      intro a ha
      refine Attribute.sound_of_value_or_name ((htokens.value_or_name a ha).imp_right ?_)
      rintro ⟨t, ht, hname⟩
      have hmem : t ∈ ts.take (readStartTag r first ts).taken := by
        rw [htake]
        exact List.mem_cons_of_mem _ ht
      exact ⟨t, hts t (List.mem_of_mem_take hmem), hname⟩
    rw [hpiece]
    dsimp only
    split
    · rename_i hcomplete
      refine ⟨⟨?_, hattributes⟩, rfl⟩
      -- the tag ends, so the element closes itself or has no content by its name
      rw [Option.isNone_eq_false_iff.mpr hlast, Bool.or_false, Bool.or_eq_true] at hcomplete
      exact hcomplete.elim (fun hself => .inr (.inl hself)) .inl
    · exact hattributes

theorem readEndTag_sound (h : (readEndTag r first ts).diagnostics = []) :
    (readEndTag r first ts).piece.Sound source := by
  unfold readEndTag at h ⊢
  cases hname : ts.head?.filter (·.kind == .tagName) with
  | none =>
    rw [hname] at h
    exact absurd (List.append_eq_nil_iff.mp h).2 (List.cons_ne_nil _ _)
  | some name => trivial

theorem Braces.terminated_of_unclosed {b : Braces} (h : b.unclosed = []) : b.terminated = true := by
  unfold unclosed at h
  split at h
  · assumption
  · cases h

theorem readInterpolation_sound {skip : Nat} {raw : Bool}
    (h : (readInterpolation r first ts skip raw).diagnostics = []) :
    (readInterpolation r first ts skip raw).piece.Sound source := by
  obtain ⟨hfront, hmissing⟩ := List.append_eq_nil_iff.mp h
  have hterminated := Braces.terminated_of_unclosed (List.append_eq_nil_iff.mp hfront).1
  rw [hterminated, Bool.and_true] at hmissing
  exact ⟨⟨hterminated, isSome_of_unreported hmissing⟩, rfl⟩

/-- A loop without a binding is reported, or has no expression, and a loop without an expression is
reported as well. -/
theorem readLoopHead_sound {run : List Token} (h : (readLoopHead r run).2.1 = [])
    (hexpression : (readLoopHead r run).1.1.isSome = true) :
    (readLoopHead r run).1.2.isSome = true := by
  -- the report on a missing binding needs tokens to stand on, and so does an expression
  have hunbound : (readLoopHead.unbound r run).2.1 = [] →
      (readLoopHead.unbound r run).1.1.isSome = true →
      (readLoopHead.unbound r run).1.2.isSome = true := by
    intro hreported hsome
    have hnone : Problem.loopWithoutBinding.onRun? run = [] :=
      (List.append_eq_nil_iff.mp hreported).1
    have hsome : (Expression.ofRun? r run false).1.isSome = true := hsome
    unfold Problem.onRun? at hnone
    cases hspan : Span.ofRun? run with
    | none =>
      rw [Expression.ofRun?, hspan] at hsome
      cases hsome
    | some span =>
      rw [hspan] at hnone
      cases hnone
  unfold readLoopHead at h hexpression ⊢
  dsimp only at h hexpression ⊢
  cases hbinding : LoopBinding.ofRun? r
      (run.drop (run.takeWhile fun t => t.kind != .asWord).length) with
  | none =>
    rw [hbinding] at h hexpression
    exact hunbound h hexpression
  | some binding =>
    rw [hbinding] at h hexpression
    dsimp only at h hexpression ⊢
    by_cases hlist : (run.takeWhile fun t => t.kind != .asWord).isEmpty = true
    · rw [if_pos hlist] at h hexpression ⊢
      exact hunbound h hexpression
    · rw [if_neg hlist]
      rfl

theorem readOpener_sound {keyword : TokenKind} {kind : DirectiveKind}
    (hkind : (keyword = .ifBlock ∧ kind = .choice) ∨ (keyword = .eachBlock ∧ kind = .loop))
    (h : (readOpener r first ts keyword kind).diagnostics = []) :
    (readOpener r first ts keyword kind).piece.Sound source := by
  rcases hkind with ⟨rfl, rfl⟩ | ⟨rfl, rfl⟩
  · exact isSome_of_unreported (List.append_eq_nil_iff.mp h).2
  · obtain ⟨hfront, hmissing⟩ := List.append_eq_nil_iff.mp h
    have hexpression := isSome_of_unreported hmissing
    exact ⟨hexpression, readLoopHead_sound (List.append_eq_nil_iff.mp hfront).1 hexpression⟩

theorem readBraces_sound (h : (readBraces r first ts).diagnostics = []) :
    (readBraces r first ts).piece.Sound source := by
  unfold readBraces at h ⊢
  generalize ts.head?.map Token.kind = next at h ⊢
  split
  · exact readOpener_sound (.inl ⟨rfl, rfl⟩) h
  · exact readOpener_sound (.inr ⟨rfl, rfl⟩) h
  · trivial
  · trivial
  · trivial
  · trivial
  · exact readInterpolation_sound h
  · -- no keyword is left, so what stands between the braces is an expression
    split at h
    all_goals first | contradiction | exact readInterpolation_sound h

/-- **A piece without a report is sound.** The cases are those of `Piece.read`; a token that has no
place is reported. -/
theorem Piece.read_sound (htrace : Trace .template (first :: ts))
    (hfirst : first.kind ≠ .templateClose) (hts : ∀ t ∈ ts, t ∈ significantTokens source)
    (h : (Piece.read r first ts).diagnostics = []) :
    (Piece.read r first ts).piece.Sound source := by
  rcases htrace.piece_cases hfirst with
    ⟨hkind, -⟩ | ⟨hkind, -⟩ | ⟨hkind, -⟩ | ⟨hkind, -⟩ | ⟨hkind, -⟩
  · rw [Piece.read, hkind]
    exact ⟨trivial, rfl⟩
  · rw [Piece.read, hkind]
    exact ⟨trivial, rfl⟩
  · rw [Piece.read, hkind] at h ⊢
    exact readStartTag_sound hts h
  · rw [Piece.read, hkind] at h ⊢
    exact readEndTag_sound h
  · rw [Piece.read, hkind] at h ⊢
    exact readBraces_sound h

end Pieces

/-! ### The loops

The log only grows, so if it is empty at some top, it was empty at all tops before. -/

section Loops

variable {r : Reading} {source : String}

/-- As long as nothing is reported the forest is sound, by induction on `Builder.Reaches`. -/
theorem Builder.Reaches.sound {p₀ p : Builder.Progress} {ts₀ ts : List Token} {b : Nat}
    (h : Reaches r p₀ ts₀ p ts) (h₀ : Trace .template ts₀)
    (hspaced : Spaced source p₀.stop (ts₀.map Token.span) b)
    (hts : ∀ t ∈ ts₀, t ∈ significantTokens source) (hstart : p₀.builder.forest.Sound source)
    (hclean : p.builder.notes.findings = []) :
    p₀.builder.notes.findings = [] ∧ p.builder.forest.Sound source := by
  induction h with
  | start => exact ⟨hclean, hstart⟩
  | @piece p t ts h ht ih =>
    have htrace := h.trace h₀
    obtain ⟨ds, hadds, hfindings⟩ := add_read r p.builder htrace ht (h.spaced h₀ hspaced)
    obtain ⟨hbefore, hreported⟩ := Findings.recordAll_eq_nil_iff.mp (hfindings.symm.trans hclean)
    obtain ⟨hpiece, rfl⟩ := List.append_eq_nil_iff.mp hreported
    obtain ⟨hfirst, hforest⟩ := ih hbefore
    refine ⟨hfirst, hadds.sound hforest (Piece.read_sound htrace ht (fun u hu => ?_) hpiece)⟩
    exact hts u (h.suffix.subset (List.mem_cons_of_mem _ hu))

namespace Document

/-- A section is reported if it is not closed, so a section without a report is closed. -/
theorem isSome_of_unclosedProblem {kind : SectionKind} {opening : Token} {closing : Option Span}
    (h : unclosedProblem kind opening closing = []) : closing.isSome = true := by
  unfold unclosedProblem at h
  split at h
  · assumption
  · cases h

/-- A template without a report is closed, and all that is in it is sound: `neverClosed` is empty,
so nothing is open at its end. -/
theorem ReadsTemplate.sound {notes : Notes} {opening : Token} {ts : List Token}
    {s : SectionRead TemplateSection} {p : Builder.Progress} {k b : Nat}
    (h : ReadsTemplate r notes opening ts s p k) (htrace : Trace .template ts)
    (hspaced : Spaced source opening.span.stop (ts.map Token.span) b)
    (hts : ∀ t ∈ ts, t ∈ significantTokens source) (hclean : s.notes.findings = []) :
    notes.findings = [] ∧ s.content.closing.isSome = true ∧
      ∀ n ∈ Node.subtreeAll s.content.children, n.Sound source := by
  obtain ⟨hbefore, hreported⟩ := Findings.recordAll_eq_nil_iff.mp (h.findings.symm.trans hclean)
  obtain ⟨hopen, hclosing⟩ := List.append_eq_nil_iff.mp hreported
  have hempty : Forest.empty.Sound source :=
    ⟨fun n hn => (nomatch hn), fun frame hframe => (nomatch hframe)⟩
  obtain ⟨hstart, hforest⟩ := h.reaches.sound htrace hspaced hts hempty hbefore
  refine ⟨(Findings.recordAll_eq_nil_iff.mp hstart).1, isSome_of_unclosedProblem hclosing,
    fun n hn => ?_⟩
  -- nothing is open, so nothing is abandoned
  have hframes : p.builder.forest.frames.length = 0 := by
    have hlength := congrArg List.length hopen
    rwa [Forest.neverClosed, List.take_length, List.length_map] at hlength
  rw [h.children, hframes] at hn
  exact hforest.nodes n (List.mem_append_left _ hn)

/-- A section without a report is closed, and all that is in it is sound. -/
theorem readSection_sound {kind : SectionKind} {notes : Notes} {opening : Token} {ts : List Token}
    {b : Nat} (htrace : Trace kind.mode ts)
    (hspaced : Spaced source opening.span.stop (ts.map Token.span) b)
    (hts : ∀ t ∈ ts, t ∈ significantTokens source)
    (hclean : (readSection r notes kind opening ts).notes.findings = []) :
    let s := (readSection r notes kind opening ts).content
    notes.findings = [] ∧ s.kind = kind ∧ s.isTerminated = true ∧ ∀ n ∈ s.nodes, n.Sound source := by
  intro s
  -- code has no nodes, so only its closing delimiter counts
  have hcode : ∀ {kind : SectionKind}, (readCode r notes kind opening ts).notes.findings = [] →
      notes.findings = [] ∧ (readCode r notes kind opening ts).content.closing.isSome = true := by
    intro kind hclean
    obtain ⟨hnotes, hreported⟩ := Findings.recordAll_eq_nil_iff.mp hclean
    exact ⟨hnotes, isSome_of_unclosedProblem (List.append_eq_nil_iff.mp hreported).2⟩
  have hno : ∀ n ∈ ([] : List Node), n.Sound source := fun n hn => (nomatch hn)
  cases kind with
  | template =>
    obtain ⟨p, k, hread⟩ := exists_readsTemplate r notes opening htrace hspaced
    obtain ⟨hnotes, hclosing, hnodes⟩ := hread.sound htrace hspaced hts hclean
    exact ⟨hnotes, rfl, hclosing, hnodes⟩
  | frontMatter => exact ⟨(hcode hclean).1, rfl, (hcode hclean).2, hno⟩
  | script => exact ⟨(hcode hclean).1, rfl, (hcode hclean).2, hno⟩
  | style => exact ⟨(hcode hclean).1, rfl, (hcode hclean).2, hno⟩

/-- As long as nothing is reported the sections are closed, of different kinds and sound, by
induction on `Document.Reaches`. -/
theorem Reaches.sound {done : Array Section} {notes : Notes} {ts : List Token}
    (h : Reaches r #[] .empty (significantTokens source) done notes ts)
    (hclean : notes.findings = []) :
    (∀ s ∈ done.toList, s.isTerminated = true) ∧ (done.toList.map Section.kind).Nodup ∧
      ∀ n ∈ done.toList.flatMap Section.nodes, n.Sound source := by
  induction h with
  | start => exact ⟨fun s hs => (nomatch hs), .nil, fun n hn => (nomatch hn)⟩
  | @opened done notes t ts kind s h hkind hs ih =>
    subst hs
    have hbetween := h.between
    have hts : ∀ u ∈ ts, u ∈ significantTokens source :=
      fun u hu => hbetween.suffix.subset (List.mem_cons_of_mem _ hu)
    obtain ⟨hnotes, hsame, hclosed, hnodes⟩ :=
      readSection_sound (hbetween.mode hkind) hbetween.spaced_behind hts hclean
    obtain ⟨hbefore, hdistinct⟩ := Findings.recordAll_eq_nil_iff.mp hnotes
    obtain ⟨ihclosed, ihdistinct, ihnodes⟩ := ih hbefore
    -- a section of the same kind would have been reported as there twice
    have hnew : ∀ u ∈ done.toList, u.kind ≠ kind := by
      intro u hu heq
      have hany : done.any (·.kind == kind) = true := by
        rw [← Array.any_toList]
        exact List.any_eq_true.mpr ⟨u, hu, beq_iff_eq.mpr heq⟩
      rw [duplicateProblem, if_pos hany] at hdistinct
      cases hdistinct
    rw [Array.toList_push, List.map_append, List.flatMap_append]
    refine ⟨fun u hu => ?_, ?_, fun n hn => ?_⟩
    · rcases List.mem_append.mp hu with hu | hu
      · exact ihclosed u hu
      · rw [List.mem_singleton.mp hu]
        exact hclosed
    · refine List.nodup_append.mpr ⟨ihdistinct, List.pairwise_singleton .., ?_⟩
      intro _ hmem _ hlast
      obtain ⟨u, hu, rfl⟩ := List.mem_map.mp hmem
      rw [List.map_singleton, List.mem_singleton, hsame] at hlast
      rw [hlast]
      exact hnew u hu
    · rcases List.mem_append.mp hn with hn | hn
      · exact ihnodes n hn
      · rw [List.flatMap_singleton] at hn
        exact hnodes n hn
  | @skipped done notes t ts h hkind ih =>
    rw [if_pos (h.between.bad hkind)] at hclean
    exact ih hclean

end Document

end Loops

/-! ### Files

A file with no diagnostic has none in any of its parts, so the invariant holds for each of its
templates. -/

/-- The tokens of a file that have no lexical problem (`Token.anomaly?`) are closed, and none of
them is bad. -/
theorem Findings.terminated_of_ofTokens {source : String}
    (h : Findings.ofTokens source (significantTokens source) = []) :
    (∀ t ∈ (Scanner.ofSource source).toEnd.1.toList, t.Terminated source) ∧
      ∀ t ∈ significantTokens source, t.kind ≠ .badCharacter := by
  have hnone : ∀ t ∈ significantTokens source, t.anomaly? source = none :=
    List.filterMap_eq_nil_iff.mp (recordAll_eq_nil_iff.mp h).2
  refine ⟨fun t ht => ?_, fun t ht hbad => ?_⟩
  · by_cases htrivia : t.kind.isTrivia = true
    · -- what lies between the tokens that count is no literal
      unfold Token.Terminated
      cases hkind : t.kind <;> first | trivial | (rw [hkind] at htrivia; cases htrivia)
    · refine Token.terminated_of_anomaly? ht (hnone t ?_)
      exact List.mem_filter.mpr ⟨ht, by rw [Bool.eq_false_iff.mpr htrivia]; rfl⟩
  · have hproblem := hnone t ht
    rw [Token.anomaly?, hbad] at hproblem
    cases hproblem

/-- **A file without diagnostics is well formed.** Let the scan of a file reach the end. The file is
read exactly if the scans of its values do (`Document.valuesEnd`). If nothing is reported on it then,
its sections are closed, of different kinds and separated by blanks only, all nodes in them are sound,
and all its literals are closed (`Document.Sound`). -/
theorem sound_of_clean (source : String) (withTrees : Bool)
    (h : (Scanner.ofSource source).toEnd?.isSome = true) :
    (Document.parse? source withTrees).isSome
        = Document.valuesEnd source (significantTokens source) ∧
      ∀ parsed, Document.parse? source withTrees = some parsed →
        parsed.diagnostics = [] → parsed.document.Sound source := by
  let r : Reading := ⟨source, withTrees⟩
  refine Document.forall_parse? withTrees h fun hclean => ?_
  have hreaches := Document.reaches_end r source
  let d := (Document.ofTokens r (significantTokens source)).document
  -- both logs are empty
  have hall : (Findings.ofTokens source (significantTokens source)).reverse
      ++ (Document.readFrom r #[] .empty (significantTokens source)).2.findings.reverse = [] :=
    List.Perm.eq_nil ((List.mergeSort_perm _ _).symm.trans (.of_eq hclean))
  obtain ⟨htokens, hfindings⟩ := List.append_eq_nil_iff.mp hall
  obtain ⟨hliterals, hgood⟩ := Findings.terminated_of_ofTokens (List.reverse_eq_nil_iff.mp htokens)
  obtain ⟨hclosed, hdistinct, hnodes⟩ := hreaches.sound (List.reverse_eq_nil_iff.mp hfindings)
  obtain ⟨spans, hspaced, -, heq, -⟩ := hreaches.exists_spans
  refine ⟨hclosed, hdistinct, ?_, hnodes, hliterals⟩
  rw [offset_toEnd h, List.map_nil, List.append_nil] at hspaced
  rcases heq with heq | ⟨t, ht, hbad⟩
  · show Spaced source 0 (d.sections.map Section.span) _
    exact heq ▸ hspaced
  · exact absurd hbad (hgood t ht)

/-- Front matter, and a template with an attribute, a choice and a loop. -/
theorem sound_of_clean_page :
    let source := String.ofList ("---\na\n---\n<template><p b=\"c\">".toList
      ++ "\x7b\x7b@if d\x7d\x7de\x7b\x7b:else\x7d\x7d\x7b\x7bf\x7d\x7d\x7b\x7b/if\x7d\x7d".toList
      ++ "\x7b\x7b@each g as h\x7d\x7d<br>\x7b\x7b/each\x7d\x7d</p></template>".toList)
    (Scanner.ofSource source).toEnd?.isSome = true ∧
      ∃ parsed, Document.parse? source true = some parsed ∧ parsed.diagnostics = [] ∧
        parsed.document.nodes.size = 6 ∧ parsed.document.Sound source := by
  intro source
  have hend : (Scanner.ofSource source).toEnd?.isSome = true := by decide +kernel
  obtain ⟨-, hsound⟩ := sound_of_clean source true hend
  -- the two sources of diagnostics, each empty on its own
  have htokens : (Findings.ofTokens source (significantTokens source)).isEmpty = true := by
    decide +kernel
  have hfindings : (Document.readFrom ⟨source, true⟩ #[] .empty
      (significantTokens source)).2.findings.isEmpty = true := by
    decide +kernel
  have hsize : (Document.parse? source true).map (·.document.nodes.size) = some 6 := by
    decide +kernel
  obtain ⟨parsed, hparsed, hsize⟩ := Option.map_eq_some_iff.mp hsize
  have hclean : parsed.diagnostics = [] := by
    obtain ⟨-, rfl⟩ := Document.eq_of_parse? hparsed
    show Document.inOrder (_ ++ _) = []
    rw [List.isEmpty_iff.mp htokens, List.isEmpty_iff.mp hfindings]
    exact List.mergeSort_nil
  exact ⟨hend, parsed, hparsed, hclean, hsize, hsound parsed hparsed hclean⟩

end RsxInspect
