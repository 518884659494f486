import RsxInspect.Proofs.Template.Standing

/-!
# Directives are read where they stand

Braces with a keyword are the start of a piece of their own. So the loops of a file come to every
such pair of braces, and add its piece to the forest then. The bricks:

* `Piece.read_noKeywords` and `suffix_drop`: a piece takes a keyword only as its first token behind
  the braces, so no piece in front of other braces takes any of their tokens.
* `Forest.Opened`: a block with a given first head is complete or open. It stays so whatever is
  added (`Forest.Opened.adds`), since the head of a branch is never touched again.
* `Builder.Reaches.ahead_or_read`: at each top of the loop over pieces the braces are ahead, or the
  loop has come to them and gone on.
* `Found`: what is known once they are read. What was reported before speaks of tokens in front of
  the braces, and what is reported afterwards of tokens behind them (`Found.earlier`,
  `Found.later`).
* `Document.ReadsTemplate.found`, `Document.readSection_found` and `Document.Reaches.found` take
  this from a template to a section and to the loop over sections.

`Document.exists_directive` is the end of that: the braces are found, and a block that they open is
a node of the file, with the head that it had.
-/

namespace RsxInspect

/-! ### Up to the braces

A piece takes no keyword but right behind its first token, so reading one does not go past the
braces in question: they start the piece, or are still ahead (`suffix_drop`). -/

section Ahead

variable {r : Reading} {opening word : Token} {behind ts : List Token}

/-- Behind the first token that `Piece.read` takes there are `NoKeywords`: only braces take one, and
only right behind them. -/
theorem Piece.read_noKeywords (r : Reading) {first : Token} (htrace : Trace .template (first :: ts))
    (hfirst : first.kind ≠ .templateClose) :
    NoKeywords (ts.take (Piece.read r first ts).taken).tail := by
  have htail : ∀ {us : List Token}, NoKeywords us → NoKeywords us.tail :=
    fun h u hu => h u (List.mem_of_mem_tail hu)
  rcases htrace.piece_cases hfirst with
    ⟨hkind, -⟩ | ⟨hkind, -⟩ | ⟨hkind, hrest⟩ | ⟨hkind, -⟩ | ⟨hkind, m, hm, hrest⟩
  · rw [Piece.read, hkind]
    exact .nil
  · rw [Piece.read, hkind]
    exact htail (readText_kinds rfl)
  · rw [Piece.read, hkind]
    exact htail (readStartTag_noKeywords first hrest)
  · rw [Piece.read, hkind]
    exact htail (readEndTag_kinds rfl rfl rfl)
  · rw [Piece.read, hkind]
    show NoKeywords (ts.take (readBraces r first ts).taken).tail
    -- braces are a plain run or start with a keyword, which then is the only one in them
    by_cases hhead : ∀ t, ts.head? = some t → t.kind.isDirective = false
    · obtain ⟨n, htaken, hnone⟩ := Braces.noKeywords first 0 hrest hm hhead
      rw [readBraces_plain_head hhead]
      show NoKeywords (ts.take (Braces.read first ts 0).taken).tail
      rw [htaken, Nat.zero_add]
      exact htail hnone
    · cases ts with
      | nil =>
        refine absurd (fun t ht => ?_) hhead
        cases ht
      | cons word us =>
        have hword : word.kind.isDirective = true := by
          by_contra hnot
          refine hhead fun t ht => ?_
          cases ht
          exact Bool.eq_false_iff.mpr hnot
        obtain ⟨m', hstep, hbehind⟩ := hrest.of_cons
        obtain rfl := hstep.interpolation_of_directive hword
        have hbehind : Trace .interpolation ((word :: us).drop 1) := hbehind
        obtain ⟨n, htaken, hnone⟩ := Braces.noKeywords first 1 hbehind (.inr rfl)
          (hbehind.not_directive (by decide))
        rw [(readBraces_keyword r first us hword).2, htaken, Nat.add_comm, List.take_succ_cons]
        exact hnone

/-- What takes no keyword but in the first place (`NoKeywords`), and stops in front of none, stops
in front of the braces of a keyword. -/
theorem suffix_drop {k : Nat} (h : opening :: word :: behind <:+ ts)
    (hword : word.kind.isDirective = true) (htaken : NoKeywords (ts.take k).tail)
    (hhead : ∀ t, (ts.drop k).head? = some t → t.kind.isDirective = false) :
    opening :: word :: behind <:+ ts.drop k := by
  obtain ⟨front, rfl⟩ := h
  rcases Nat.lt_trichotomy k (front.length + 1) with hlt | rfl | hlt
  · rw [List.drop_append_of_le_length (by omega)]
    exact List.suffix_append _ _
  · -- the braces themselves are the last token that is taken
    have hnext := hhead word (by
      rw [← List.drop_drop, List.drop_left]
      rfl)
    rw [hword] at hnext
    cases hnext
  · -- the keyword is taken, and something stands in front of it
    obtain ⟨n, rfl⟩ : ∃ n, k = front.length + (n + 2) := ⟨k - (front.length + 2), by omega⟩
    have hmem : word ∈ ((front ++ opening :: word :: behind).take (front.length + (n + 2))).tail := by
      rw [List.take_length_add_append, List.take_succ_cons, List.take_succ_cons]
      cases front <;> simp
    rw [htaken word hmem] at hword
    cases hword

end Ahead

/-! ### Blocks and their first heads

What is known of a block all through a template is its kind and the head of its first branch: its
other branches and its children come in later, and it may be closed or abandoned. -/

/-- The node is a block of the given kind, and the head is that of its first branch. -/
def Node.Opens (kind : DirectiveKind) (head : BranchHead) : Node → Prop
  | .directive d branches => d.kind = kind ∧ branches.head?.map Branch.head = some head
  | _ => False

/-- The same of the block that becomes of a frame, with its open branch last. -/
def Frame.Opens (kind : DirectiveKind) (head : BranchHead) (f : Frame) : Prop :=
  (f.close 0 none).Opens kind head

section Heads

variable {kind : DirectiveKind} {head : BranchHead}

/-- What a frame `Opens` is opened by the node that `Frame.close` makes of it. -/
theorem Frame.opens_close {f : Frame} (h : f.Opens kind head) (stop : Nat) (closing : Option Span) :
    (f.close stop closing).Opens kind head := by
  cases f <;> exact h

/-- What comes into the last branch does not change the head of the first one. -/
theorem OpenBlock.head?_push (done : Array Branch) (head : BranchHead) (ns ms : List Node) :
    (done.push ⟨head, ns⟩).toList.head?.map Branch.head
      = (done.push ⟨head, ms⟩).toList.head?.map Branch.head := by
  rw [Array.toList_push, Array.toList_push]
  cases done.toList <;> rfl

/-- A node that comes into the frame changes no head. -/
theorem Frame.Opens.push {f : Frame} (h : f.Opens kind head) (n : Node) : (f.push n).Opens kind head := by
  cases f with
  | element => exact h
  | block b => exact ⟨h.1, (OpenBlock.head?_push ..).trans h.2⟩

/-- Nor does a further branch (`OpenBlock.startBranch`). -/
theorem Frame.Opens.startBranch {b : OpenBlock} (h : Frame.Opens kind head (.block b))
    (next : BranchHead) : Frame.Opens kind head (.block (b.startBranch next)) := by
  refine ⟨h.1, ?_⟩
  have hfirst : (b.done.push ⟨b.head, b.children.toList⟩).toList.head?.map Branch.head = some head := h.2
  show ((b.done.push ⟨b.head, b.children.toList⟩).push ⟨next, [].toArray.toList⟩).toList.head?.map
    Branch.head = some head
  rw [Array.toList_push, List.head?_append_of_ne_nil _ (by simp)]
  exact hfirst

namespace Forest

variable {f f' : Forest}

/-- A block of the given kind and with the given first head is complete or open. -/
def Opened (kind : DirectiveKind) (head : BranchHead) (f : Forest) : Prop :=
  (∃ n ∈ f.nodes, n.Opens kind head) ∨ ∃ frame ∈ f.frames, frame.Opens kind head

/-- It stays `Opened` when a node is pushed. -/
theorem Opened.push (h : f.Opened kind head) (n : Node) : (f.push n).Opened kind head := by
  rcases h with ⟨m, hm, hopens⟩ | ⟨frame, hframe, hopens⟩
  · exact .inl ⟨m, (f.nodes_push n).mem_iff.mpr (List.mem_append_right _ hm), hopens⟩
  · right
    obtain ⟨roots, frames⟩ := f
    cases frames with
    | nil => cases hframe
    | cons inner outer =>
      rcases List.mem_cons.mp hframe with rfl | hframe
      · exact ⟨_, List.mem_cons_self .., hopens.push n⟩
      · exact ⟨frame, List.mem_cons_of_mem _ hframe, hopens⟩

/-- It stays `Opened` under `openFrame`. -/
theorem Opened.openFrame (h : f.Opened kind head) {frame : Frame} (hempty : frame.children = []) :
    (f.openFrame frame).Opened kind head := by
  refine h.imp (fun ⟨n, hn, hopens⟩ => ⟨n, ?_, hopens⟩) fun ⟨other, hother, hopens⟩ =>
    ⟨other, List.mem_cons_of_mem _ hother, hopens⟩
  rw [f.nodes_openFrame hempty]
  exact hn

/-- It stays `Opened` under `closeInnermost`: a block that is closed becomes a node with the same
head. -/
theorem Opened.closeInnermost (h : f.Opened kind head) (stop : Nat) (closing : Option Span) :
    (f.closeInnermost stop closing).Opened kind head := by
  cases hframes : f.frames with
  | nil =>
    rw [Forest.closeInnermost, hframes]
    exact h
  | cons inner outer =>
    have hnodes := nodes_closeInnermost hframes stop closing
    rcases h with ⟨n, hn, hopens⟩ | ⟨frame, hframe, hopens⟩
    · exact .inl ⟨n, hnodes.mem_iff.mpr (List.mem_cons_of_mem _ hn), hopens⟩
    · rw [hframes] at hframe
      rcases List.mem_cons.mp hframe with rfl | hframe
      · exact .inl ⟨_, hnodes.mem_iff.mpr (List.mem_cons_self ..), frame.opens_close hopens stop closing⟩
      · have houter : (⟨f.roots, outer⟩ : Forest).Opened kind head := .inr ⟨frame, hframe, hopens⟩
        rw [Forest.closeInnermost, hframes]
        exact houter.push _

/-- It stays `Opened` under `abandon`. -/
theorem Opened.abandon (h : f.Opened kind head) (stop n : Nat) :
    (f.abandon stop n).Opened kind head := by
  induction n generalizing f with
  | zero => exact h
  | succ n ih => exact ih (h.closeInnermost stop none)

/-- **Blocks keep their heads.** Whatever a piece does to the forest (`Forest.Adds`), a block with
the head is there afterwards. -/
theorem Opened.adds (h : f.Opened kind head) {r : Reading} {piece : Piece} {ds : List Diagnostic}
    (hadds : f.Adds r piece f' ds) : f'.Opened kind head := by
  cases hadds with
  | node | strayEndTag | strayBranch | strayCloser => exact h.push _
  | startTag | opener => exact h.openFrame rfl
  | endTag | closer | closerOver => exact (h.abandon _ _).closeInnermost _ _
  | @branch word run span block outer hframes hkind helse =>
    rcases h with ⟨n, hn, hopens⟩ | ⟨frame, hframe, hopens⟩
    · refine .inl ⟨n, ?_, hopens⟩
      rw [nodes_startBranch hframes]
      exact hn
    · right
      rw [hframes] at hframe
      rcases List.mem_cons.mp hframe with rfl | hframe
      · exact ⟨_, List.mem_cons_self .., hopens.startBranch _⟩
      · exact ⟨frame, List.mem_cons_of_mem _ hframe, hopens⟩

end Forest

end Heads

/-! ### The loops come to the braces

Each loop is an induction over its tops. The disjunction "ahead or read" is kept in both: once read,
the braces stay read. -/

namespace Builder

variable {r : Reading} {p₀ p : Progress} {ts₀ ts : List Token} {b : Nat} {kind : DirectiveKind}
  {head : BranchHead}

/-- At each top of the loop over pieces the block is there, if it was at the first one. -/
theorem Reaches.opened (h : Reaches r p₀ ts₀ p ts) (h₀ : Trace .template ts₀)
    (hspaced : Spaced r.source p₀.stop (ts₀.map Token.span) b)
    (hopened : p₀.builder.forest.Opened kind head) : p.builder.forest.Opened kind head := by
  induction h with
  | start => exact hopened
  | @piece p t ts h ht ih =>
    obtain ⟨ds, hadds, -⟩ := add_read r p.builder (h.trace h₀) ht (h.spaced h₀ hspaced)
    exact ih.adds hadds

/-- The braces of a keyword are ahead, or the loop has come to them and gone on: then there is a top
`q` right in front of them. -/
theorem Reaches.ahead_or_read {opening word : Token} {behind : List Token}
    (h : Reaches r p₀ ts₀ p ts) (h₀ : Trace .template ts₀)
    (hts : opening :: word :: behind <:+ ts₀) (hword : word.kind.isDirective = true) :
    opening :: word :: behind <:+ ts ∨
      ∃ q, opening.kind ≠ .templateClose ∧ Reaches r p₀ ts₀ q (opening :: word :: behind) ∧
        Reaches r ⟨q.builder.add r (Piece.read r opening (word :: behind)),
            q.taken + 1 + (Piece.read r opening (word :: behind)).taken,
            endOf opening (word :: behind) (Piece.read r opening (word :: behind)).taken⟩
          ((word :: behind).drop (Piece.read r opening (word :: behind)).taken) p ts := by
  induction h with
  | start => exact .inl hts
  | @piece p t ts h ht ih =>
    rcases ih with hahead | ⟨q, hopening, hq, hp⟩
    · have htrace := h.trace h₀
      -- the braces start right here, or stay ahead, because no piece goes past a keyword that it
      -- does not start with
      rcases List.suffix_cons_iff.mp hahead with heq | hahead
      · obtain ⟨rfl, rfl⟩ := List.cons.inj heq
        exact .inr ⟨p, ht, h, .start⟩
      · exact .inl (suffix_drop hahead hword (Piece.read_noKeywords r htrace ht)
          ((Piece.read_stops r htrace ht).2.not_directive (by decide)))
    · exact .inr ⟨q, hopening, hq, hp.piece ht⟩

end Builder

namespace Document

open Diagnostic (AllStandIn)

/-- The piece that starts with `first` was added to a forest between the reports `old` and `new`. What
was reported before it speaks of tokens in front of it, and what was reported afterwards of tokens
between it and the offset `b`; and blocks that were in the forest then are among the nodes. -/
inductive Found (r : Reading) (first : Token) (ts : List Token) (b : Nat) (old new : Findings)
    (nodes : List Node) : Prop where
  | intro {f f' : Forest} {ds : List Diagnostic} (before after : List Diagnostic)
      (adds : f.Adds r (Piece.read r first ts).piece f' ds)
      (findings : new = old.recordAll r.source
        (before ++ (((Piece.read r first ts).diagnostics ++ ds) ++ after)))
      (front : AllStandIn r.source ⟨0, first.span.start⟩ before)
      (back : AllStandIn r.source ⟨endOf first ts (Piece.read r first ts).taken, b⟩ after)
      (kept : ∀ kind head, f'.Opened kind head → ∃ n ∈ nodes, n.Opens kind head)

namespace Found

variable {r : Reading} {first : Token} {ts : List Token} {b : Nat} {old new : Findings}
  {nodes nodes' : List Node}

/-- Something was reported before. -/
theorem earlier (es : List Diagnostic) (h : Found r first ts b (old.recordAll r.source es) new nodes)
    (hes : AllStandIn r.source ⟨0, first.span.start⟩ es) : Found r first ts b old new nodes := by
  obtain ⟨before, after, adds, findings, front, back, kept⟩ := h
  refine ⟨es ++ before, after, adds, ?_, hes.append front, back, kept⟩
  rw [findings]
  simp only [Findings.recordAll, List.foldl_append]

/-- Something is reported afterwards, and more nodes come in. -/
theorem later (es : List Diagnostic) (h : Found r first ts b old new nodes)
    (hes : AllStandIn r.source ⟨endOf first ts (Piece.read r first ts).taken, b⟩ es)
    (hnodes : ∀ n ∈ nodes, n ∈ nodes') :
    Found r first ts b old (new.recordAll r.source es) nodes' := by
  obtain ⟨before, after, adds, findings, front, back, kept⟩ := h
  refine ⟨before, after ++ es, adds, ?_, front, back.append hes, fun kind head hopened => ?_⟩
  · rw [findings]
    simp only [Findings.recordAll, List.foldl_append]
  · obtain ⟨n, hn, hopens⟩ := kept kind head hopened
    exact ⟨n, hnodes n hn, hopens⟩

end Found

variable {r : Reading} {notes : Notes} {opening : Token} {ts : List Token} {b : Nat}
  {first word : Token} {behind : List Token}

/-- A template whose loop does not stop in front of the braces has read them. What it reports
afterwards, at its end, speaks of what is behind them (`AllStandIn`). -/
theorem ReadsTemplate.found {s : SectionRead TemplateSection} {p : Builder.Progress} {k : Nat}
    (h : ReadsTemplate r notes opening ts s p k) (htrace : Trace .template ts)
    (hspaced : Spaced r.source opening.span.stop (ts.map Token.span) b)
    (hsuffix : ts <:+ significantTokens r.source) (hts : first :: word :: behind <:+ ts)
    (hword : word.kind.isDirective = true) :
    first :: word :: behind <:+ ts.drop k ∨
      endOf first (word :: behind) (Piece.read r first (word :: behind)).taken ≤ s.content.span.stop ∧
        Found r first (word :: behind) b notes.findings s.notes.findings
          (Node.subtreeAll s.content.children) := by
  rcases h.reaches.ahead_or_read htrace hts hword with hahead | ⟨q, hfirst, hq, hp⟩
  · exact .inl hahead
  right
  have hhere := hq.spaced htrace hspaced
  have hrest := hts.trans hsuffix
  obtain ⟨hstart, es, hfindings, hes⟩ := hq.stands htrace hspaced hsuffix
  obtain ⟨ds, hadds, hadded, -⟩ := Builder.add_stands q.builder (hq.trace htrace) hfirst hhere hrest
  -- behind the piece
  obtain ⟨hn, hgoes⟩ := Piece.read_stops r (hq.trace htrace) hfirst
  have hbehind : Spaced r.source (endOf first (word :: behind)
      (Piece.read r first (word :: behind)).taken)
      (((word :: behind).drop (Piece.read r first (word :: behind)).taken).map Token.span) b := by
    cases hhere.group hn with
    | span _ _ rest => exact rest
  obtain ⟨hon, fs, hmore, hfs⟩ := hp.stands hgoes hbehind
    ((List.drop_suffix _ _).trans ((List.suffix_cons _ _).trans hrest))
  obtain ⟨hstop, hclose⟩ := h.stop_le htrace hspaced
  have hend : p.stop ≤ b := (hp.spaced hgoes hbehind).ordered.le
  refine ⟨Nat.le_trans hon (Nat.le_trans hstop hclose), ?_⟩
  refine .intro (openTagProblem r opening ++ es) (fs
    ++ (p.builder.forest.neverClosed p.builder.forest.frames.length
      ++ unclosedProblem .template opening s.content.closing)) hadds ?_ ?_ ?_
    fun kind head hopened => ?_
  · rw [h.findings, hmore]
    show Findings.recordAll _ (Findings.recordAll _ (q.builder.add r _).notes.findings _) _ = _
    rw [hadded, hfindings]
    show Findings.recordAll _ (Findings.recordAll _ (Findings.recordAll _ (Findings.recordAll _
      (Findings.recordAll _ notes.findings _) _) _) _) _ = _
    simp only [Findings.recordAll, List.foldl_append]
  · exact .append (.of_others (openTagProblem_others r opening))
      (hes.mono ⟨Nat.zero_le _, hhere.ordered.1⟩)
  · exact .append (hfs.mono ⟨Nat.le_refl _, hend⟩) (.append (.of_others (Forest.neverClosed_others _ _))
      (.of_others (unclosedProblem_others _ _ _)))
  · have hlast := (hp.opened hgoes hbehind hopened).abandon p.stop p.builder.forest.frames.length
    rw [h.children]
    -- nothing is open at the end
    have hnone := p.builder.forest.frames_abandon_all p.stop
    rcases hlast with ⟨n, hn, hopens⟩ | ⟨frame, hframe, -⟩
    · rw [Forest.nodes, hnone, List.flatMap_nil, List.append_nil] at hn
      exact ⟨n, hn, hopens⟩
    · rw [hnone] at hframe
      cases hframe

/-- Behind `readSection` the braces are ahead, or they are `Found`. Code takes no braces; in a
template the loop over pieces comes to them. -/
theorem readSection_found {kind : SectionKind} (notes : Notes) (htrace : Trace kind.mode ts)
    (hspaced : Spaced r.source opening.span.stop (ts.map Token.span) b)
    (hsuffix : ts <:+ significantTokens r.source) (hts : first :: word :: behind <:+ ts)
    (hfirst : first.kind = .interpolationOpen) (hword : word.kind.isDirective = true) :
    let s := readSection r notes kind opening ts
    first :: word :: behind <:+ ts.drop s.taken ∨
      endOf first (word :: behind) (Piece.read r first (word :: behind)).taken ≤ s.content.span.stop ∧
        Found r first (word :: behind) b notes.findings s.notes.findings s.content.nodes := by
  intro s
  by_cases hkind : kind = .template
  · subst hkind
    obtain ⟨p, k, hread⟩ := exists_readsTemplate r notes opening htrace hspaced
    rcases hread.found htrace hspaced hsuffix hts hword with hahead | hfound
    · -- what ends the pieces is the closing tag
      left
      have hended := hread.ended
      show first :: word :: behind <:+ ts.drop (readTemplate r notes opening ts).taken
      rw [hread.rest]
      cases hrest : ts.drop k with
      | nil =>
        rw [hrest] at hahead
        cases List.suffix_nil.mp hahead
      | cons t us =>
        rw [hrest] at hahead hended
        rcases List.suffix_cons_iff.mp hahead with heq | hahead
        · obtain ⟨rfl, -⟩ := List.cons.inj heq
          have hclose := hended first rfl
          rw [hfirst] at hclose
          cases hclose
        · exact hahead
    · exact .inr hfound
  · left
    have htaken : s.taken = (readCode r notes kind opening ts).taken := by
      cases kind with
      | template => exact absurd rfl hkind
      | _ => rfl
    have hstops : Trace .initial (ts.drop (readCode r notes kind opening ts).taken) :=
      readCode_stops hkind htrace
    rw [htaken]
    exact suffix_drop hts hword
      (fun u hu => readCode_noKeywords r notes kind opening ts u (List.mem_of_mem_tail hu))
      (hstops.not_directive (by decide))

/-- **The loop over sections comes to the braces.** At every top of the loop the braces are ahead,
and what was reported speaks of tokens in front of them; or they have been read (`Found`). -/
theorem Reaches.found {done : Array Section}
    (h : Reaches r #[] .empty (significantTokens r.source) done notes ts)
    (hts : first :: word :: behind <:+ significantTokens r.source)
    (hfirst : first.kind = .interpolationOpen) (hword : word.kind.isDirective = true) :
    ∃ stop, Spaced r.source stop (ts.map Token.span) (Scanner.ofSource r.source).toEnd.2.offset ∧
      ((first :: word :: behind <:+ ts ∧
          ∃ es, notes.findings = Findings.recordAll r.source [] es ∧
            AllStandIn r.source ⟨0, stop⟩ es) ∨
        (endOf first (word :: behind) (Piece.read r first (word :: behind)).taken ≤ stop ∧
          Found r first (word :: behind) (Scanner.ofSource r.source).toEnd.2.offset [] notes.findings
            (done.toList.flatMap Section.nodes))) := by
  induction h with
  | start => exact ⟨0, spaced_significantTokens r.source, .inl ⟨hts, [], rfl, .nil⟩⟩
  | @opened done notes t ts kind s h hkind hs ih =>
    obtain ⟨stop, hspaced, hcases⟩ := ih
    have hbetween := h.between
    have htrace := hbetween.mode hkind
    have hbehind := hbetween.spaced_behind
    have hsuffix : ts <:+ significantTokens r.source := (List.suffix_cons t ts).trans hbetween.suffix
    obtain ⟨hle, hspan⟩ : s.taken ≤ ts.length ∧ s.content.span = spanOf t ts s.taken := by
      rw [hs]
      exact readSection_span htrace hbehind
    have hgap := hspaced.ordered.1
    have hnext : Spaced r.source s.content.span.stop ((ts.drop s.taken).map Token.span)
        (Scanner.ofSource r.source).toEnd.2.offset := by
      rw [hspan]
      cases hspaced.group hle with
      | span _ _ rest => exact rest
    have hon : t.span.start ≤ s.content.span.stop := by
      rw [hspan]
      exact ((tokensInRow_significantTokens r.source).suffix hbetween.suffix).start_le_endOf _
    -- what the section reports
    obtain ⟨es', hreports, hes'⟩ : ∃ es', s.notes.findings
        = (notesAt r done notes kind t).findings.recordAll r.source es' ∧
          AllStandIn r.source s.content.span es' := by
      rw [hs]
      exact readSection_stands _ htrace hbehind hbetween.suffix
    have hnotes : (notesAt r done notes kind t).findings
        = notes.findings.recordAll r.source (duplicateProblem done kind t) := rfl
    have hduplicate : ∀ x, AllStandIn r.source x (duplicateProblem done kind t) :=
      fun _ => .of_others (duplicateProblem_others done kind t)
    rw [Array.toList_push, List.flatMap_append, List.flatMap_singleton]
    refine ⟨s.content.span.stop, hnext, ?_⟩
    rcases hcases with ⟨hahead, es, hfindings, hes⟩ | ⟨hend, hfound⟩
    · have hahead : first :: word :: behind <:+ ts := by
        rcases List.suffix_cons_iff.mp hahead with heq | hahead
        · obtain ⟨rfl, -⟩ := List.cons.inj heq
          rw [hfirst] at hkind
          cases hkind
        · exact hahead
      have hread := readSection_found (notesAt r done notes kind t) htrace hbehind
        hsuffix hahead hfirst hword
      rw [← hs] at hread
      rcases hread with hahead | ⟨hend, hfound⟩
      · refine .inl ⟨hahead, es ++ (duplicateProblem done kind t ++ es'), ?_, ?_⟩
        · rw [hreports, hnotes, hfindings]
          simp only [Findings.recordAll, List.foldl_append]
        · refine .append (hes.mono ⟨Nat.le_refl _, ?_⟩) (.append (hduplicate _)
            (hes'.mono ⟨Nat.zero_le _, Nat.le_refl _⟩))
          exact Nat.le_trans hgap hon
      · refine .inr ⟨hend, ?_⟩
        rw [hnotes, hfindings] at hfound
        have hfront : stop ≤ first.span.start := by
          have hmem : first ∈ ts := hahead.subset (List.mem_cons_self ..)
          have hnonempty := hbetween.nonempty
          have := (hbehind.ordered.mem (List.mem_map_of_mem hmem)).1
          omega
        refine .earlier es (.earlier _ (hfound.later [] .nil fun n hn => ?_) (hduplicate _))
          (hes.mono ⟨Nat.le_refl _, hfront⟩)
        exact List.mem_append_right _ hn
    · refine .inr ⟨Nat.le_trans hend (Nat.le_trans hgap hon), ?_⟩
      rw [hreports, hnotes]
      refine .later es' (hfound.later _ (hduplicate _) fun n hn => List.mem_append_left _ hn)
        (hes'.mono ⟨?_, hnext.ordered.le⟩) fun n hn => hn
      rw [hspan]
      exact Nat.le_trans hend hgap
  | @skipped done notes t ts h hkind ih =>
    obtain ⟨stop, hspaced, hcases⟩ := ih
    have hbad := h.between.bad hkind
    have hgap := hspaced.ordered.1
    have hnonempty := h.between.nonempty
    rw [if_pos hbad]
    refine ⟨t.span.stop, h.between.spaced_behind, ?_⟩
    rcases hcases with ⟨hahead, es, hfindings, hes⟩ | ⟨hend, hfound⟩
    · rcases List.suffix_cons_iff.mp hahead with heq | hahead
      · obtain ⟨rfl, -⟩ := List.cons.inj heq
        rw [hfirst] at hbad
        cases hbad
      · refine .inl ⟨hahead, es, hfindings, hes.mono ⟨Nat.le_refl _, ?_⟩⟩
        show stop ≤ t.span.stop
        omega
    · exact .inr ⟨by omega, hfound⟩

/-- **Every pair of braces with a keyword is read where it stands.** With no tokens left, the braces
cannot be ahead any more, so they are `Found`. -/
theorem exists_directive (r : Reading) (hts : first :: word :: behind <:+ significantTokens r.source)
    (hfirst : first.kind = .interpolationOpen) (hword : word.kind.isDirective = true) :
    Found r first (word :: behind) (Scanner.ofSource r.source).toEnd.2.offset []
      (readFrom r #[] .empty (significantTokens r.source)).2.findings
      (ofTokens r (significantTokens r.source)).document.allNodes := by
  obtain ⟨stop, -, ⟨hahead, -⟩ | ⟨-, hfound⟩⟩ := (reaches_end r r.source).found hts hfirst hword
  · cases List.suffix_nil.mp hahead
  · exact hfound

end Document

end RsxInspect
