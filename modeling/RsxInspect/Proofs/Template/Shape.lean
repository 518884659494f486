import RsxInspect.Proofs.Scan.TextRun
import RsxInspect.Proofs.Template.Invariant
import RsxInspect.Proofs.Template.Moves

/-!
# The shape of trees

What every tree that is read looks like, whatever is wrong with the file (`Node.Shaped`): the
branches of a block start with the keywords of its kind in their order, an element without content
has none, and is closed by an end tag of its name if by any, texts are plain, and never next to each
other. The bricks:

* `DirectiveKind.Branched`: what the branches of a block can be. It is kept by a further branch and
  by a node that is added to the last one.
* `Frame.Shaped`: open frames become such nodes (`Frame.Shaped.close`).
* `NoTextsTouch`: no two texts are neighbours. A closed frame is no text, so only a piece that is a
  text can break it, and only right behind another one.

Adding a piece keeps all of them if a text is not added behind a text (`Forest.Adds.shaped`).
-/

namespace RsxInspect

/-! ### Shapes

What a node looks like is said of the node and of the source, so that a keyword or a name in a span
is one that stands there. -/

/-- No two of the nodes that are next to each other are both texts (`Node.isText`). -/
def NoTextsTouch (ns : List Node) : Prop :=
  ns.IsChain fun n m => ¬ (n.isText = true ∧ m.isText = true)

/-- The keywords that the branches of a block can start with: a choice starts with `{{@if`, goes on
with conditions, and ends with at most one `elseBranch`; a loop has one branch. -/
def DirectiveKind.Admits : DirectiveKind → List TokenKind → Prop
  | .choice, ks => ∃ n, ks = .ifBlock :: List.replicate n .elseIf ∨
      ks = .ifBlock :: List.replicate n .elseIf ++ [.elseBranch]
  | .loop, ks => ks = [.eachBlock]

/-- The span is that of an end tag, whose name is the given one up to the case of letters. The
tokens say so: `tagEndOpen` at its start, the name behind that. -/
def EndTagAt (source : String) (name : String) (s : Span) : Prop :=
  ∃ opening word rest, opening :: word :: rest <:+ significantTokens source ∧
    opening.kind = .tagEndOpen ∧ word.kind = .tagName ∧ s.start = opening.span.start ∧
      word.span.stop ≤ s.stop ∧ Vocabulary.sameName name (word.text source) = true

/-- The span is that of braces, with the given keyword right behind the opening ones, as two tokens
of the file. -/
def KeywordAt (source : String) (keyword : TokenKind) (s : Span) : Prop :=
  ∃ opening word rest, opening :: word :: rest <:+ significantTokens source ∧
    opening.kind = .interpolationOpen ∧ word.kind = keyword ∧
      s = (Braces.read opening (word :: rest) 1).span

/-- A text is a part of the source in which no markup starts, without blanks around it
(`TextRun`). -/
structure TextNode.Shaped (source : String) (t : TextNode) : Prop where
  sliced : t.content = t.span.text source
  nonempty : t.content ≠ ""
  noTag : '<' ∉ t.content.toList
  noBraces : ¬ Delimiter.openBraces <:+: t.content.toList
  first : ∀ c ∈ t.content.toList.head?, isBlank c = false
  last : ∀ c ∈ t.content.toList.getLast?, isBlank c = false

/-- An element without content has no children and no end tag. Otherwise an end tag has its name
(`EndTagAt`). -/
structure Element.Shaped (source : String) (e : Element) (children : List Node) : Prop where
  childless : (e.selfClosing = true ∨ Vocabulary.isVoidElement e.name = true ∨
      ¬ ∃ t ∈ significantTokens source, (t.kind = .tagClose ∨ t.kind = .selfClose) ∧
        t.span.stop = e.startTag.stop) → children = [] ∧ e.endTag = none
  named : ∀ s ∈ e.endTag, EndTagAt source e.name s
  children : NoTextsTouch children

/-- Names are bound by the head of a loop only, and the last branch of a choice, `elseBranch`, has
no condition. -/
structure BranchHead.Shaped (h : BranchHead) : Prop where
  binding : h.binding.isSome = true → h.keyword = .eachBlock
  elseBranch : h.keyword = .elseBranch → h.expression = none

/-- The branches are those of a block of the given kind: `Admits` for their keywords, each head
`Shaped`, and no two texts next to each other in any of them. -/
structure DirectiveKind.Branched (kind : DirectiveKind) (branches : List Branch) : Prop where
  keywords : kind.Admits (branches.map (·.head.keyword))
  heads : ∀ b ∈ branches, b.head.Shaped
  children : ∀ b ∈ branches, NoTextsTouch b.children

/-- A block has the branches of its kind, and is closed by the keyword of its kind if by any
(`KeywordAt`). -/
structure Directive.Shaped (source : String) (d : Directive) (branches : List Branch) : Prop where
  branched : d.kind.Branched branches
  closing : ∀ s ∈ d.closing, KeywordAt source d.kind.closeWord s

/-- What every node looks like. Interpolations and errors have no shape of their own. -/
def Node.Shaped (source : String) : Node → Prop
  | .element e children => e.Shaped source children
  | .text t => t.Shaped source
  | .directive d branches => d.Shaped source branches
  | .comment _ | .interpolation _ | .error _ => True

/-- All nodes of a file are `Shaped`, and no two texts touch at the top of its templates. -/
structure Document.Shaped (source : String) (d : Document) : Prop where
  nodes : ∀ n ∈ d.allNodes, n.Shaped source
  roots : ∀ s ∈ d.sections, NoTextsTouch s.roots

/-- What is open becomes such a node: an element has content, a block has the branches that it can
have so far. -/
def Frame.Shaped (source : String) : Frame → Prop
  | .element e children => e.isOpen (significantTokens source) = true ∧ NoTextsTouch children.toList
  | .block b => b.kind.Branched b.branches

/-- The piece is a text. -/
def Piece.isText : Piece → Bool
  | .node n => n.isText
  | _ => false

/-- What a run of tokens of text covers is a text, since a `TextRun` has the characters of one. -/
theorem TextNode.Shaped.of_textRun {source : String} {s : Span} (h : TextRun source s) :
    (⟨s.text source, s⟩ : TextNode).Shaped source := by
  obtain ⟨before, inside, behind, hsource, hspan, hplain, -⟩ := h
  have hchars : (s.text source).toList = inside := by
    have htext := Span.text_of_split before inside behind hsource
    rw [← String.utf8Len_append, ← hspan] at htext
    rw [htext, String.toList_ofList]
  rw [← hchars] at hplain
  refine ⟨rfl, fun hempty => hplain.nonempty ?_, hplain.noTag, hplain.openBraces_not_infix,
    hplain.first, hplain.last⟩
  rw [show s.text source = "" from hempty]
  rfl

/-! ### Keywords of branches -/

namespace DirectiveKind.Admits

variable {kind : DirectiveKind} {ks : List TokenKind}

theorem opener (kind : DirectiveKind) : kind.Admits [kind.openWord] := by
  cases kind with
  | choice => exact ⟨0, .inl rfl⟩
  | loop => rfl

/-- A choice goes on unless its last branch, `elseBranch`, has been opened. -/
theorem branch (h : choice.Admits ks) (hlast : ks.getLast? ≠ some .elseBranch) (word : BranchWord) :
    choice.Admits (ks ++ [Builder.keywordOf word]) := by
  obtain ⟨n, rfl | rfl⟩ := h
  · cases word with
    | elseIf => exact ⟨n + 1, .inl (by rw [List.replicate_succ']; rfl)⟩
    | elseBranch => exact ⟨n, .inr rfl⟩
  · exact absurd List.getLast?_concat hlast

end DirectiveKind.Admits

/-! ### Neighbours

No two texts stand side by side, in any of the lists that nodes are collected in. A node comes in at
the end of such a list, so only the last one matters. -/

namespace NoTextsTouch

variable {ns : List Node} {n : Node}

theorem empty : NoTextsTouch [] := List.IsChain.nil

/-- A node can be added if it is no text, or if there is no text in front of it. -/
theorem push (h : NoTextsTouch ns) (hn : n.isText = true → ∀ m ∈ ns.getLast?, m.isText = false) :
    NoTextsTouch (ns ++ [n]) := by
  refine List.isChain_append.mpr ⟨h, .singleton n, fun m hm n' hn' htexts => ?_⟩
  obtain rfl : n = n' := Option.some.inj hn'
  rw [hn htexts.2 m hm] at htexts
  exact absurd htexts.1 (by decide)

end NoTextsTouch

namespace DirectiveKind.Branched

variable {kind : DirectiveKind} {branches : List Branch} {head : BranchHead}

theorem opener (hkeyword : head.keyword = kind.openWord) (hhead : head.Shaped) :
    kind.Branched [⟨head, []⟩] := by
  refine ⟨?_, List.forall_mem_singleton.mpr hhead, List.forall_mem_singleton.mpr .empty⟩
  show kind.Admits [head.keyword]
  rw [hkeyword]
  exact .opener kind

/-- A further branch of a choice, whose own last branch has not been opened. -/
theorem branch {word : BranchWord} (h : choice.Branched branches)
    (hlast : (branches.map (·.head.keyword)).getLast? ≠ some .elseBranch)
    (hkeyword : head.keyword = Builder.keywordOf word) (hhead : head.Shaped) :
    choice.Branched (branches ++ [⟨head, []⟩]) := by
  refine ⟨?_, List.forall_mem_append.mpr ⟨h.heads, List.forall_mem_singleton.mpr hhead⟩,
    List.forall_mem_append.mpr ⟨h.children, List.forall_mem_singleton.mpr .empty⟩⟩
  rw [List.map_append, List.map_singleton]
  show choice.Admits (_ ++ [head.keyword])
  rw [hkeyword]
  exact h.keywords.branch hlast word

/-- A block stays `Branched` with one node more in the last branch, which is the one that is
open. -/
theorem push {children : List Node} {n : Node} (h : kind.Branched (branches ++ [⟨head, children⟩]))
    (hn : n.isText = true → ∀ m ∈ children.getLast?, m.isText = false) :
    kind.Branched (branches ++ [⟨head, children ++ [n]⟩]) := by
  obtain ⟨hkeywords, hheads, hchildren⟩ := h
  rw [List.forall_mem_append, List.forall_mem_singleton] at hheads hchildren
  refine ⟨?_, ?_, ?_⟩
  · rw [List.map_append] at hkeywords ⊢
    exact hkeywords
  · exact List.forall_mem_append.mpr ⟨hheads.1, List.forall_mem_singleton.mpr hheads.2⟩
  · exact List.forall_mem_append.mpr ⟨hchildren.1,
      List.forall_mem_singleton.mpr (NoTextsTouch.push hchildren.2 hn)⟩

end DirectiveKind.Branched

/-! ### Frames

The list that the next node comes into is `current`; a frame that is closed hands on all of its
lists. -/

namespace Frame

variable {source : String} {f : Frame} {n : Node}

/-- The nodes behind which the next one is added: the children of an element, or those of the open
branch. -/
def current : Frame → List Node
  | element _ children => children.toList
  | block b => b.children.toList

theorem current_push (f : Frame) (n : Node) : (f.push n).current = f.current ++ [n] := by
  cases f <;> exact Array.toList_push

namespace Shaped

theorem push (h : f.Shaped source)
    (hn : n.isText = true → ∀ m ∈ f.current.getLast?, m.isText = false) :
    (f.push n).Shaped source := by
  cases f with
  | element e children =>
    refine ⟨h.1, ?_⟩
    rw [Array.toList_push]
    exact h.2.push hn
  | block b =>
    have hb : b.kind.Branched b.branches := h
    rw [OpenBlock.branches, Array.toList_push] at hb
    show b.kind.Branched (OpenBlock.branches { b with children := b.children.push n })
    rw [OpenBlock.branches, Array.toList_push, Array.toList_push]
    exact hb.push hn

/-- The head of a further branch leaves a block `Shaped`: it has the keyword of the word, and
`hasElse` tells whether the last branch is there. -/
theorem startBranch {b : OpenBlock} {word : BranchWord} {head : BranchHead}
    (h : (block b).Shaped source) (hkind : b.kind = .choice) (helse : b.hasElse = false)
    (hkeyword : head.keyword = Builder.keywordOf word) (hhead : head.Shaped) :
    (block (b.startBranch head)).Shaped source := by
  have hb : b.kind.Branched b.branches := h
  have hlast : (b.branches.map (·.head.keyword)).getLast? = some b.head.keyword := by
    rw [OpenBlock.branches, Array.toList_push, List.map_append]
    exact List.getLast?_concat
  show b.kind.Branched (b.startBranch head).branches
  rw [show (b.startBranch head).branches = b.branches ++ [⟨head, []⟩] from
    b.branches_startBranch head #[]]
  rw [hkind] at hb ⊢
  refine hb.branch (fun hended => ?_) hkeyword hhead
  rw [hlast] at hended
  rw [OpenBlock.hasElse, Option.some.inj hended] at helse
  cases helse

/-- A frame becomes a node of the right shape, if what closes it is the right thing: an end tag of
its name, or braces with the keyword that closes its kind. -/
theorem close (h : f.Shaped source) (stop : Nat) {closing : Option Span}
    (hclosing : ∀ s ∈ closing, match f with
      | .element e _ => EndTagAt source e.name s
      | .block b => KeywordAt source b.kind.closeWord s) : (f.close stop closing).Shaped source := by
  cases f with
  | element e children =>
    refine ⟨fun hempty => ?_, hclosing, h.2⟩
    -- an open element has content
    have hopen := h.1
    unfold Element.isOpen at hopen
    simp only [Bool.and_eq_true, Bool.not_eq_true', List.any_eq_true, beq_iff_eq] at hopen
    obtain ⟨⟨⟨-, hself⟩, hvoid⟩, t, ht, hkind, hstop⟩ := hopen
    rcases hempty with hself' | hvoid' | hnone
    · exact absurd (hself.symm.trans hself') (by decide)
    · exact absurd (hvoid.symm.trans hvoid') (by decide)
    · exact absurd ⟨t, ht, .inl hkind, hstop⟩ hnone
  | block b => exact ⟨h, hclosing⟩

theorem close_none (h : f.Shaped source) (stop : Nat) : (f.close stop none).Shaped source :=
  h.close stop nofun

end Shaped

end Frame

/-! ### Forests

What is in front of the next node is the last one of the innermost list, which is no text if a frame
was closed last. -/

namespace Forest

variable {source : String} {f f' : Forest} {r : Reading} {piece : Piece} {ds : List Diagnostic}

/-- The nodes behind which the next one is added: those of the innermost frame, or the roots. -/
def innermost (f : Forest) : List Node :=
  match f.frames with
  | [] => f.roots.toList
  | inner :: _ => inner.current

theorem innermost_push (f : Forest) (n : Node) : (f.push n).innermost = f.innermost ++ [n] := by
  obtain ⟨roots, frames⟩ := f
  cases frames with
  | nil => exact Array.toList_push
  | cons inner outer => exact inner.current_push n

/-- What `closeInnermost` makes is no text, so nothing that is added next can touch one. -/
theorem innermost_closeInnermost (h : f.frames ≠ []) (stop : Nat) (closing : Option Span) :
    ∀ n ∈ (f.closeInnermost stop closing).innermost.getLast?, n.isText = false := by
  obtain ⟨roots, frames⟩ := f
  cases frames with
  | nil => exact absurd rfl h
  | cons inner outer =>
    intro n hn
    have hlast : ((⟨roots, outer⟩ : Forest).push (inner.close stop closing)).innermost.getLast?
        = some (inner.close stop closing) := by
      rw [innermost_push]
      exact List.getLast?_concat
    obtain rfl : inner.close stop closing = n := Option.some.inj (hlast.symm.trans hn)
    exact inner.isText_close stop closing

/-- A text is innermost at the end only if it was added last, as the piece that it is. The cases are
those of `Forest.Adds`. -/
theorem Adds.innermost (h : f.Adds r piece f' ds) :
    ∀ n ∈ f'.innermost.getLast?, n.isText = true → piece.isText = true := by
  have hpushed : ∀ {m n : Node}, n ∈ (f.push m).innermost.getLast? → m = n := by
    intro m n hn
    rw [innermost_push, List.getLast?_concat] at hn
    exact Option.some.inj hn
  -- a frame that is closed ends up as the last child, and a frame is no text
  have hclosed : ∀ {p : Frame → Bool} {k : Nat} {span : Span}, f.frames.findIdx? p = some k →
      ∀ n ∈ (f.closeBy k span).innermost.getLast?, n.isText = false := by
    intro p k span htarget
    obtain ⟨inner, outer, hframes⟩ := exists_target htarget span.start
    exact innermost_closeInnermost (hframes ▸ List.cons_ne_nil _ _) _ _
  intro n hn htext
  cases h with
  | node m =>
    rw [← hpushed hn] at htext
    exact htext
  | startTag | opener | branch => cases hn
  | strayEndTag | strayBranch | strayCloser =>
    rw [← hpushed hn] at htext
    cases htext
  | endTag htarget | closer htarget | closerOver _ htarget =>
    exact absurd htext (Bool.eq_false_iff.mp (hclosed htarget n hn))

/-! ### Steps

A text needs a look at what is in front of it, and nothing else does. So that it follows no text is
a condition of the step (`htext`). -/

/-- All nodes and frames are `Shaped`, and no two texts touch among the roots. -/
structure Shaped (source : String) (f : Forest) : Prop where
  holds : f.Holds (Node.Shaped source) (Frame.Shaped source)
  roots : NoTextsTouch f.roots.toList

namespace Shaped

theorem empty : Forest.empty.Shaped source := ⟨.empty, .empty⟩

theorem roots_push {n : Node} (h : NoTextsTouch f.roots.toList)
    (hn : n.isText = true → ∀ m ∈ f.innermost.getLast?, m.isText = false) :
    NoTextsTouch (f.push n).roots.toList := by
  obtain ⟨roots, frames⟩ := f
  cases frames with
  | nil =>
    show NoTextsTouch (roots.push n).toList
    rw [Array.toList_push]
    exact h.push hn
  | cons inner outer => exact h

theorem roots_closeInnermost (h : NoTextsTouch f.roots.toList) (stop : Nat)
    (closing : Option Span) : NoTextsTouch (f.closeInnermost stop closing).roots.toList := by
  obtain ⟨roots, frames⟩ := f
  cases frames with
  | nil => exact h
  | cons inner outer =>
    exact roots_push (f := ⟨roots, outer⟩) h fun htext =>
      absurd htext (Bool.eq_false_iff.mp (inner.isText_close stop closing))

theorem roots_abandon (h : NoTextsTouch f.roots.toList) (stop n : Nat) :
    NoTextsTouch (f.abandon stop n).roots.toList := by
  induction n generalizing f with
  | zero => exact h
  | succ n ih => exact ih (roots_closeInnermost h stop none)

end Shaped

/-- **Steps keep the shape.** So does adding a piece that brings along nodes and frames of the right
shape, if it is no text behind another one (`htext`). -/
theorem Adds.shaped (h : f.Adds r piece f' ds) (hf : f.Shaped source)
    (hpiece : piece.Brings r (Node.Shaped source) (Frame.Shaped source) ds)
    (htext : piece.isText = true → ∀ m ∈ f.innermost.getLast?, m.isText = false) :
    f'.Shaped source := by
  have hother : ∀ {n : Node}, n.isText = false →
      n.isText = true → ∀ m ∈ f.innermost.getLast?, m.isText = false :=
    fun hn htext => absurd htext (Bool.eq_false_iff.mp hn)
  refine ⟨h.holds hf.holds hpiece (fun frame n hn hframe => hframe.push fun htext =>
    absurd htext (Bool.eq_false_iff.mp hn)) (fun n hn hn' frame hframe hshaped => ?_), ?_⟩
  -- the new text stands in the innermost frame, whose last child `htext` speaks about
  · refine hshaped.push fun _ => ?_
    have hbefore := htext (hn ▸ hn')
    obtain ⟨roots, frames⟩ := f
    cases frames with
    | nil => cases hframe
    | cons inner outer =>
      obtain rfl : inner = frame := Option.some.inj hframe
      exact hbefore
  · cases h with
    | node n => exact Shaped.roots_push hf.roots htext
    | startTag | opener | branch => exact hf.roots
    | strayEndTag | strayBranch | strayCloser => exact Shaped.roots_push hf.roots (hother rfl)
    | endTag | closer | closerOver =>
      exact Shaped.roots_closeInnermost (Shaped.roots_abandon hf.roots _ _) _ _

end Forest

end RsxInspect
