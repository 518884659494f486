import RsxInspect.Proofs.Diagnostic.Plain
import RsxInspect.Proofs.Template.Steps

/-!
# Entries

What a template says of its balance is one `Entry` for each node: an element or a block that is left
open, a block with its closer, an error, or something else (`Node.entry`). A frame that is open
makes its entry when it is closed, and what that will be is known already (`Frame.entry`,
`Frame.closedEntry`). So there are two lists for a forest: `Forest.entries` of its complete nodes
and `Forest.opens` of its frames. The bricks:

* `Entry.counts_of_not_endsAt`: an entry counts only for the closer that it ends with.
* `Forest.entries_push` and `Forest.opens_push`: a node that is pushed makes one entry more, and
  leaves open what is open.
* `Forest.entries_abandon`: frames that are abandoned make the entries that they had announced.
* `Forest.frames_abandon`: the last of them is a child of the frame that stays, and it is left open.

Closing the frame under some others makes the entries of those, and one of its own that knows
whether there were any (`Forest.exists_closeBy`). For that the forest has to be `Tidy`.
-/

namespace RsxInspect

/-- What a node says of the balance of its template. -/
inductive Entry where
  /-- A block without a closer. -/
  | openBlock (kind : DirectiveKind)
  /-- A block, the span of its closer, and whether something directly in it is left open. -/
  | block (kind : DirectiveKind) (closer : Span) (covers : Bool)
  /-- An element that has to be closed and is not. -/
  | openElement
  | error (span : Span)
  | other
  deriving DecidableEq

namespace Entry

/-- The entry of a block of the given kind, with a closer or without. -/
def isDirective (kind : DirectiveKind) : Entry → Bool
  | openBlock k | block k _ _ => k == kind
  | _ => false

/-- The entry of a block without a closer. -/
def isOpenBlock : Entry → Bool
  | openBlock _ => true
  | _ => false

/-- The entry of an element that has to be closed and is not. -/
def isOpenElement : Entry → Bool
  | openElement => true
  | _ => false

/-- The entry of a block that ends with what stands at the span, or of an error there. -/
def endsAt (span : Span) : Entry → Bool
  | block _ s _ | error s => s == span
  | _ => false

/-- The same, where the block has to be of the given kind: an error answers a closer of either
kind. -/
def answers (kind : DirectiveKind) (span : Span) : Entry → Bool
  | block k s _ => k == kind && s == span
  | error s => s == span
  | _ => false

/-- What stands at the span closes nothing, or closes a block over something that is left open. -/
def isWrongAt (span : Span) : Entry → Bool
  | block _ s covers => s == span && covers
  | error s => s == span
  | _ => false

/-- Whoever is wrong at a span ends there (`Entry.endsAt`). -/
theorem endsAt_of_isWrongAt {e : Entry} {s : Span} (h : e.isWrongAt s = true) : e.endsAt s = true := by
  cases e with
  | block k t covers => exact (Bool.and_eq_true_iff.mp h).1
  | error t => exact h
  | _ => cases h

/-- Whoever `answers` a closer `endsAt` its span. -/
theorem endsAt_of_answers {e : Entry} {kind : DirectiveKind} {s : Span}
    (h : e.answers kind s = true) : e.endsAt s = true := by
  cases e with
  | block k t covers => exact (Bool.and_eq_true_iff.mp h).2
  | error t => exact h
  | _ => cases h

/-- Entries that do not end with what stands at a span do not count for it, be it by `endsAt`,
`answers` or `isWrongAt`. -/
theorem counts_of_not_endsAt {es : List Entry} {s : Span}
    (h : ∀ e ∈ es, e.endsAt s = false) (kind : DirectiveKind) :
    es.countP (·.endsAt s) = 0 ∧ es.countP (·.answers kind s) = 0 ∧
      es.any (·.isWrongAt s) = false := by
  have hnone : ∀ p : Entry → Bool, (∀ e : Entry, p e = true → e.endsAt s = true) →
      ∀ e ∈ es, ¬ p e = true := by
    intro p hp e he hpe
    have hend := h e he
    rw [hp e hpe] at hend
    cases hend
  exact ⟨List.countP_eq_zero.mpr (hnone _ fun _ he => he),
    List.countP_eq_zero.mpr (hnone _ fun _ he => endsAt_of_answers he),
    List.any_eq_false.mpr (hnone _ fun _ he => endsAt_of_isWrongAt he)⟩

end Entry

/-- An element has to be closed by an end tag if it does not close itself and has content by its name
and its start tag ends with a `>`; it is open if it has no end tag then. -/
def Element.isOpen (ts : List Token) (e : Element) : Bool :=
  e.endTag.isNone && !e.selfClosing && !Vocabulary.isVoidElement e.name &&
    ts.any fun t => t.kind == .tagClose && t.span.stop == e.startTag.stop

namespace Node

/-- The node is left open. -/
def isOpen (ts : List Token) : Node → Bool
  | .element e _ => e.isOpen ts
  | .directive d _ => d.closing.isNone
  | _ => false

/-- The entry of a node, where the tokens of the file are `ts`. -/
def entry (ts : List Token) : Node → Entry
  | .element e _ => if e.isOpen ts then .openElement else .other
  | .directive d branches =>
    match d.closing with
    | none => .openBlock d.kind
    | some closer => .block d.kind closer ((branches.flatMap Branch.children).any (·.isOpen ts))
  | .error s => .error s
  | _ => .other

/-- Nodes with the entries `other` and `error` are not left open. -/
theorem isOpen_of_entry {ts : List Token} {n : Node} {s : Span}
    (h : n.entry ts = .other ∨ n.entry ts = .error s) : n.isOpen ts = false := by
  cases n with
  | element e children =>
    refine Bool.eq_false_iff.mpr fun hopen => ?_
    have hentry : (Node.element e children).entry ts = .openElement := if_pos hopen
    rw [hentry] at h
    exact h.elim (nomatch ·) (nomatch ·)
  | directive d branches =>
    obtain ⟨kind, closing, span⟩ := d
    cases closing with
    | none => exact h.elim (nomatch ·) (nomatch ·)
    | some closer => rfl
  | _ => rfl

end Node

/-! ### Frames

What a frame will say is known while it is open: `entry` if it is abandoned, `closedEntry` if it is
closed. -/

namespace Frame

variable {ts : List Token} {f : Frame}

/-- The entry that a frame makes if it is never closed: that of the node which `Frame.close` makes
of it. -/
def entry (ts : List Token) (f : Frame) : Entry := (f.close 0 none).entry ts

/-- The entry that a frame makes if it is closed by what stands at the span, where `covers` says
whether a node in it is left open. -/
def closedEntry (span : Span) (covers : Bool) : Frame → Entry
  | .element _ _ => .other
  | .block b => .block b.kind span covers

/-- So a frame that `abandon` closes makes the entry that it has. -/
theorem entry_close_none (f : Frame) (stop : Nat) : (f.close stop none).entry ts = f.entry ts := by
  cases f <;> rfl

/-- A frame that is closed makes its `closedEntry`. -/
theorem entry_close_some (f : Frame) (stop : Nat) (span : Span) :
    (f.close stop (some span)).entry ts
      = f.closedEntry span (f.children.any (·.isOpen ts)) := by
  cases f <;> rfl

/-- What comes into a frame does not change its `entry`. -/
theorem entry_push (f : Frame) (n : Node) : (f.push n).entry ts = f.entry ts := by
  cases f <;> rfl

/-- The same for `closedEntry`. -/
theorem closedEntry_push (f : Frame) (n : Node) (span : Span) (covers : Bool) :
    (f.push n).closedEntry span covers = f.closedEntry span covers := by
  cases f <;> rfl

/-- A node that is closed is not left open. -/
theorem not_isOpen_close (f : Frame) (stop : Nat) (span : Span) :
    (f.close stop (some span)).isOpen ts = false := by
  cases f <;> rfl

/-- A frame that is abandoned is, unless it is an element that need not be closed. -/
theorem isOpen_close_none (h : f.entry ts ≠ .other) (stop : Nat) :
    (f.close stop none).isOpen ts = true := by
  cases f with
  | block b => rfl
  | element e children =>
    cases hopen : ((element e children).close stop none).isOpen ts with
    | true => rfl
    | false => exact absurd (if_neg (Bool.eq_false_iff.mp hopen)) h

/-- A frame with an entry of its own is a block, or an element that has to be closed
(`Element.isOpen`). -/
theorem entry_cases (h : f.entry ts ≠ .other) :
    (∃ b, f = .block b ∧ f.entry ts = .openBlock b.kind) ∨
      (∃ e children, f = .element e children ∧ f.entry ts = .openElement) := by
  cases f with
  | block b => exact .inl ⟨b, rfl, rfl⟩
  | element e children => exact .inr ⟨e, children, rfl, if_pos (isOpen_close_none h 0)⟩

/-- What is reported on a frame that is never closed (`Frame.unclosed`) is what its entry says: one
diagnostic for a block, another one for an element. -/
theorem reported (h : f.entry ts ≠ .other) :
    let d := f.unclosed.on f.opening
    d.isUnterminatedDirective = (f.entry ts).isOpenBlock ∧
      d.isNeverClosed = (f.entry ts).isOpenElement ∧
      d.isMismatchedClose = false ∧ ∀ s, (f.entry ts).endsAt s = false := by
  rcases entry_cases h with ⟨b, rfl, hentry⟩ | ⟨e, children, rfl, hentry⟩
  · rw [hentry]
    exact ⟨rfl, rfl, rfl, fun s => rfl⟩
  · rw [hentry]
    exact ⟨rfl, Problem.isNeverClosed_unclosedElement _ _, rfl, fun s => rfl⟩

/-- The frame that `isBlock` finds for a closer is a block. -/
theorem eq_block_of_isBlock (f : Frame) {kind : DirectiveKind} (h : f.isBlock kind = true) :
    ∃ b, f = .block b ∧ b.kind = kind := by
  cases f with
  | element e children => cases h
  | block b => exact ⟨b, rfl, beq_iff_eq.mp h⟩

end Frame

/-! ### Forests

The entries of a forest are compared up to their order: a frame makes its entry behind its children,
where a list of the nodes has it in front of them. -/

namespace Forest

variable {ts : List Token} {f : Forest}

/-- The entries of the complete nodes: all that are roots or in the open frames, with their
descendants. -/
def entries (ts : List Token) (f : Forest) : List Entry := f.nodes.map (Node.entry ts)

/-- The entries that the open frames make if they are never closed, innermost first. -/
def opens (ts : List Token) (f : Forest) : List Entry := f.frames.map (Frame.entry ts)

/-- What is open has to be closed, and nothing directly in it is left open. The second part is why a
block knows whether it covers an open node: only abandoned frames can be one. -/
def Tidy (ts : List Token) (f : Forest) : Prop :=
  ∀ frame ∈ f.frames, frame.entry ts ≠ .other ∧ ∀ c ∈ frame.children, c.isOpen ts = false

/-- A node that is pushed does not change what is open. -/
theorem opens_push (f : Forest) (n : Node) : (f.push n).opens ts = f.opens ts := by
  obtain ⟨roots, frames⟩ := f
  cases frames with
  | nil => rfl
  | cons inner outer => exact congrArg (· :: _) (inner.entry_push n)

/-- It makes one entry more, if it has no children. -/
theorem entries_push (f : Forest) {n : Node} (h : n.children = []) :
    ((f.push n).entries ts).Perm (n.entry ts :: f.entries ts) := by
  have hperm := (f.nodes_push n).map (Node.entry ts)
  rw [Node.subtree_eq, h] at hperm
  exact hperm

/-- A forest stays `Tidy` if the node is not left open. -/
theorem Tidy.push (h : f.Tidy ts) {n : Node} (hn : n.isOpen ts = false) : (f.push n).Tidy ts := by
  obtain ⟨roots, frames⟩ := f
  cases frames with
  | nil => exact fun frame hframe => (nomatch hframe)
  | cons inner outer =>
    intro frame hframe
    rcases List.mem_cons.mp hframe with rfl | hframe
    · obtain ⟨hentry, hchildren⟩ := h inner (List.mem_cons_self ..)
      refine ⟨by rwa [inner.entry_push], fun c hc => ?_⟩
      rw [inner.children_push] at hc
      rcases List.mem_append.mp hc with hc | hc
      · exact hchildren c hc
      · rw [List.mem_singleton.mp hc]
        exact hn
    · exact h frame (List.mem_cons_of_mem _ hframe)

/-- A frame that is opened makes no entry yet. -/
theorem entries_openFrame (f : Forest) (ts : List Token) {frame : Frame} (h : frame.children = []) :
    (f.openFrame frame).entries ts = f.entries ts := by
  rw [entries, f.nodes_openFrame h]
  rfl

/-- A forest stays `Tidy` if the frame has to be closed and is empty. -/
theorem Tidy.openFrame (h : f.Tidy ts) {frame : Frame} (hframe : frame.entry ts ≠ .other)
    (hempty : frame.children = []) : (f.openFrame frame).Tidy ts := by
  intro other hother
  rcases List.mem_cons.mp hother with rfl | hother
  · rw [hempty]
    exact ⟨hframe, fun c hc => (nomatch hc)⟩
  · exact h other hother

/-- `closeInnermost` makes the entry of the node that it becomes. -/
theorem entries_closeInnermost (ts : List Token) {inner : Frame} {outer : List Frame}
    (h : f.frames = inner :: outer) (stop : Nat) (closing : Option Span) :
    ((f.closeInnermost stop closing).entries ts).Perm
      ((inner.close stop closing).entry ts :: f.entries ts) :=
  (f.nodes_closeInnermost h stop closing).map (Node.entry ts)

/-- Then the others are open. -/
theorem opens_closeInnermost {inner : Frame} {outer : List Frame} (h : f.frames = inner :: outer)
    (stop : Nat) (closing : Option Span) :
    (f.closeInnermost stop closing).opens ts = outer.map (Frame.entry ts) := by
  rw [closeInnermost, h]
  exact opens_push _ _

/-- Each frame that `abandon` closes makes the entry that it had among those of the open frames. By
induction on how many are abandoned. -/
theorem entries_abandon (ts : List Token) (f : Forest) (stop n : Nat) :
    ((f.abandon stop n).entries ts).Perm ((f.opens ts).take n ++ f.entries ts) := by
  induction n generalizing f with
  | zero => exact .refl _
  | succ n ih =>
    rw [abandon]
    refine (ih _).trans ?_
    cases hframes : f.frames with
    | nil => rw [closeInnermost, hframes, opens, hframes, List.map_nil, List.take_nil, List.take_nil]
    | cons inner outer =>
      have hinner := entries_closeInnermost ts hframes stop none
      rw [inner.entry_close_none] at hinner
      rw [opens_closeInnermost hframes, opens, hframes, List.map_cons, List.take_succ_cons]
      exact (hinner.append_left _).trans List.perm_middle

/-- Where frames are abandoned, the innermost one of those that stay gets the last of them as a
child, which is left open; the others go into each other. So it is enough to look at one child. -/
theorem frames_abandon (hf : ∀ frame ∈ f.frames, frame.entry ts ≠ .other) {n : Nat} {target : Frame}
    {outer : List Frame} (h : f.frames.drop n = target :: outer) (stop : Nat) :
    ∃ t, (f.abandon stop n).frames = t :: outer ∧ ((n = 0 ∧ t = target) ∨
      (0 < n ∧ ∃ node : Node, node.isOpen ts = true ∧ t = target.push node)) := by
  induction n generalizing f with
  | zero => exact ⟨target, h, .inl ⟨rfl, rfl⟩⟩
  | succ n ih =>
    obtain ⟨roots, frames⟩ := f
    cases frames with
    | nil => cases h
    | cons inner rest =>
      have hinner := Frame.isOpen_close_none (hf inner (List.mem_cons_self ..)) stop
      have hrest : rest.drop n = target :: outer := h
      cases n with
      | zero =>
        -- the last frame that is abandoned comes into the target
        obtain rfl : rest = target :: outer := hrest
        exact ⟨_, rfl, .inr ⟨Nat.one_pos, _, hinner, rfl⟩⟩
      | succ n =>
        cases rest with
        | nil => cases hrest
        | cons next rest =>
          -- the next frame is abandoned as well, with the first one in it
          have hopen : ∀ frame ∈ next.push (inner.close stop none) :: rest,
              frame.entry ts ≠ .other := by
            intro frame hframe
            rcases List.mem_cons.mp hframe with rfl | hframe
            · rw [next.entry_push]
              exact hf next (by simp)
            · exact hf frame (by simp [hframe])
          obtain ⟨t, ht, hcases⟩ := ih (f := ⟨roots, next.push (inner.close stop none) :: rest⟩)
            hopen hrest
          refine ⟨t, ht, .inr ⟨Nat.succ_pos _, ?_⟩⟩
          rcases hcases with ⟨hzero, -⟩ | ⟨-, hnode⟩
          · cases hzero
          · exact hnode

/-- **Closing.** The frames above the target make their entries, and the target makes one that knows
whether there were any (`Frame.closedEntry`). The frames below are open as before, and the forest
stays tidy. -/
theorem exists_closeBy (hf : f.Tidy ts) {p : Frame → Bool} {n : Nat}
    (h : f.frames.findIdx? p = some n) (span : Span) :
    ∃ target, p target = true ∧ target.entry ts ≠ .other ∧
      f.opens ts = (f.frames.take n).map (Frame.entry ts)
        ++ target.entry ts :: (f.closeBy n span).opens ts ∧
      ((f.closeBy n span).entries ts).Perm (target.closedEntry span (decide (0 < n))
        :: (f.frames.take n).map (Frame.entry ts) ++ f.entries ts) ∧
      (f.closeBy n span).Tidy ts := by
  obtain ⟨hlt, htarget, -⟩ := List.findIdx?_eq_some_iff_getElem.mp h
  have hdrop : f.frames.drop n = f.frames[n] :: f.frames.drop (n + 1) :=
    List.drop_eq_getElem_cons hlt
  generalize f.frames[n] = target at htarget hdrop
  generalize f.frames.drop (n + 1) = outer at hdrop
  have hsplit : f.frames = f.frames.take n ++ target :: outer := by
    rw [← hdrop, List.take_append_drop]
  have hmem : ∀ frame ∈ target :: outer, frame ∈ f.frames := by
    intro frame hframe
    rw [hsplit]
    exact List.mem_append_right _ hframe
  obtain ⟨htidy, hchildren⟩ := hf target (hmem _ (List.mem_cons_self ..))
  obtain ⟨t, hframes, hcases⟩ := frames_abandon (fun frame hframe => (hf frame hframe).1) hdrop
    span.start
  -- nothing in the target was open before, and what was abandoned last is
  have hentry : (t.close span.stop (some span)).entry ts
      = target.closedEntry span (decide (0 < n)) := by
    rw [t.entry_close_some]
    rcases hcases with ⟨rfl, rfl⟩ | ⟨hpos, node, hnode, rfl⟩
    · have hnone : t.children.any (·.isOpen ts) = false := by
        refine List.any_eq_false.mpr fun c hc => ?_
        rw [hchildren c hc]
        decide
      rw [hnone]
      rfl
    · rw [target.closedEntry_push, target.children_push, List.any_append, decide_eq_true hpos]
      simp [hnode]
  refine ⟨target, htarget, htidy, ?_, ?_, ?_⟩
  · rw [closeBy, opens_closeInnermost hframes, opens]
    conv => lhs; rw [hsplit]
    rw [List.map_append, List.map_cons]
  · -- first the frames above the target make their entries, then the target makes its own
    have hclose := entries_closeInnermost ts hframes span.stop (some span)
    rw [hentry] at hclose
    have habandon := entries_abandon ts f span.start n
    rw [opens, ← List.map_take] at habandon
    exact hclose.trans (habandon.cons _)
  · rw [closeBy, closeInnermost, hframes]
    refine Tidy.push (fun frame hframe => ?_) (t.not_isOpen_close _ span)
    exact hf frame (hmem _ (List.mem_cons_of_mem _ hframe))

end Forest

end RsxInspect
