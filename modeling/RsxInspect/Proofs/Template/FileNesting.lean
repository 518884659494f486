import RsxInspect.Proofs.Template.Loops
import RsxInspect.Proofs.Template.Nesting

/-!
# Files in their places

Sections stand in a file in order, the nodes of a template in order behind its opening tag, and
every node is nested (`Node.Nested`), whatever is wrong with the file: a frame that is never closed
ends where something around it ends. The bricks:

* `Builder.Reaches.nested`: at each top of the loop over pieces the forest is nested up to the last
  piece (`Forest.NestedTo`), by one case for each piece.
* `Document.ReadsTemplate.nested`: at the end of a template what is open is closed there, so all of
  it is nested.
* `Node.pairwise_starts` and `Section.pairwise_starts`: nested nodes in order start one after the
  other, and so do all nodes in them, by induction over the tree.

`nested_parse?` is all of it for the file that is read (`Document.Nested`).
-/

namespace RsxInspect

open RsxInspect.Span (Ordered)

/-- The nodes of a template stand behind its opening tag and in front of the end of its content
(`TemplateSection.contentEnd`), and each of them is nested. -/
structure TemplateSection.Nested (t : TemplateSection) : Prop where
  start : t.span.start = t.opening.start
  opening : t.opening.start < t.opening.stop
  roots : Ordered t.opening.stop (t.children.map Node.span) t.contentEnd
  stop : t.contentEnd ≤ t.span.stop
  nodes : ∀ n ∈ Node.subtreeAll t.children, n.Nested

/-- The sections of a file stand in it in order, and the nodes in their sections and in each other.
In document order the nodes start one after the other. -/
structure Document.Nested (d : Document) : Prop where
  sections : Ordered d.span.start (d.sections.map Section.span) d.span.stop
  templates : ∀ t, Section.template t ∈ d.sections → t.Nested
  nodes : ∀ n ∈ d.allNodes, n.Nested ∧ n.span.start < n.span.stop ∧
    Ordered n.span.start (n.children.map Node.span) n.span.stop
  starts : (d.nodes.toList.map fun x => x.2.span.start).Pairwise (· < ·)

/-! ### One template

The invariant of the loop over pieces is `Forest.NestedTo` with the end of the last piece, and the
next piece starts there or later. -/

section Template

variable {r : Reading} {p₀ p : Builder.Progress} {ts₀ ts : List Token} {source : String} {a b : Nat}

/-- At the top of the loop over pieces the forest is nested up to the last piece: the next one
starts behind it, since the tokens are `Spaced`. -/
theorem Builder.Reaches.nested (h : Reaches r p₀ ts₀ p ts) (h₀ : Trace .template ts₀)
    (hspaced : Spaced source p₀.stop (ts₀.map Token.span) b)
    (hstart : p₀.builder.forest.NestedTo a p₀.stop) : p.builder.forest.NestedTo a p.stop := by
  induction h with
  | start => exact hstart
  | @piece p t ts h ht ih =>
    have htrace := h.trace h₀
    have hhere := h.spaced h₀ hspaced
    have hplace := Piece.read_nestedAt r htrace ht hhere
    obtain ⟨ds, hadds, -⟩ := add_read r p.builder htrace ht hhere
    -- between the last piece and this one stand blanks only
    obtain ⟨hgap, hnonempty, -⟩ := (hhere.group (Piece.read_stops r htrace ht).1).ordered
    exact hadds.nested (s := spanOf t ts _) (ih.mono hgap) hnonempty hplace

/-- A template is `Nested`, whatever is open at its end: what is abandoned there ends there. -/
theorem Document.ReadsTemplate.nested {notes : Notes} {opening : Token}
    {s : SectionRead TemplateSection} {k : Nat} (h : ReadsTemplate r notes opening ts s p k)
    (hopening : opening.span.start < opening.span.stop) (htrace : Trace .template ts)
    (hspaced : Spaced source opening.span.stop (ts.map Token.span) b) : s.content.Nested := by
  obtain ⟨hstop, hend⟩ := h.stop_le htrace hspaced
  have hstart : Forest.empty.NestedTo opening.span.stop opening.span.stop :=
    ⟨fun n hn => (nomatch hn), Nat.le_refl _⟩
  have hforest := h.reaches.nested htrace hspaced hstart
  -- what is open ends where the last piece ended
  obtain ⟨hnodes, hframes⟩ := hforest.abandon (Nat.le_refl _) p.builder.forest.frames.length
  rw [Forest.frames_abandon_all] at hframes
  refine ⟨by rw [h.span, h.first]; rfl, by rw [h.first]; exact hopening, ?_, hend,
    fun n hn => hnodes n ?_⟩
  · rw [h.first, h.children]
    exact Ordered.mono hframes hstop
  · rw [h.children] at hn
    exact List.mem_append_left _ hn

end Template

/-! ### All nodes

Document order is that of `Node.subtreeAll`: a node, then all that is in it, then all that is behind
it. -/

/-- Nested nodes in a row start one after the other, and so do all nodes in them. The bounds `a` and
`b` are carried along, so that nodes behind can be told from nodes inside. By induction over the
forest (`forest_induct`). -/
theorem Node.pairwise_starts {ns : List Node} {a b : Nat} (h : Ordered a (ns.map span) b)
    (hnested : ∀ n ∈ subtreeAll ns, n.Nested) :
    ((subtreeAll ns).map (·.span.start)).Pairwise (· < ·) ∧
      ∀ n ∈ subtreeAll ns, a ≤ n.span.start ∧ n.span.start < b ∧ n.span.start < n.span.stop := by
  induction ns using forest_induct generalizing a b with
  | nil => exact ⟨.nil, fun n hn => (nomatch hn)⟩
  | cons n ns ihChildren ihBehind =>
    rw [subtreeAll_cons] at hnested ⊢
    obtain ⟨hstart, hnonempty, hbehind⟩ := h
    have hbelow : ∀ m ∈ subtreeAll n.children, m.Nested := fun m hm =>
      hnested m (List.mem_cons_of_mem _ (List.mem_append_left _ hm))
    have hrest : ∀ m ∈ subtreeAll ns, m.Nested := fun m hm =>
      hnested m (List.mem_cons_of_mem _ (List.mem_append_right _ hm))
    have hn : n.Nested := hnested n (List.mem_cons_self ..)
    -- first the node itself, then all that is in it, then all that stands behind it
    obtain ⟨hpairs, hinside⟩ := ihChildren (hn.ordered hnonempty) hbelow
    obtain ⟨hpairs', hinside'⟩ := ihBehind hbehind hrest
    have hend := hbehind.le
    refine ⟨?_, ?_⟩
    · rw [List.map_cons, List.map_append, List.pairwise_cons, List.pairwise_append]
      refine ⟨fun i hi => ?_, hpairs, hpairs', fun i hi j hj => ?_⟩
      · rw [← List.map_append] at hi
        obtain ⟨m, hm, rfl⟩ := List.mem_map.mp hi
        rcases List.mem_append.mp hm with hm | hm
        · exact (hinside m hm).1
        · exact Nat.lt_of_lt_of_le hnonempty (hinside' m hm).1
      · obtain ⟨m, hm, rfl⟩ := List.mem_map.mp hi
        obtain ⟨m', hm', rfl⟩ := List.mem_map.mp hj
        exact Nat.lt_of_lt_of_le (hinside m hm).2.1 (hinside' m' hm').1
    · intro m hm
      rcases List.mem_cons.mp hm with rfl | hm
      · exact ⟨hstart, by omega, hnonempty⟩
      · rcases List.mem_append.mp hm with hm | hm
        · have := hinside m hm
          omega
        · have := hinside' m hm
          omega

/-- A section has its nodes in it. Code has none. -/
def Section.Nested : Section → Prop
  | template t => t.Nested
  | _ => True

/-- The nodes of `Nested` sections in a row start one after the other. -/
theorem Section.pairwise_starts {sections : List Section} {a b : Nat}
    (h : Ordered a (sections.map span) b) (hnested : ∀ s ∈ sections, s.Nested) :
    ((sections.flatMap nodes).map (·.span.start)).Pairwise (· < ·) ∧
      ∀ n ∈ sections.flatMap nodes, a ≤ n.span.start ∧ n.span.start < n.span.stop := by
  induction sections generalizing a with
  | nil => exact ⟨.nil, fun n hn => (nomatch hn)⟩
  | cons s sections ih =>
    obtain ⟨hstart, hnonempty, hbehind⟩ := h
    obtain ⟨hpairs', hinside'⟩ := ih hbehind fun t ht => hnested t (List.mem_cons_of_mem _ ht)
    -- of the sections only a template has nodes, and they lie between its tag and its end
    obtain ⟨hpairs, hinside⟩ : (s.nodes.map (·.span.start)).Pairwise (· < ·) ∧ ∀ n ∈ s.nodes,
        s.span.start ≤ n.span.start ∧ n.span.start < s.span.stop ∧ n.span.start < n.span.stop := by
      have hs := hnested s (List.mem_cons_self ..)
      cases s with
      | template t =>
        obtain ⟨htag, hopening, hroots, hend, hnodes⟩ : t.Nested := hs
        obtain ⟨hpairs, hinside⟩ := Node.pairwise_starts (hroots.mono hend) hnodes
        refine ⟨hpairs, fun n hn => ?_⟩
        have := hinside n hn
        show t.span.start ≤ _ ∧ _ < t.span.stop ∧ _
        omega
      | _ => exact ⟨.nil, fun n hn => (nomatch hn)⟩
    rw [List.flatMap_cons, List.map_append]
    refine ⟨List.pairwise_append.mpr ⟨hpairs, hpairs', fun i hi j hj => ?_⟩, fun n hn => ?_⟩
    -- nodes of different sections are as far apart as their sections
    · obtain ⟨m, hm, rfl⟩ := List.mem_map.mp hi
      obtain ⟨m', hm', rfl⟩ := List.mem_map.mp hj
      exact Nat.lt_of_lt_of_le (hinside m hm).2.1 (hinside' m' hm').1
    · rcases List.mem_append.mp hn with hn | hn
      · have := hinside n hn
        omega
      · have := hinside' n hn
        omega

/-- At the top of the loop over sections all that were read are nested, by induction on
`Document.Reaches`. -/
theorem Document.Reaches.nested {r : Reading} {done : Array Section} {notes : Notes}
    {ts : List Token} {source : String}
    (h : Reaches r #[] .empty (significantTokens source) done notes ts) :
    ∀ s ∈ done.toList, s.Nested := by
  induction h with
  | start => exact fun s hs => (nomatch hs)
  | @opened done notes t ts kind s h hkind hs ih =>
    have hbetween := h.between
    -- only a template has something to prove
    have hnew : s.content.Nested := by
      rw [hs]
      cases kind with
      | template =>
        obtain ⟨p, k, hread⟩ := hbetween.readsTemplate hkind r (notesAt r done notes .template t)
        exact hread.nested hbetween.nonempty (hbetween.mode hkind) hbetween.spaced_behind
      | _ => trivial
    intro u hu
    rw [Array.toList_push, List.mem_append, List.mem_singleton] at hu
    rcases hu with hu | rfl
    · exact ih u hu
    · exact hnew
  | skipped h hkind ih => exact ih

/-- **Everything stands in its place.** Let the scan of a file reach the end. The file is read exactly
if the scans of its values do (`Document.valuesEnd`), and then the sections, the nodes in them and what
the nodes are made of stand in each other in order (`Document.Nested`). -/
theorem nested_parse? (source : String) (withTrees : Bool)
    (h : (Scanner.ofSource source).toEnd?.isSome = true) :
    (Document.parse? source withTrees).isSome
        = Document.valuesEnd source (significantTokens source) ∧
      ∀ parsed, Document.parse? source withTrees = some parsed → parsed.document.Nested := by
  let r : Reading := ⟨source, withTrees⟩
  refine Document.forall_parse? withTrees h ?_
  have hreaches := Document.reaches_end r source
  let d := (Document.ofTokens r (significantTokens source)).document
  have hnested : ∀ s ∈ d.sections, s.Nested := hreaches.nested
  obtain ⟨spans, hspaced, hsub, -⟩ := hreaches.exists_spans
  rw [offset_toEnd h, List.map_nil, List.append_nil] at hspaced
  have hsections : Ordered 0 (d.sections.map Section.span) source.utf8ByteSize :=
    hspaced.ordered.sublist hsub
  obtain ⟨hpairs, hinside⟩ := Section.pairwise_starts hsections hnested
  refine ⟨hsections, fun t ht => hnested _ ht, fun n hn => ?_, ?_⟩
  · obtain ⟨s, hs, hn'⟩ := List.mem_flatMap.mp hn
    have hnode : n.Nested := by
      cases s with
      | template t => exact (hnested _ hs).nodes n hn'
      | _ => cases hn'
    have hnonempty := (hinside n hn).2
    exact ⟨hnode, hnonempty, (hnode.ordered hnonempty).mono_left (Nat.le_succ _)⟩
  -- the starts along `nodes` are those along `allNodes`, in the same order
  · have hmap : (d.nodes.toList.map fun x => x.2.span.start) = d.allNodes.map (·.span.start) := by
      rw [← d.nodes_eq, List.map_map]
      rfl
    rw [hmap]
    exact hpairs

/-- An element and a block that are never closed, around text and an element without content. -/
theorem nested_parse?_unclosed :
    let source := String.ofList "<template><p a=\"b\">c\x7b\x7b@if d\x7d\x7d<br>e".toList
    (Scanner.ofSource source).toEnd?.isSome = true ∧
      ∃ parsed, Document.parse? source true = some parsed ∧ parsed.document.Nested ∧
        parsed.document.nodes.size = 5 := by
  intro source
  have hend : (Scanner.ofSource source).toEnd?.isSome = true := by decide +kernel
  obtain ⟨-, hnested⟩ := nested_parse? source true hend
  have hsize : (Document.parse? source true).map (·.document.nodes.size) = some 5 := by
    decide +kernel
  obtain ⟨parsed, hparsed, hsize⟩ := Option.map_eq_some_iff.mp hsize
  exact ⟨hend, parsed, hparsed, hnested parsed hparsed, hsize⟩

end RsxInspect
