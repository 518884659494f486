import RsxInspect.Tree

/-!
# Nodes in document order

The visit of a file keeps the nodes that are still to come on a list (`Node.visit`). What it
finds is the recursive preorder (`Node.preorder`): a node with its depth, then the nodes below it,
one level deeper. `toList_visit` is the invariant of the visit.

A node can be equal to another one, so the places at which nodes stand are told apart by addresses:
the way from the roots down, an index for each step (`Node.at?`). The preorder with addresses
(`Node.addressed`)

* is the preorder with the depths (`map_addressed`),
* lists each address at which a node stands (`mem_addressed`), once, in the lexicographic order of
  addresses (`pairwise_addressed`),
* and behind a node lists those that stand below it (`exists_addressed`).

`Document.nodes_preorder` puts this together for the nodes of a file.
-/

namespace RsxInspect

namespace Node

/-- What holds of a list of nodes if it holds of the `Node.children` of the first one and of the
others holds of every list. It is the induction that all lemmas of this module share. -/
theorem forest_induct {motive : List Node → Prop} (nil : motive [])
    (cons : ∀ n ns, motive n.children → motive ns → motive (n :: ns)) : ∀ ns, motive ns
  | [] => nil
  | n :: ns => cons n ns (forest_induct nil cons n.children) (forest_induct nil cons ns)
termination_by ns => countAll ns
decreasing_by
  all_goals
    have := countAll_children n
    rw [countAll]
    omega

/-! ### The recursive preorder

The recursion goes over nested lists, as the tree does. The visit keeps one list of what is still to
come, where the children of a node go in front (`toList_visit`). -/

mutual

/-- The node with its depth, then what is below it, one level deeper. It recurs with `preorderAll`
over children and with `preorderBranches` over the branches of a block. -/
def preorder (depth : Nat) : Node → List (Nat × Node)
  | .element e children => (depth, .element e children) :: preorderAll (depth + 1) children
  | .directive d branches => (depth, .directive d branches) :: preorderBranches (depth + 1) branches
  | .text t => [(depth, .text t)]
  | .comment s => [(depth, .comment s)]
  | .interpolation i => [(depth, .interpolation i)]
  | .error s => [(depth, .error s)]

def preorderAll (depth : Nat) : List Node → List (Nat × Node)
  | [] => []
  | n :: ns => preorder depth n ++ preorderAll depth ns

def preorderBranches (depth : Nat) : List Branch → List (Nat × Node)
  | [] => []
  | .mk _ children :: branches => preorderAll depth children ++ preorderBranches depth branches

end

theorem preorderAll_eq_flatMap (depth : Nat) (ns : List Node) :
    preorderAll depth ns = ns.flatMap (preorder depth) := by
  induction ns with
  | nil => rfl
  | cons n ns ih =>
    rw [List.flatMap_cons, ← ih]
    rfl

theorem preorderBranches_eq_flatMap (depth : Nat) (branches : List Branch) :
    preorderBranches depth branches
      = (branches.flatMap Branch.children).flatMap (preorder depth) := by
  induction branches with
  | nil => rfl
  | cons b branches ih =>
    obtain ⟨head, children⟩ := b
    rw [List.flatMap_cons, List.flatMap_append, ← ih, ← preorderAll_eq_flatMap]
    rfl

/-- A node comes first, then its children with what is below them, whatever sort of node it is. -/
theorem preorder_eq (depth : Nat) (n : Node) :
    n.preorder depth = (depth, n) :: n.children.flatMap (preorder (depth + 1)) := by
  cases n with
  | element e children => exact congrArg _ (preorderAll_eq_flatMap _ children)
  | directive d branches => exact congrArg _ (preorderBranches_eq_flatMap _ branches)
  | _ => rfl

/-- A visit adds the preorder of each node that is pending, by induction on the recursion of
`visit`: the children of a node go in front of what was pending behind it. -/
theorem toList_visit (done : Array (Nat × Node)) (pending : List (Nat × Node)) :
    (visit done pending).toList
      = done.toList ++ pending.flatMap fun x => x.2.preorder x.1 := by
  induction done, pending using visit.induct with
  | case1 done =>
    rw [visit]
    exact (List.append_nil _).symm
  | case2 done depth n pending ih =>
    rw [visit, ih, Array.toList_push, List.append_assoc, List.flatMap_append, List.flatMap_map,
      List.flatMap_cons, preorder_eq]
    rfl

/-! ### Addresses

A node may occur several times in a tree, so it is told by its address, the indices on the way down
from the top. -/

/-- The node at the end of the way down from a node: an index among the `Node.children`, then one
among theirs, and so on. -/
def below? (n : Node) : List Nat → Option Node
  | [] => some n
  | i :: path => n.children[i]?.bind fun child => child.below? path

/-- The node at an address, which starts with an index in the list `ns`. -/
def at? (ns : List Node) : List Nat → Option Node
  | [] => none
  | i :: path => ns[i]?.bind fun n => n.below? path

theorem below?_append (n : Node) (path more : List Nat) :
    n.below? (path ++ more) = (n.below? path).bind fun m => m.below? more := by
  induction path generalizing n with
  | nil => rfl
  | cons i path ih =>
    show n.children[i]?.bind _ = (n.children[i]?.bind _).bind _
    cases n.children[i]? with
    | none => rfl
    | some child => exact ih child

/-- An address goes on below the node that `at?` finds at it. -/
theorem at?_append {ns : List Node} {address : List Nat} {n : Node} (h : at? ns address = some n)
    (more : List Nat) : at? ns (address ++ more) = n.below? more := by
  cases address with
  | nil => cases h
  | cons i path =>
    obtain ⟨m, hi, hm⟩ := Option.bind_eq_some_iff.mp h
    show ns[i]?.bind _ = _
    rw [hi]
    show m.below? (path ++ more) = _
    rw [below?_append, hm]
    rfl

theorem at?_succ (n : Node) (ns : List Node) (i : Nat) (path : List Nat) :
    at? (n :: ns) ((i + 1) :: path) = at? ns (i :: path) := rfl

/-- The preorder of the nodes with their addresses, which are those of the list from index `i` on
behind `front`. The children of a node are listed behind its own address, from index 0 on. -/
def addressed (front : List Nat) : Nat → List Node → List (List Nat × Node)
  | _, [] => []
  | i, n :: ns =>
    (front ++ [i], n) :: (addressed (front ++ [i]) 0 n.children ++ addressed front (i + 1) ns)
termination_by _ ns => countAll ns
decreasing_by
  all_goals
    have := countAll_children n
    rw [countAll]
    omega

/-- The length of an address tells the depth, so `addressed` without the addresses is `preorder`. -/
theorem map_addressed (front : List Nat) (i : Nat) (ns : List Node) :
    (addressed front i ns).map (fun x => (x.1.length - 1, x.2))
      = ns.flatMap (preorder front.length) := by
  induction ns using forest_induct generalizing front i with
  | nil =>
    rw [addressed]
    rfl
  | cons n ns hchildren hns =>
    rw [addressed, List.map_cons, List.map_append, hchildren, hns, List.flatMap_cons, preorder_eq,
      List.length_append]
    rfl

/-- The addresses at which `at?` finds a node are exactly those that `addressed` lists, each with
its node. -/
theorem mem_addressed {front : List Nat} {i : Nat} {ns : List Node} {address : List Nat}
    {m : Node} : (address, m) ∈ addressed front i ns ↔
      ∃ j path, address = front ++ (i + j) :: path ∧ at? ns (j :: path) = some m := by
  induction ns using forest_induct generalizing front i address with
  | nil => simp [addressed, at?]
  | cons n ns hchildren hns =>
    rw [addressed, List.mem_cons, List.mem_append, hchildren, hns]
    constructor
    -- an address of the forest is that of `n`, one below it, or one of its later siblings
    · rintro (heq | ⟨j, path, rfl, hm⟩ | ⟨j, path, rfl, hm⟩)
      · obtain ⟨rfl, rfl⟩ := Prod.mk.inj heq
        exact ⟨0, [], rfl, rfl⟩
      · exact ⟨0, j :: path, by simp, hm⟩
      · refine ⟨j + 1, path, ?_, (at?_succ n ns j path).trans hm⟩
        rw [Nat.add_assoc, Nat.add_comm 1]
    · rintro ⟨j, path, rfl, hm⟩
      cases j with
      | succ j =>
        refine .inr (.inr ⟨j, path, ?_, (at?_succ n ns j path).symm.trans hm⟩)
        rw [Nat.add_assoc, Nat.add_comm 1]
      | zero =>
        cases path with
        | nil =>
          obtain rfl : n = m := Option.some.inj hm
          exact .inl rfl
        | cons k path => exact .inr (.inl ⟨k, path, by simp, hm⟩)

/-- The first index in which addresses differ decides on their order. -/
theorem address_lt (front path path' : List Nat) {i j : Nat} (h : i < j) :
    front ++ i :: path < front ++ j :: path' :=
  List.append_left_lt (List.cons_lt_cons_iff.mpr (.inl h))

/-- `addressed` comes in the lexicographic order of the addresses, so none of them comes twice.
Those below a node go on behind its address, and those of the nodes behind it differ in an index
first. -/
theorem pairwise_addressed (front : List Nat) (i : Nat) (ns : List Node) :
    (addressed front i ns).Pairwise fun x y => x.1 < y.1 := by
  induction ns using forest_induct generalizing front i with
  | nil =>
    rw [addressed]
    exact .nil
  | cons n ns hchildren hns =>
    rw [addressed]
    -- `n` before all others, its descendants before its later siblings
    refine .cons ?_ (List.pairwise_append.mpr ⟨hchildren _ _, hns _ _, ?_⟩)
    · rintro ⟨address, m⟩ hmem
      rcases List.mem_append.mp hmem with h | h
      · obtain ⟨j, path, rfl, -⟩ := mem_addressed.mp h
        rw [← List.append_nil (front ++ [i]), List.append_assoc _ []]
        exact List.append_left_lt (List.nil_lt_cons _ _)
      · obtain ⟨j, path, rfl, -⟩ := mem_addressed.mp h
        exact address_lt _ _ _ (by omega)
    · rintro ⟨address, m⟩ h ⟨address', m'⟩ h'
      obtain ⟨j, path, rfl, -⟩ := mem_addressed.mp h
      obtain ⟨j', path', rfl, -⟩ := mem_addressed.mp h'
      rw [List.append_assoc]
      exact address_lt _ _ _ (by omega)

/-- Behind a node, those below it are listed before anything else is. -/
theorem exists_addressed {front : List Nat} {i j : Nat} {ns : List Node} {path : List Nat} {m : Node}
    (h : at? ns (j :: path) = some m) : ∃ before behind,
      addressed front i ns = before ++ ((front ++ (i + j) :: path, m) ::
        addressed (front ++ (i + j) :: path) 0 m.children) ++ behind := by
  induction ns using forest_induct generalizing front i j path with
  | nil => cases h
  | cons n ns hchildren hns =>
    rw [addressed]
    -- the node is below a later sibling, `n` itself, or below `n`
    cases j with
    | succ j =>
      obtain ⟨before, behind, hsplit⟩ :=
        @hns front (i + 1) j path ((at?_succ n ns j path).symm.trans h)
      rw [hsplit, Nat.add_assoc i 1 j, Nat.add_comm 1 j]
      exact ⟨(front ++ [i], n) :: (addressed (front ++ [i]) 0 n.children ++ before), behind,
        by simp⟩
    | zero =>
      cases path with
      | nil =>
        obtain rfl : n = m := Option.some.inj h
        exact ⟨[], addressed front (i + 1) ns, rfl⟩
      | cons k path =>
        obtain ⟨before, behind, hsplit⟩ := @hchildren (front ++ [i]) 0 k path h
        have haddress : front ++ [i] ++ (0 + k) :: path = front ++ (i + 0) :: k :: path := by simp
        rw [hsplit, haddress]
        exact ⟨(front ++ [i], n) :: before, behind ++ addressed front (i + 1) ns, by simp⟩

end Node

namespace Document

/-- The nodes at the top of all templates. -/
def roots (d : Document) : List Node := d.sections.flatMap Section.roots

/-- The node at an address, which starts with an index among the nodes at the top. -/
def nodeAt? (d : Document) (address : List Nat) : Option Node := Node.at? d.roots address

/-- The preorder of the nodes of all templates with their addresses. -/
def addressed (d : Document) : List (List Nat × Node) := Node.addressed [] 0 d.roots

theorem mem_addressed_iff (d : Document) (address : List Nat) (n : Node) :
    (address, n) ∈ d.addressed ↔ d.nodeAt? address = some n := by
  unfold addressed
  rw [Node.mem_addressed]
  constructor
  · rintro ⟨j, path, rfl, h⟩
    rw [Nat.zero_add]
    exact h
  · intro h
    cases address with
    | nil => cases h
    | cons j path => exact ⟨j, path, by simp, h⟩

theorem toList_nodes (d : Document) : d.nodes.toList = d.roots.flatMap (Node.preorder 0) := by
  unfold nodes
  rw [Node.toList_visit, List.flatMap_map]
  rfl

/-- The nodes below the one at an address are those at the addresses that go on behind it
(`at?_append`). -/
theorem mem_addressed_children {d : Document} {address : List Nat} {n : Node}
    (h : d.nodeAt? address = some n) (lower : List Nat) (m : Node) :
    (lower, m) ∈ Node.addressed address 0 n.children ↔
      d.nodeAt? lower = some m ∧ ∃ path, path ≠ [] ∧ lower = address ++ path := by
  rw [Node.mem_addressed]
  constructor
  · rintro ⟨j, path, rfl, hm⟩
    rw [Nat.zero_add]
    exact ⟨(Node.at?_append h (j :: path)).trans hm, j :: path, nofun, rfl⟩
  · rintro ⟨hm, path, hpath, rfl⟩
    obtain ⟨j, path, rfl⟩ := List.exists_cons_of_ne_nil hpath
    exact ⟨j, path, by rw [Nat.zero_add], (Node.at?_append h (j :: path)).symm.trans hm⟩

/-- **Nodes in document order.** `Document.nodes` is the recursive `preorder` of the templates, one
template and one of its nodes at the top after the other. So each address at which a node stands is
listed once, with as many steps below the top as the depth says, and directly behind the node at an
address come those at all addresses that go on behind it. -/
theorem nodes_preorder (d : Document) :
    d.nodes.toList = d.sections.flatMap (fun s => s.roots.flatMap (Node.preorder 0)) ∧
    d.nodes.toList = d.addressed.map (fun x => (x.1.length - 1, x.2)) ∧
    (d.addressed.map Prod.fst).Nodup ∧
    (∀ address n, (address, n) ∈ d.addressed ↔ d.nodeAt? address = some n) ∧
    (d.addressed.Pairwise fun x y => x.1 < y.1) ∧
    ∀ address n, d.nodeAt? address = some n → ∃ before below behind,
      d.addressed = before ++ ((address, n) :: below) ++ behind ∧
      ∀ lower m, (lower, m) ∈ below ↔
        d.nodeAt? lower = some m ∧ ∃ path, path ≠ [] ∧ lower = address ++ path := by
  have hnodes := d.toList_nodes
  have horder := Node.pairwise_addressed [] 0 d.roots
  refine ⟨?_, ?_, ?_, d.mem_addressed_iff, horder, fun address n h => ?_⟩
  · rw [hnodes, roots, List.flatMap_assoc]
  · rw [hnodes, addressed, Node.map_addressed]
    rfl
  · refine List.Pairwise.map _ (fun x y hlt => ?_) horder
    rintro heq
    rw [heq] at hlt
    exact List.lt_irrefl _ hlt
  -- the empty address names no node
  · cases address with
    | nil => cases h
    | cons j path =>
      obtain ⟨before, behind, hsplit⟩ := @Node.exists_addressed [] 0 j d.roots path n h
      rw [Nat.zero_add] at hsplit
      exact ⟨before, _, behind, hsplit, mem_addressed_children h⟩

/-- A script comes without nodes. In the template behind it, the children of both branches come behind
their block, the second one at the index that it has among all of them. -/
theorem nodes_preorder_block :
    let word (start : Nat) := Node.text ⟨"a", ⟨start, start + 1⟩⟩
    let branch (keyword : TokenKind) (start : Nat) : Branch :=
      .mk ⟨keyword, none, none, ⟨start, start + 9⟩⟩ [word (start + 9)]
    let block := Node.directive ⟨.choice, some ⟨49, 56⟩, ⟨29, 56⟩⟩
      [branch .ifBlock 29, branch .elseBranch 39]
    let d : Document := ⟨[.script ⟨⟨0, 8⟩, ⟨8, 10⟩, some ⟨10, 19⟩, ⟨0, 19⟩⟩,
      .template ⟨⟨19, 29⟩, [block, word 56], some ⟨57, 68⟩, ⟨19, 68⟩⟩], ⟨0, 68⟩⟩
    d.nodes.toList = [(0, block), (1, word 38), (1, word 48), (0, word 56)] ∧
      ∃ before below behind, d.addressed = before ++ (([0], block) :: below) ++ behind ∧
        ([0, 1], word 48) ∈ below ∧ ([1], word 56) ∉ below := by
  intro word branch block d
  obtain ⟨hnodes, -, -, -, -, hbelow⟩ := nodes_preorder d
  obtain ⟨before, below, behind, hsplit, hmem⟩ := hbelow [0] block rfl
  refine ⟨hnodes.trans rfl, before, below, behind, hsplit, ?_, fun h => ?_⟩
  · exact (hmem [0, 1] (word 48)).mpr ⟨rfl, [1], nofun, rfl⟩
  · obtain ⟨-, path, -, heq⟩ := (hmem [1] (word 56)).mp h
    exact absurd (List.cons.inj heq).1 (by decide)

end Document

end RsxInspect
