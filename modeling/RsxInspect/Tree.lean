import RsxInspect.Expr
import RsxInspect.Text.Quoted
import RsxInspect.Tree.Kind

/-!
# The tree of a file

A file is a list of sections. Front matter, script and style are spans of code; a template is a
forest of nodes. Every part keeps the span of the source that it was built from.

`Document.nodes` lists the nodes of all templates in document order, each with its depth. It keeps
the nodes that are still to be visited on a list instead of recurring into the tree.
-/

namespace RsxInspect

/-- An expression as written: its tokens, and its tree if one was wanted and could be built. -/
structure Expression where
  tokens : List Token
  tree : Option Expr
  span : Span
  deriving Repr

structure AttributeValue where
  /-- The text of the value, its quotes included. -/
  raw : String
  /-- What stands between the braces of a value in braces. -/
  expression : Option Expression
  span : Span
  deriving Repr

/-- The value without the quotes around it. -/
def AttributeValue.unquoted (v : AttributeValue) : String :=
  String.ofList (Quoted.unquoted v.raw.toList)

structure Attribute where
  name : String
  value : Option AttributeValue
  span : Span
  deriving Repr

/-- An element without its children. -/
structure Element where
  name : String
  attributes : List Attribute
  /-- From `<` to `>`, as far as there is one. -/
  startTag : Span
  endTag : Option Span
  selfClosing : Bool
  span : Span
  deriving Repr

/-- The first attribute with the given name. -/
def Element.attribute? (e : Element) (name : String) : Option Attribute :=
  e.attributes.find? (·.name == name)

structure Interpolation where
  /-- Whether markup is inserted as it is, as `@html` says. -/
  raw : Bool
  expression : Option Expression
  span : Span
  /-- Whether the closing braces were found. -/
  terminated : Bool
  deriving Repr

/-- The names that a loop gives to an item and its index. -/
structure LoopBinding where
  item : String
  index : Option String
  span : Span
  deriving DecidableEq, Repr

/-- The braces that open a branch of a directive. -/
structure BranchHead where
  keyword : TokenKind
  expression : Option Expression
  binding : Option LoopBinding
  span : Span
  deriving Repr

/-- A block directive without its branches. -/
structure Directive where
  kind : DirectiveKind
  closing : Option Span
  span : Span
  deriving DecidableEq, Repr

structure TextNode where
  content : String
  span : Span
  deriving DecidableEq, Repr

mutual

/-- A node of a template. -/
inductive Node where
  | element (element : Element) (children : List Node)
  /-- Text; runs that only blanks separate are one node. -/
  | text (text : TextNode)
  | comment (span : Span)
  | interpolation (interpolation : Interpolation)
  | directive (directive : Directive) (branches : List Branch)
  /-- What fits nowhere, such as an end tag without its start tag. -/
  | error (span : Span)

/-- A branch of a directive. -/
inductive Branch where
  | mk (head : BranchHead) (children : List Node)

end

instance : Inhabited Node := ⟨.error default⟩

namespace Branch

def head : Branch → BranchHead
  | mk head _ => head

def children : Branch → List Node
  | mk _ children => children

end Branch

namespace Node

def span : Node → Span
  | element e _ => e.span
  | text t => t.span
  | comment s | error s => s
  | interpolation i => i.span
  | directive d _ => d.span

/-- The direct children, those of all branches of a directive in order. -/
def children : Node → List Node
  | element _ children => children
  | directive _ branches => branches.flatMap Branch.children
  | _ => []

mutual

/-- The number of nodes in a tree. -/
def count : Node → Nat
  | element _ children => countAll children + 1
  | directive _ branches => countBranches branches + 1
  | text _ | comment _ | interpolation _ | error _ => 1

def countAll : List Node → Nat
  | [] => 0
  | n :: ns => count n + countAll ns

def countBranches : List Branch → Nat
  | [] => 0
  | .mk _ children :: branches => countAll children + countBranches branches

end

theorem countAll_append (ns ms : List Node) :
    countAll (ns ++ ms) = countAll ns + countAll ms := by
  induction ns with
  | nil => simp [countAll]
  | cons n ns ih => simp [countAll, ih, Nat.add_assoc]

theorem countAll_flatMap_children (branches : List Branch) :
    countAll (branches.flatMap Branch.children) = countBranches branches := by
  induction branches with
  | nil => simp [countAll, countBranches]
  | cons b branches ih =>
    cases b
    simp [countAll_append, countBranches, Branch.children, ih]

theorem countAll_children (n : Node) : countAll n.children + 1 = n.count := by
  cases n with
  | element => simp [Node.children, count]
  | directive => simp [Node.children, count, countAll_flatMap_children]
  | _ => simp [Node.children, count, countAll]

/-- The nodes on the list with all that is below them, in order, behind `done`. Each node carries
its depth. -/
def visit (done : Array (Nat × Node)) : List (Nat × Node) → Array (Nat × Node)
  | [] => done
  | (depth, n) :: pending =>
    visit (done.push (depth, n)) (n.children.map (depth + 1, ·) ++ pending)
termination_by pending => countAll (pending.map Prod.snd)
decreasing_by
  have := countAll_children n
  simp only [List.map_append, List.map_map, List.map_cons, countAll, countAll_append]
  have h : List.map (Prod.snd ∘ fun x => (depth + 1, x)) n.children = n.children := by
    simp [Function.comp_def]
  rw [h]
  omega

end Node

/-- A section of code. -/
structure CodeSection where
  opening : Span
  /-- The code between the delimiters, empty if there is none. -/
  content : Span
  closing : Option Span
  span : Span
  deriving DecidableEq, Repr

/-- A section of markup. -/
structure TemplateSection where
  opening : Span
  children : List Node
  closing : Option Span
  span : Span

/-- A top-level region of a file. -/
inductive Section where
  | frontMatter (code : CodeSection)
  | script (code : CodeSection)
  | template (template : TemplateSection)
  | style (code : CodeSection)

namespace Section

def kind : Section → SectionKind
  | frontMatter _ => .frontMatter
  | script _ => .script
  | template _ => .template
  | style _ => .style

def span : Section → Span
  | frontMatter c | script c | style c => c.span
  | template t => t.span

/-- Where the closing delimiter stands, if there is one. -/
def closing : Section → Option Span
  | frontMatter c | script c | style c => c.closing
  | template t => t.closing

/-- Whether the closing delimiter was found. -/
def isTerminated (s : Section) : Bool := s.closing.isSome

/-- The nodes at the top of a template. -/
def roots : Section → List Node
  | template t => t.children
  | _ => []

end Section

/-- A whole file: its sections in order, those of a kind that was there before included. -/
structure Document where
  sections : List Section
  span : Span

namespace Document

/-- The first section of a kind. -/
def section? (d : Document) (kind : SectionKind) : Option Section :=
  d.sections.find? (·.kind == kind)

/-- The first template. -/
def template? (d : Document) : Option TemplateSection :=
  d.sections.findSome? fun
    | .template t => some t
    | _ => none

/-- The nodes of all templates in document order, each with its depth. -/
def nodes (d : Document) : Array (Nat × Node) :=
  Node.visit #[] ((d.sections.flatMap Section.roots).map (0, ·))

end Document

end RsxInspect
