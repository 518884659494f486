import RsxInspect.Proofs.Template.Agreement

/-!
# Runs that a tree is wanted of

A tree is wanted of what stands between the braces of an attribute value or an interpolation, of the
condition of a choice and of each further branch of it, and of the list of a loop that has a binding.
Not so of the head of a loop without a binding, of what stands behind `:else` or in a closer, and of
the condition of a branch that belongs to nothing. `Document.treeRuns` lists the runs of a file in the
order in which they are read. They cannot be read off the tree of the file: a start tag without a name
becomes an error node, but trees are wanted of the values in it as of all others.

The grammar is asked about a run only if nothing but tokens of expressions is in it; `Expr.refusal?`
is what it then says against the run.
-/

namespace RsxInspect

/-- What is wrong with a run that a tree is wanted of, according to the grammar. It is not asked about
a run that is empty or holds anything but tokens of expressions. -/
def Expr.refusal? (source : String) (run : List Token) : Option Diagnostic :=
  if run.isEmpty || !run.all (·.kind.isExpression) then none
  else
    match Expr.parse source run with
    | .ok _ => none
    | .error d => some d

/-- What is wrong with the runs: the `refusal?` of each that the grammar refuses. -/
def refusals (source : String) (runs : List (List Token)) : List Diagnostic :=
  runs.filterMap (Expr.refusal? source)

/-! ### Tags -/

/-- The run between the braces of an attribute value, if it has braces. -/
def AttributeValue.runs (r : Reading) (t : Token) : List (List Token) :=
  if Delimiter.openBraces.isPrefixOf (r.textOf t).toList then [(valueTokens r t).1] else []

/-- The run of an attribute with the tokens `ts` behind its name: a value stands behind an equals
sign. -/
def Attribute.runs (r : Reading) (ts : List Token) : List (List Token) :=
  match ts with
  | equals :: v :: _ =>
    if equals.kind = .equals ∧ v.kind = .attrValue then AttributeValue.runs r v else []
  | _ => []

/-- The runs of a start tag. -/
def TagBody.runs (r : Reading) : List Token → List (List Token)
  | [] => []
  | t :: ts =>
    match t.kind with
    | .attrName => Attribute.runs r ts ++ TagBody.runs r ts
    | .tagClose | .selfClose | .templateClose => []
    | _ => TagBody.runs r ts

/-! ### Braces -/

/-- The run of the head of a loop: the list, if a binding makes up the rest. -/
def LoopBinding.runs (r : Reading) (run : List Token) : List (List Token) :=
  let list := run.takeWhile (·.kind != .asWord)
  if (LoopBinding.ofRun? r (run.drop list.length)).isSome && !list.isEmpty then [list] else []

/-- The run of a pair of braces, that of a further branch apart. -/
def Braces.runs (r : Reading) (first : Token) (ts : List Token) : List (List Token) :=
  match ts.head?.map Token.kind with
  | some .ifBlock | some .html => [(Braces.read first ts 1).run]
  | some .eachBlock => LoopBinding.runs r (Braces.read first ts 1).run
  | some .elseIf | some .elseBranch | some .endIf | some .endEach => []
  | _ => [(Braces.read first ts 0).run]

/-- The runs of the piece that starts with the token `first`. -/
def Piece.runs (r : Reading) (first : Token) (ts : List Token) : List (List Token) :=
  match first.kind with
  | .tagOpen => TagBody.runs r ts
  | .interpolationOpen => Braces.runs r first ts
  | _ => []

/-- The run of the head of a further branch: its condition, unless it stands behind `:else`. -/
def BranchWord.runs (run : List Token) : BranchWord → List (List Token)
  | .elseIf => [run]
  | .elseBranch => []

/-- The run of the head of a further branch, if what is innermost is a choice that can have one. -/
def Forest.branchRuns (f : Forest) : Piece → List (List Token)
  | .branch word run _ =>
    match f.frames with
    | .block block :: _ => if block.kind = .choice ∧ block.hasElse = false then word.runs run else []
    | _ => []
  | _ => []

/-! ### Templates and files

The runs come in the order of the file, and for further branches they depend on what is open, so the
recursion takes the builder along. -/

/-- The runs of the pieces that come next. -/
def Builder.runsFrom (r : Reading) (b : Builder) : List Token → List (List Token)
  | [] => []
  | t :: ts =>
    if t.kind = .templateClose then []
    else
      let read := Piece.read r t ts
      Piece.runs r t ts ++ b.forest.branchRuns read.piece
        ++ Builder.runsFrom r (b.add r read) (ts.drop read.taken)
termination_by ts => ts.length
decreasing_by simp only [List.length_drop, List.length_cons]; omega

namespace Document

/-- The runs of the section that the token `opening` opens. -/
def sectionRuns (r : Reading) (notes : Notes) (kind : SectionKind) (opening : Token)
    (ts : List Token) : List (List Token) :=
  match kind with
  | .template =>
    Builder.runsFrom r ⟨.empty, notes.reportAll r.source (openTagProblem r opening)⟩ ts
  | _ => []

/-- The runs of the sections that come next, behind those that are `done`. -/
def runsFrom (r : Reading) (done : Array Section) (notes : Notes) : List Token → List (List Token)
  | [] => []
  | t :: ts =>
    match sectionOpenedBy? t.kind with
    | some kind =>
      let notes := notesAt r done notes kind t
      let s := readSection r notes kind t ts
      sectionRuns r notes kind t ts ++ runsFrom r (done.push s.content) s.notes (ts.drop s.taken)
    | none =>
      let notes :=
        if t.kind = .badCharacter then notes
        else notes.report r.source (r.unexpected t .outsideSections)
      runsFrom r done notes ts
termination_by ts => ts.length
decreasing_by all_goals simp only [List.length_drop, List.length_cons]; omega

/-- The runs of a file that a tree is wanted of. -/
def treeRuns (source : String) : List (List Token) :=
  runsFrom ⟨source, true⟩ #[] .empty (significantTokens source)

end Document

end RsxInspect
