import RsxInspect.Diagnostic.Findings
import RsxInspect.Event
import RsxInspect.Expr.Grammar
import RsxInspect.Scanner
import RsxInspect.Tree

/-!
# Pieces of a template

The tokens of a template are read in pieces: a tag, a run of text, a comment, or a pair of braces
with what stands between them. `Piece.read` reads one piece. It says how many tokens the piece takes
behind its first one, what is wrong with it in itself, and what it means for the tree. How pieces
fit together is decided later.
-/

namespace RsxInspect

/-- The source that is read, and whether expressions get trees. -/
structure Reading where
  source : String
  withTrees : Bool

/-- What a piece means for the tree. -/
inductive Piece where
  /-- A node that is complete. -/
  | node (n : Node)
  /-- The start tag of an element that may have children. -/
  | startTag (e : Element)
  | endTag (name : String) (span : Span)
  /-- The head of a block directive. -/
  | opener (kind : DirectiveKind) (head : BranchHead)
  /-- The head of a further branch, with the tokens behind its keyword. -/
  | branch (word : BranchWord) (run : List Token) (span : Span)
  | closer (kind : DirectiveKind) (span : Span)
  /-- Characters that belong to nothing. -/
  | nothing

/-- A piece as it was read: the number of tokens that it takes behind its first one, its own
diagnostics, and what is worth a line in the log, each in order. -/
structure PieceRead where
  piece : Piece
  taken : Nat
  diagnostics : List Diagnostic
  events : List Event

namespace Reading

def textOf (r : Reading) (t : Token) : String := t.text r.source

/-- The problem of a token that is not expected. -/
def unexpected (r : Reading) (t : Token) (place : Place) : Diagnostic :=
  (Problem.unexpectedToken (r.textOf t) place).on t.span

/-- The problem of whatever comes next, a token or the end of the input. -/
def unexpectedNext (r : Reading) (ts : List Token) (place : Place) : Diagnostic :=
  match ts with
  | t :: _ => r.unexpected t place
  | [] => (Problem.unexpectedEnd place).on (Span.point r.source.utf8ByteSize)

end Reading

/-- The span of a run of tokens, if there are any. -/
def Span.ofRun? (run : List Token) : Option Span :=
  match run.head?, run.getLast? with
  | some first, some last => some (first.span.cover last.span)
  | _, _ => none

/-- The problem `p` on the span of a run, if there are tokens in it. -/
def Problem.onRun? (p : Problem) (run : List Token) : List Diagnostic :=
  ((Span.ofRun? run).map p.on).toList

/-- The end of the last token, where `n` tokens of `ts` are taken behind `first`. -/
def endOf (first : Token) (ts : List Token) (n : Nat) : Nat :=
  (((first :: ts)[n]?).getD first).span.stop

/-- The span from the start of `first` to the end of the `n` tokens of `ts` behind it. -/
def spanOf (first : Token) (ts : List Token) (n : Nat) : Span :=
  ⟨first.span.start, endOf first ts n⟩

/-- The expression of a run, and the diagnostic of its tree. There is none for an empty run. A tree
is built if it is wanted and the run holds nothing but tokens of expressions. -/
def Expression.ofRun? (r : Reading) (run : List Token) (wanted : Bool) :
    Option Expression × List Diagnostic :=
  match Span.ofRun? run with
  | none => (none, [])
  | some span =>
    if wanted && r.withTrees && run.all (·.kind.isExpression) then
      match Expr.parse r.source run with
      | .ok e => (some ⟨run, some e, span⟩, [])
      | .error d => (some ⟨run, none, span⟩, [d])
    else (some ⟨run, none, span⟩, [])

/-! ### Text -/

/-- A run of text. Blanks are no tokens here, so texts in a row have only blanks between them. -/
def readText (r : Reading) (first : Token) (ts : List Token) : PieceRead :=
  let more := ts.takeWhile (·.kind == .text)
  let span := more.foldl (fun s t => s.cover t.span) first.span
  ⟨.node (.text ⟨span.text r.source, span⟩), more.length, [], []⟩

/-! ### Tags -/

/-- The scanner over the text between the braces of an attribute value. The text is scanned as an
expression of its own. -/
def valueScanner (source : String) (t : Token) : Scanner :=
  let inner := (t.text source).toList.drop Delimiter.openBraces.length
  let closed := endsWith Delimiter.closeBraces inner
  let inner := if closed then inner.take (inner.length - Delimiter.closeBraces.length) else inner
  ⟨⟨t.span.start + Delimiter.openBraces.length, none, inner⟩, .interpolation⟩

/-- Whether an attribute value can be read to its end. It is scanned again if it starts with braces,
and that scan can stand still as any other: `</template><template><$` takes it into a tag with a
`$`. -/
def AttributeValue.scanEnds (source : String) (t : Token) : Bool :=
  !Delimiter.openBraces.isPrefixOf (t.text source).toList || (valueScanner source t).toEnd?.isSome

/-- The tokens between the braces of an attribute value, with their lexical problems. If `scanEnds`
fails, these are the tokens in front of the place where the scan stands still; then they are no part
of any result, since the file is not read (`Document.parse?`). -/
def valueTokens (r : Reading) (t : Token) : List Token × List Diagnostic :=
  let tokens := (valueScanner r.source t).toEnd.1.toList.filter (!·.kind.isTrivia)
  (tokens, tokens.filterMap (·.anomaly? r.source))

/-- The value of an attribute, with its diagnostics. -/
def AttributeValue.ofToken (r : Reading) (t : Token) : AttributeValue × List Diagnostic :=
  let raw := r.textOf t
  if Delimiter.openBraces.isPrefixOf raw.toList then
    let (run, anomalies) := valueTokens r t
    let (expression, problems) := Expression.ofRun? r run true
    let missing := if expression.isNone then [Problem.emptyBraces.on t.span] else []
    (⟨raw, expression, t.span⟩, anomalies ++ problems ++ missing)
  else (⟨raw, none, t.span⟩, [])

/-- An attribute, the number of tokens that it takes behind its name, and its diagnostics. -/
structure AttributeRead where
  content : Attribute
  taken : Nat
  diagnostics : List Diagnostic

/-- The attribute whose name is `t`. -/
def readAttribute (r : Reading) (t : Token) (ts : List Token) : AttributeRead :=
  let name := r.textOf t
  match ts with
  | [] => ⟨⟨name, none, t.span⟩, 0, []⟩
  | equals :: ts =>
    if equals.kind == .equals then
      let span := t.span.cover equals.span
      match ts.head?.filter (·.kind == .attrValue) with
      | some v =>
        let (value, ds) := AttributeValue.ofToken r v
        ⟨⟨name, some value, span.cover v.span⟩, 2, ds⟩
      | none => ⟨⟨name, none, span⟩, 1, [Problem.attributeWithoutValue.on equals.span]⟩
    else ⟨⟨name, none, t.span⟩, 0, []⟩

/-- The value that stands behind the name of an attribute, if an equals sign and a value do. -/
def valueBehind? : List Token → Option Token
  | equals :: value :: _ =>
    if equals.kind == .equals && value.kind == .attrValue then some value else none
  | _ => none

/-- The values of all attributes among some tokens. -/
def attributeValues : List Token → List Token
  | [] => []
  | t :: ts =>
    if t.kind == .attrName then (valueBehind? ts).toList ++ attributeValues ts
    else attributeValues ts

/-- What stands in a start tag behind its name: attributes, the token that ends the tag if there is
one, the number of tokens taken, and diagnostics. -/
structure TagBody where
  attributes : Array Attribute
  terminator : Option TokenKind
  taken : Nat
  diagnostics : Array Diagnostic

/-- The rest of a start tag, behind what is `done`. -/
def TagBody.readFrom (r : Reading) (done : TagBody) : List Token → TagBody
  | [] => done
  | t :: ts =>
    match t.kind with
    | .attrName =>
      let a := readAttribute r t ts
      TagBody.readFrom r
        { done with
          attributes := done.attributes.push a.content
          taken := done.taken + 1 + a.taken
          diagnostics := done.diagnostics.appendList a.diagnostics }
        (ts.drop a.taken)
    | .tagClose | .selfClose => { done with terminator := some t.kind, taken := done.taken + 1 }
    | .templateClose => done
    | .badCharacter => TagBody.readFrom r { done with taken := done.taken + 1 } ts
    | _ =>
      TagBody.readFrom r
        { done with
          taken := done.taken + 1
          diagnostics := done.diagnostics.push (r.unexpected t .startTag) }
        ts
termination_by ts => ts.length
decreasing_by all_goals simp only [List.length_drop, List.length_cons]; omega

/-- A start tag. An element that closes itself, has no content by its name or has no end to its
start tag is complete. -/
def readStartTag (r : Reading) (first : Token) (ts : List Token) : PieceRead :=
  let name := ts.head?.filter (·.kind == .tagName)
  let unnamed := if name.isNone then [r.unexpectedNext ts .tagName] else []
  let skip := if name.isNone then 0 else 1
  let body := TagBody.readFrom r ⟨#[], none, skip, #[]⟩ (ts.drop skip)
  let span := spanOf first ts body.taken
  let unended :=
    if body.terminator.isNone then
      [(Problem.startTagWithoutEnd (trimEnd (span.text r.source))).on span]
    else []
  let piece :=
    match name with
    | none => .node (.error span)
    | some name =>
      let selfClosing := body.terminator == some .selfClose
      let e : Element := ⟨r.textOf name, body.attributes.toList, span, none, selfClosing, span⟩
      if selfClosing || body.terminator.isNone || Vocabulary.isVoidElement e.name then
        .node (.element e [])
      else .startTag e
  ⟨piece, body.taken, unnamed ++ body.diagnostics.toList ++ unended, []⟩

/-- The tokens in an end tag behind its name that do not belong there: their number, and their
diagnostics. -/
def strayInEndTag (r : Reading) : List Token → Nat × List Diagnostic
  | [] => (0, [])
  | t :: ts =>
    match t.kind with
    | .badCharacter =>
      let (n, ds) := strayInEndTag r ts
      (n + 1, ds)
    | .tagName =>
      let (n, ds) := strayInEndTag r ts
      (n + 1, r.unexpected t .endTag :: ds)
    | _ => (0, [])

/-- An end tag. -/
def readEndTag (r : Reading) (first : Token) (ts : List Token) : PieceRead :=
  let name := ts.head?.filter (·.kind == .tagName)
  let skip := if name.isNone then 0 else 1
  let (stray, ds) := strayInEndTag r (ts.drop skip)
  let closed := (ts.drop (skip + stray)).head?.any (·.kind == .tagClose)
  let taken := skip + stray + (if closed then 1 else 0)
  let span := spanOf first ts taken
  let unended := if closed then [] else [Problem.endTagWithoutEnd.on span]
  match name with
  | none =>
    ⟨.node (.error span), taken, ds ++ unended ++ [Problem.endTagWithoutName.on span], []⟩
  | some name => ⟨.endTag (r.textOf name) span, taken, ds ++ unended, []⟩

/-! ### Braces -/

/-- What stands between braces: the run of tokens, the number of tokens taken with the closing
braces, the span from the opening braces on, and whether there are closing braces. -/
structure Braces where
  run : List Token
  taken : Nat
  span : Span
  terminated : Bool

/-- The run behind `first` and `skip` more tokens, up to closing braces or the end of the
template. -/
def Braces.read (first : Token) (ts : List Token) (skip : Nat) : Braces :=
  let run := (ts.drop skip).takeWhile (!·.kind.endsRun)
  let taken := skip + run.length
  let terminated := (ts.drop taken).head?.any (·.kind == .interpolationClose)
  let taken := if terminated then taken + 1 else taken
  ⟨run, taken, spanOf first ts taken, terminated⟩

/-- The problem of braces that are not closed. -/
def Braces.unclosed (b : Braces) : List Diagnostic :=
  if b.terminated then [] else [Problem.unclosedBraces.on b.span]

/-- An interpolation, with `skip` tokens in front of its expression. -/
def readInterpolation (r : Reading) (first : Token) (ts : List Token) (skip : Nat) (raw : Bool) :
    PieceRead :=
  let b := Braces.read first ts skip
  let (expression, ds) := Expression.ofRun? r b.run true
  let missing :=
    if expression.isNone && b.terminated then [Problem.emptyBraces.on b.span] else []
  ⟨.node (.interpolation ⟨raw, expression, b.span, b.terminated⟩), b.taken,
    b.unclosed ++ ds ++ missing, []⟩

/-- The names behind `as` that make up the whole of a run: an item, and maybe an index. -/
def LoopBinding.ofRun? (r : Reading) (run : List Token) : Option LoopBinding :=
  match run with
  | [word, item] =>
    if word.kind == .asWord && item.kind == .identifier then
      some ⟨r.textOf item, none, ⟨word.span.start, item.span.stop⟩⟩
    else none
  | [word, item, comma, index] =>
    if word.kind == .asWord && item.kind == .identifier && comma.kind == .comma
        && index.kind == .identifier then
      some ⟨r.textOf item, some (r.textOf index), ⟨word.span.start, index.span.stop⟩⟩
    else none
  | _ => none

/-- The head of a loop: an expression and a binding, diagnostics and events. Without a binding the
whole run counts as the expression, and no tree is built for it. -/
def readLoopHead (r : Reading) (run : List Token) :
    (Option Expression × Option LoopBinding) × List Diagnostic × List Event :=
  let list := run.takeWhile (·.kind != .asWord)
  match LoopBinding.ofRun? r (run.drop list.length) with
  | some binding =>
    if list.isEmpty then unbound run
    else
      let (expression, ds) := Expression.ofRun? r list true
      ((expression, some binding), ds, [])
  | none => unbound run
where
  /-- A head without a binding. -/
  unbound (run : List Token) :
      (Option Expression × Option LoopBinding) × List Diagnostic × List Event :=
    let (expression, ds) := Expression.ofRun? r run false
    ((expression, none), Problem.loopWithoutBinding.onRun? run ++ ds,
      (run.head?.map fun t => Event.loopWithoutBinding t.span.start).toList)

/-- The head of a block directive with the keyword `keyword`. -/
def readOpener (r : Reading) (first : Token) (ts : List Token) (keyword : TokenKind)
    (kind : DirectiveKind) : PieceRead :=
  let b := Braces.read first ts 1
  let ((expression, binding), ds, events) :=
    match kind with
    | .choice =>
      let (expression, ds) := Expression.ofRun? r b.run true
      ((expression, none), ds, [])
    | .loop => readLoopHead r b.run
  let missing :=
    if expression.isNone then [(Problem.directiveWithoutExpression kind).on b.span] else []
  ⟨.opener kind ⟨keyword, expression, binding, b.span⟩, b.taken, ds ++ b.unclosed ++ missing,
    events⟩

/-- The head of a further branch. -/
def readBranch (first : Token) (ts : List Token) (word : BranchWord) : PieceRead :=
  let b := Braces.read first ts 1
  ⟨.branch word b.run b.span, b.taken, b.unclosed, []⟩

/-- The closer of a block directive. -/
def readCloser (first : Token) (ts : List Token) (kind : DirectiveKind) : PieceRead :=
  let b := Braces.read first ts 1
  ⟨.closer kind b.span, b.taken,
    b.unclosed ++ (Problem.closerWithExpression kind).onRun? b.run, []⟩

/-- A pair of braces. -/
def readBraces (r : Reading) (first : Token) (ts : List Token) : PieceRead :=
  match ts.head?.map Token.kind with
  | some .ifBlock => readOpener r first ts .ifBlock .choice
  | some .eachBlock => readOpener r first ts .eachBlock .loop
  | some .elseIf => readBranch first ts .elseIf
  | some .elseBranch => readBranch first ts .elseBranch
  | some .endIf => readCloser first ts .choice
  | some .endEach => readCloser first ts .loop
  | some .html => readInterpolation r first ts 1 true
  | _ => readInterpolation r first ts 0 false

/-- The piece that starts with the token `first`. -/
def Piece.read (r : Reading) (first : Token) (ts : List Token) : PieceRead :=
  match first.kind with
  | .tagOpen => readStartTag r first ts
  | .tagEndOpen => readEndTag r first ts
  | .text => readText r first ts
  | .comment => ⟨.node (.comment first.span), 0, [], []⟩
  | .interpolationOpen => readBraces r first ts
  | .badCharacter => ⟨.nothing, 0, [], []⟩
  | _ => ⟨.node (.error first.span), 0, [r.unexpected first .template], []⟩

end RsxInspect
