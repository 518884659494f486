import RsxInspect.Command.LogFilter
import RsxInspect.Document
import RsxInspect.Encoding.Tree
import RsxInspect.LineIndex

/-!
# The command line

The three commands on a file: list its tokens, show its tree, and check it for problems.
`Invocation.respondWith` maps an invocation and what the file holds to the texts on both output streams
and the exit status. It is defined for any `LogLibrary`; `Invocation.respond` is the program with the
one that it is run with.
-/

namespace RsxInspect

inductive Command where
  | tokens
  | tree
  | check
  deriving DecidableEq, Repr

namespace Command

/-- The word for a command. -/
def word : Command → String
  | tokens => "tokens"
  | tree => "tree"
  | check => "check"

/-- The command of a word. -/
def ofWord? (s : String) : Option Command :=
  [tokens, tree, check].find? (·.word == s)

end Command

/-- A command on a file, and how its output is wanted. -/
structure Invocation where
  command : Command
  path : String
  json : Bool
  verbosity : Nat
  /-- The log filter that the environment asks for. -/
  logFilter : Option String
  deriving DecidableEq, Repr

/-- What is found at a path. -/
inductive FileContent where
  | missing
  | unreadable (reason : String)
  | text (source : String)
  deriving DecidableEq, Repr

/-- The content of a file of some bytes, which have to be UTF-8. -/
def FileContent.ofBytes (bytes : ByteArray) : FileContent :=
  match String.fromUTF8? bytes with
  | some source => text source
  | none => unreadable "stream did not contain valid UTF-8"

/-- The exit status and the texts on both output streams. -/
structure Response where
  exit : Nat
  out : String
  err : String
  deriving DecidableEq, Repr

/-- Lines, each with its line break. -/
def joinLines (lines : List String) : String :=
  lines.foldl (fun out line => (out ++ line).push '\n') ""

/-- A text filled up with spaces on its right, up to a width. -/
def padRight (width : Nat) (s : String) : String :=
  s ++ String.ofList (List.replicate (width - s.length) ' ')

/-- A text filled up with spaces on its left, up to a width. -/
def padLeft (width : Nat) (s : String) : String :=
  String.ofList (List.replicate (width - s.length) ' ') ++ s

/-- A token in the listing of tokens: its place, its kind and its text. -/
structure TokenRow where
  token : Token
  line : Nat
  column : Nat
  text : String

namespace TokenRow

def of (source : String) (index : LineIndex) (t : Token) : TokenRow :=
  let (line, column) := index.locate t.span.start
  ⟨t, line, column, t.text source⟩

def toJson (row : TokenRow) : Json :=
  .object
    [("kind", .string row.token.kind.name), ("start", .nat row.token.span.start),
     ("end", .nat row.token.span.stop), ("line", .nat row.line), ("column", .nat row.column),
     ("text", .string row.text)]

def render (row : TokenRow) : String :=
  let place := padLeft 4 (toString row.line) ++ ":" ++ padRight 3 (toString row.column)
  s!"{place} {padRight 22 row.token.kind.name} {Shown.text row.text}"

end TokenRow

/-- A section in the listing of a tree. -/
def Section.render (s : Section) : String :=
  let state := if s.isTerminated then "" else " (unterminated)"
  s!"{s.kind.title} {s.span.start}..{s.span.stop}{state}"

/-- What a node is, in the listing of a tree. -/
def Node.render (source : String) : Node → String
  | element e _ => if e.selfClosing then s!"<{e.name} />" else s!"<{e.name}>"
  | text t => Shown.text t.content
  | comment _ => "<!-- -->"
  | interpolation i =>
    let body := (i.expression.map (·.span.text source)).getD ""
    if i.raw then "\x7b\x7b@html " ++ body ++ "\x7d\x7d"
    else "\x7b\x7b " ++ body ++ " \x7d\x7d"
  | directive d branches => s!"{d.kind.keyword} ({branches.length} branches)"
  | error s => s!"error {Shown.text (s.text source)}"

/-- A node with its depth, indented below its section. -/
def Node.renderAt (source : String) (depth : Nat) (n : Node) : String :=
  String.ofList (List.replicate (2 * (depth + 1)) ' ') ++ n.render source

/-- A diagnostic with the place where it starts. -/
def Diagnostic.render (path : String) (index : LineIndex) (d : Diagnostic) : String :=
  let (line, column) := index.locate d.span.start
  s!"{path}:{line}:{column}: {d.kind.label}: {d.message}"

/-- The JSON form of a file and its diagnostics. -/
def Parsed.encode (p : Parsed) : Encoder Json := do
  let file ← p.document.encode
  pure (.object [("file", file), ("diagnostics", .array (p.diagnostics.map Diagnostic.toJson))])

namespace Invocation

section Commands

variable (library : LogLibrary)

/-- A response with the log in front of the other lines on the error stream. -/
def response (i : Invocation) (events : List Event) (exit : Nat) (out : String)
    (err : List String) : Response :=
  let filter := library.choose i.logFilter i.verbosity
  ⟨exit, out, joinLines (library.lines filter events ++ err)⟩

/-- The listing of the tokens of a file. -/
def respondTokens (i : Invocation) (source : String) : Option Response :=
  (tokenize? source).map fun tokens =>
    let index := LineIndex.ofSource source
    let rows := tokens.toList.map (TokenRow.of source index)
    let out :=
      if i.json then (Json.array (rows.map TokenRow.toJson)).pretty.push '\n'
      else joinLines (rows.map TokenRow.render)
    i.response library [.readSource i.path source.utf8ByteSize] 0 out []

/-- The listing of the sections and nodes of a file. -/
def treeLines (source : String) (d : Document) : List String :=
  d.sections.map Section.render
    ++ d.nodes.toList.map fun (depth, n) => n.renderAt source depth

/-- The tree of a file, with its diagnostics. -/
def respondTree (i : Invocation) (source : String) : Option Response :=
  (Document.parse? source true).map fun parsed =>
    let events := .readSource i.path source.utf8ByteSize :: parsed.events
    if i.json then
      match parsed.encode.result with
      | .ok j => i.response library events 0 (j.pretty.push '\n') []
      | .error e => i.response library events 1 "" [s!"Error encoding JSON: {e.message}"]
    else
      let index := LineIndex.ofSource source
      i.response library events 0 (joinLines (treeLines source parsed.document))
        (parsed.diagnostics.map (·.render i.path index))

/-- The diagnostics of a file, and their number. The exit status says whether there are any. -/
def respondCheck (i : Invocation) (source : String) : Option Response :=
  (Document.parse? source true).map fun parsed =>
    let events := .readSource i.path source.utf8ByteSize :: parsed.events
    let index := LineIndex.ofSource source
    if parsed.diagnostics.isEmpty then
      i.response library events 0 "" [s!"OK: {i.path} ({index.count} lines)"]
    else
      i.response library events 1 ""
        (parsed.diagnostics.map (·.render i.path index)
          ++ [s!"{i.path}: {parsed.diagnostics.length} problem(s)"])

/-- What a command answers on what is found at its path; nothing if the scan of the file or of a value
in it stands still. -/
def respondWith (i : Invocation) : FileContent → Option Response
  | .missing => some (i.response library [] 1 "" [s!"Error: file not found: {i.path}"])
  | .unreadable reason => some (i.response library [] 1 "" [s!"Error reading {i.path}: {reason}"])
  | .text source =>
    match i.command with
    | .tokens => i.respondTokens library source
    | .tree => i.respondTree library source
    | .check => i.respondCheck library source

end Commands

/-- What the program answers. -/
def respond (i : Invocation) (content : FileContent) : Option Response :=
  i.respondWith .standard content

end Invocation

end RsxInspect
