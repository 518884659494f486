import RsxInspect.Diagnostic.Findings
import RsxInspect.Scanner

/-!
# Token streams

A token stream reads the significant tokens of a scan one by one and can be taken back to an earlier
place. Tokens are scanned when they are first asked for and kept from then on; their lexical
problems are recorded at that moment, so going back reports none of them twice. The stream ends in
`eof`, which is never passed.
-/

namespace RsxInspect

/-- The tokens read so far, the scanner behind them, and the index of the next token. -/
structure TokenStream where
  source : String
  scanner : Scanner
  buffer : Array Token
  index : Nat
  findings : Findings

namespace TokenStream

def ofScanner (source : String) (scanner : Scanner) : TokenStream :=
  ⟨source, scanner, #[], 0, []⟩

def ofSource (source : String) : TokenStream :=
  ofScanner source (Scanner.ofSource source)

/-- Whether the buffer ends in `eof`. -/
def isComplete (s : TokenStream) : Bool :=
  s.buffer.back?.any (·.kind == .eof)

/-- Reads one more token into the buffer and records its lexical problem. -/
def pull (s : TokenStream) : TokenStream :=
  let (t, scanner) := s.scanner.nextSignificant
  { s with
    scanner
    buffer := s.buffer.push t
    findings := s.findings.recordAll s.source (t.anomaly? s.source).toList }

/-- Reads until the buffer has a token at index `i` or ends in `eof`. -/
def fill (s : TokenStream) (i : Nat) : TokenStream :=
  if s.buffer.size ≤ i && !s.isComplete then s.pull.fill i else s
termination_by i + 1 - s.buffer.size
decreasing_by simp_all [pull]; omega

/-- The token `n` places behind the next one, or `eof`, and the stream that has read it. Any number of
places can be asked for; in words of a fixed size, `s.index + n` has to fit into one. -/
def peekAt (s : TokenStream) (n : Nat) : Token × TokenStream :=
  let s := s.fill (s.index + n)
  ((s.buffer[min (s.index + n) (s.buffer.size - 1)]?).getD default, s)

/-- The next token. -/
def peek (s : TokenStream) : Token × TokenStream := s.peekAt 0

/-- Whether the next token is of the given kind. -/
def at? (s : TokenStream) (kind : TokenKind) : Bool × TokenStream :=
  let (t, s) := s.peek
  (t.kind == kind, s)

/-- Passes the next token, unless that is `eof`. -/
def bump (s : TokenStream) : Token × TokenStream :=
  let (t, s) := s.peek
  (t, if t.kind == .eof then s else { s with index := s.index + 1 })

/-- Passes the next token if it is of the given kind. -/
def eat? (s : TokenStream) (kind : TokenKind) : Option Token × TokenStream :=
  let (t, s) := s.peek
  if t.kind == kind then
    let (t, s) := s.bump
    (some t, s)
  else (none, s)

/-- The end of the last token passed. -/
def previousEnd (s : TokenStream) : Nat :=
  if s.index = 0 then 0 else ((s.buffer[s.index - 1]?).getD default).span.stop

/-- Goes back to the place where the next token had the given index. -/
def rollback (s : TokenStream) (index : Nat) : TokenStream :=
  { s with index }

/-- The diagnostics recorded since they were last taken, oldest first. -/
def takeFindings (s : TokenStream) : List Diagnostic × TokenStream :=
  (s.findings.reverse, { s with findings := [] })

end TokenStream

end RsxInspect
