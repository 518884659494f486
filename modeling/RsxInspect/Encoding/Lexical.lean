import RsxInspect.Diagnostic
import RsxInspect.Json
import RsxInspect.LexState

/-!
# The JSON form of tokens and diagnostics
-/

namespace RsxInspect

def Span.toJson (s : Span) : Json :=
  .object [("start", .nat s.start), ("end", .nat s.stop)]

def Token.toJson (t : Token) : Json :=
  .object [("kind", .string t.kind.name), ("span", t.span.toJson)]

def LexState.toJson (s : LexState) : Json :=
  .object [("mode", .string s.mode.name), ("last", .ofOption (.string ·.name) s.last)]

def Diagnostic.toJson (d : Diagnostic) : Json :=
  .object [("kind", .string d.kind.name), ("span", d.span.toJson), ("message", .string d.message)]

end RsxInspect
