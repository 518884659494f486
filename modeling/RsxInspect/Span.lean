/-!
# Spans

A span is a half-open range of byte offsets in a source text. Offsets count UTF-8 bytes.
-/

namespace RsxInspect

/-- The bytes from offset `start` up to, not including, offset `stop`. -/
structure Span where
  start : Nat
  stop : Nat
  deriving DecidableEq, Repr, Inhabited

namespace Span

/-- The empty span at `offset`. -/
def point (offset : Nat) : Span := ⟨offset, offset⟩

/-- The number of bytes covered. -/
def size (s : Span) : Nat := s.stop - s.start

def isEmpty (s : Span) : Bool := s.start == s.stop

/-- The smallest span that covers both `s` and `t`. -/
def cover (s t : Span) : Span := ⟨min s.start t.start, max s.stop t.stop⟩

def contains (s : Span) (offset : Nat) : Bool := s.start ≤ offset && offset < s.stop

/-- The part of `source` that the span covers. Both ends are meant to be character boundaries of the
source, the first no later than the second; the spans of a scan are of that kind. `text` is total: any
other span has a text here as well, where a checked slice would fail. -/
def text (s : Span) (source : String) : String :=
  String.Pos.Raw.extract source ⟨s.start⟩ ⟨s.stop⟩

end Span

end RsxInspect
