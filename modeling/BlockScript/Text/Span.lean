/-!
# Byte ranges of a text
-/

namespace BlockScript.Text

/-- A range of UTF-8 bytes of a text, from `start` up to but without `stop`. -/
structure Span where
  start : Nat
  stop : Nat
deriving DecidableEq

namespace Span

/-- How many bytes the range holds; a range that stops before it starts holds none. -/
def length (s : Span) : Nat := s.stop - s.start

/-- Whether the range holds no byte. -/
def isEmpty (s : Span) : Bool := s.length == 0

end Span

end BlockScript.Text
