/-!
# Spans

A span is a range of byte offsets into the source text of a program. The two
ends are kept as they were given, so an end before its start is possible; such
a span covers nothing.
-/

namespace WhileStatics

/-- The byte range of the source text that a node stands for. -/
structure Span where
  start : Nat := 0
  stop : Nat := 0
  deriving DecidableEq, Inhabited

namespace Span

/-- The number of bytes covered, zero when the end lies before the start. -/
def length (s : Span) : Nat := s.stop - s.start

/-- A span that covers no byte. -/
def isEmpty (s : Span) : Bool := s.length == 0

theorem isEmpty_iff {s : Span} : s.isEmpty = true ↔ s.stop ≤ s.start := by
  simp [isEmpty, length, Nat.sub_eq_zero_iff_le]

/-- The span as two offsets with two dots between them. -/
def text (s : Span) : String := s!"{s.start}..{s.stop}"

end Span
end WhileStatics
