/-!
# Source spans

A span is a half-open byte range of the source text. Every node of an arena carries one, and a
span whose end lies before its start is empty rather than wrong. `Span.merge` is the least span
that covers both of its arguments.
-/

namespace ValueFlow
set_option autoImplicit false

/-- The byte range from `start` up to, and not including, `stop`. -/
structure Span where
  start : Nat
  stop : Nat
deriving DecidableEq, Repr

namespace Span

/-- The span of a node that no source text stands behind. -/
def synthetic : Span := ⟨0, 0⟩

/-- Length in bytes; a reversed range has none. -/
def size (span : Span) : Nat := span.stop - span.start

/-- The span covers no byte. -/
def isEmpty (span : Span) : Bool := span.size == 0

/-- The least range that covers both spans. -/
def merge (a b : Span) : Span := ⟨min a.start b.start, max a.stop b.stop⟩

/-- A span is written as its two ends with two dots between them. -/
def text (span : Span) : String := s!"{span.start}..{span.stop}"

theorem merge_comm (a b : Span) : a.merge b = b.merge a := by
  simp [merge, Nat.min_comm, Nat.max_comm]

@[simp] theorem merge_self (a : Span) : a.merge a = a := by
  simp [merge]

theorem isEmpty_iff {span : Span} : span.isEmpty = true ↔ span.stop ≤ span.start := by
  simp [isEmpty, size, Nat.sub_eq_zero_iff_le]

end Span

end ValueFlow
