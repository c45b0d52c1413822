/-! Source extents of nodes: a pair of offsets, of which the second need not follow the first. -/

set_option autoImplicit false

namespace Comprehension

structure Span where
  start : Nat
  stop : Nat
  deriving DecidableEq, Repr

namespace Span

def none : Span := ⟨0, 0⟩

/-- Offsets covered; a span that ends before it starts covers none. -/
def length (s : Span) : Nat := s.stop - s.start

def isEmpty (s : Span) : Bool := s.stop ≤ s.start

def merge (a b : Span) : Span := ⟨min a.start b.start, max a.stop b.stop⟩

def text (s : Span) : String := toString s.start ++ ".." ++ toString s.stop

theorem isEmpty_iff_length (s : Span) : s.isEmpty = true ↔ s.length = 0 := by
  simp [isEmpty, length, Nat.sub_eq_zero_iff_le]

theorem merge_comm (a b : Span) : a.merge b = b.merge a := by
  simp [merge, Nat.min_comm, Nat.max_comm]

end Span

end Comprehension
