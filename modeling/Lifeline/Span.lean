/-! A span is a range of bytes in a text. -/

namespace Lifeline

/-- A span is a range of bytes that ends no earlier than it starts. -/
structure Span where
  start : Nat
  stop : Nat
  ordered : start ≤ stop := by omega
  deriving DecidableEq

namespace Span

/-- The empty span at offset zero belongs to what has no place in a text. -/
def origin : Span := ⟨0, 0, Nat.le_refl 0⟩

/-- An end below the start is raised to the start. -/
def between (start stop : Nat) : Span := ⟨start, max start stop, Nat.le_max_left start stop⟩

/-- This span covers a number of bytes from an offset on. -/
def covering (offset bytes : Nat) : Span := ⟨offset, offset + bytes, Nat.le_add_right offset bytes⟩

def length (span : Span) : Nat := span.stop - span.start

def isEmpty (span : Span) : Bool := span.start == span.stop

/-- The union covers both spans and all that lies between them. -/
def union (first second : Span) : Span where
  start := min first.start second.start
  stop := max first.stop second.stop
  ordered := by
    have := first.ordered
    have := second.ordered
    omega

@[simp] theorem length_covering (offset bytes : Nat) : (covering offset bytes).length = bytes :=
  Nat.add_sub_cancel_left offset bytes

end Span

end Lifeline
