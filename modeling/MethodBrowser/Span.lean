/-!
# Spans

A span is a half-open range of byte offsets into a method's text. Every word, token, statement
and edit is located by one, so that a change can be spliced into exactly the bytes it was found
at.
-/

namespace MethodBrowser

/-- The offsets from `start` up to, but not including, `stop`. -/
structure Span where
  start : Nat
  stop : Nat
  deriving DecidableEq, Inhabited

namespace Span

/-- The number of bytes covered. -/
def size (s : Span) : Nat := s.stop - s.start

def isEmpty (s : Span) : Bool := s.start == s.stop

/-- `s` covers all of `t`. -/
def contains (s t : Span) : Bool := Nat.ble s.start t.start && Nat.ble t.stop s.stop

/-- `s` and `t` share a byte. -/
def overlaps (s t : Span) : Bool := Nat.blt s.start t.stop && Nat.blt t.start s.stop

/-- The smallest span that covers both `s` and `t`. -/
def merge (s t : Span) : Span :=
  ⟨if s.start < t.start then s.start else t.start, if s.stop < t.stop then t.stop else s.stop⟩

/-- Spans are ordered by where they start, then by where they stop. -/
def compare (s t : Span) : Ordering :=
  (compareOfLessAndEq s.start t.start).then (compareOfLessAndEq s.stop t.stop)

/-- `s` does not come after `t`. -/
def le (s t : Span) : Bool := (s.compare t).isLE

/-- The offsets of the span, in order. -/
def offsets (s : Span) : List Nat := List.range' s.start s.size

theorem contains_iff {s t : Span} : s.contains t ↔ s.start ≤ t.start ∧ t.stop ≤ s.stop := by
  simp [contains]

theorem overlaps_iff {s t : Span} : s.overlaps t ↔ s.start < t.stop ∧ t.start < s.stop := by
  simp [overlaps]

theorem mem_offsets {s : Span} {i : Nat} : i ∈ s.offsets ↔ s.start ≤ i ∧ i < s.stop := by
  simp only [offsets, size, List.mem_range'_1]
  omega

end Span

end MethodBrowser
