/-!
# Source spans

A span is a range of byte offsets in a source text, from `start` up to but not including `stop`.
-/

namespace SignalRules

/-- A range of byte offsets. -/
structure Span where
  /-- The offset of the first byte. -/
  start : Nat
  /-- The offset behind the last byte. -/
  stop : Nat
deriving DecidableEq, Inhabited

namespace Span

/-- The smallest span that covers both. -/
def merge (a b : Span) : Span := ⟨min a.start b.start, max a.stop b.stop⟩

/-- The span moved to the right, for a text that was cut out of a larger one. -/
def shift (a : Span) (delta : Nat) : Span := ⟨a.start + delta, a.stop + delta⟩

/-- The number of bytes in the span. -/
def length (a : Span) : Nat := a.stop - a.start

@[simp] theorem shift_zero (a : Span) : a.shift 0 = a := rfl

theorem shift_merge (a b : Span) (delta : Nat) :
    (a.merge b).shift delta = (a.shift delta).merge (b.shift delta) := by
  simp only [merge, shift, Span.mk.injEq]
  omega

end Span

end SignalRules
