/-! # Source spans

A span is a half-open range of character positions in the source text.
-/

namespace ByteCalc

/-- The characters from `start` up to and not including `stop`. -/
structure Span where
  start : Nat
  stop : Nat
deriving DecidableEq, Repr

namespace Span

/-- The span of something that has no place in the source. -/
def nowhere : Span := ⟨0, 0⟩

/-- Move a span `k` characters to the right. -/
def shift (k : Nat) (s : Span) : Span := ⟨s.start + k, s.stop + k⟩

/-- From the start of the first span to the end of the second. -/
def cover (a b : Span) : Span := ⟨a.start, b.stop⟩

@[simp] theorem shift_zero (s : Span) : s.shift 0 = s := rfl

theorem shift_shift (j k : Nat) (s : Span) : (s.shift j).shift k = s.shift (j + k) := by
  simp [shift, Nat.add_assoc]

theorem shift_cover (k : Nat) (a b : Span) :
    (cover a b).shift k = cover (a.shift k) (b.shift k) := rfl

end Span

end ByteCalc
