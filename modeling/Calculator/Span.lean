/-!
# Spans

A span is a range of byte offsets into one text. Token, node and report positions are spans.

* `Span.cover`: the smallest span that contains two others.
* `Span.Within`: one span lies inside another; `Span.within_cover_left` and
  `Span.within_cover_right` say that `cover` is an upper bound.
-/

namespace Calculator

/-- The bytes from `start` up to, but not including, `stop`. A span taken from a text has
`start ≤ stop`; the type does not ask for it, so that any pair of offsets can be shown. -/
structure Span where
  start : Nat
  stop : Nat
deriving DecidableEq, Repr, Inhabited

namespace Span

/-- The zero-width span at `offset`. -/
def point (offset : Nat) : Span := ⟨offset, offset⟩

/-- The smallest span that contains both `a` and `b`. -/
def cover (a b : Span) : Span := ⟨min a.start b.start, max a.stop b.stop⟩

/-- The number of bytes in the span. -/
def length (s : Span) : Nat := s.stop - s.start

/-- Does the span hold no byte at all? -/
def isEmpty (s : Span) : Bool := s.start == s.stop

/-- The span `a` lies inside `b`, ends included. -/
def Within (a b : Span) : Prop := b.start ≤ a.start ∧ a.stop ≤ b.stop

instance (a b : Span) : Decidable (a.Within b) := inferInstanceAs (Decidable (_ ∧ _))

@[simp] theorem start_point (offset : Nat) : (Span.point offset).start = offset := rfl

@[simp] theorem stop_point (offset : Nat) : (Span.point offset).stop = offset := rfl

@[simp] theorem start_cover (a b : Span) : (a.cover b).start = min a.start b.start := rfl

@[simp] theorem stop_cover (a b : Span) : (a.cover b).stop = max a.stop b.stop := rfl

theorem Within.trans {a b c : Span} (h : a.Within b) (h' : b.Within c) : a.Within c :=
  ⟨Nat.le_trans h'.1 h.1, Nat.le_trans h.2 h'.2⟩

theorem within_cover_left (a b : Span) : a.Within (a.cover b) :=
  ⟨Nat.min_le_left .., Nat.le_max_left ..⟩

theorem within_cover_right (a b : Span) : b.Within (a.cover b) :=
  ⟨Nat.min_le_right .., Nat.le_max_right ..⟩

/-- The cover of two spans, of which one starts and the other one ends it. -/
theorem cover_eq {a b : Span} (hstart : a.start ≤ b.start) (hstop : a.stop ≤ b.stop) :
    a.cover b = ⟨a.start, b.stop⟩ := by
  rw [cover, Nat.min_eq_left hstart, Nat.max_eq_right hstop]

end Span

end Calculator
