/-!
# Spans

A half-open range of offsets. Both ends are integers, so a span may lie outside any text or run
backwards; a backward span holds no offset.

## Main definitions

* `Span`: the offsets from `start` up to, not including, `stop`
* `Span.Holds`, `Span.Covers`, `Span.Overlaps`: an offset inside a span, a span inside a span, two
  spans with a common stretch
-/

namespace KlarAudit

/-- **A span**: the offsets `start ≤ o < stop`. -/
structure Span where
  /-- First offset of the span. -/
  start : Int
  /-- The offset after the last one. -/
  stop : Int
deriving DecidableEq, Repr, Inhabited

namespace Span

/-- The offset lies in the span. -/
def Holds (s : Span) (offset : Int) : Prop :=
  s.start ≤ offset ∧ offset < s.stop

/-- The span `t` lies in the span `s`. -/
def Covers (s t : Span) : Prop :=
  s.start ≤ t.start ∧ t.stop ≤ s.stop

/-- Each of the two spans starts before the other one stops. -/
def Overlaps (s t : Span) : Prop :=
  s.start < t.stop ∧ t.start < s.stop

instance (s : Span) (offset : Int) : Decidable (s.Holds offset) :=
  inferInstanceAs (Decidable (_ ∧ _))

instance (s t : Span) : Decidable (s.Covers t) :=
  inferInstanceAs (Decidable (_ ∧ _))

instance (s t : Span) : Decidable (s.Overlaps t) :=
  inferInstanceAs (Decidable (_ ∧ _))

theorem Covers.refl (s : Span) : s.Covers s :=
  ⟨Int.le_refl _, Int.le_refl _⟩

theorem Covers.trans {s t u : Span} (h : s.Covers t) (k : t.Covers u) : s.Covers u :=
  ⟨Int.le_trans h.1 k.1, Int.le_trans k.2 h.2⟩

theorem Overlaps.symm {s t : Span} (h : s.Overlaps t) : t.Overlaps s :=
  ⟨h.2, h.1⟩

end Span

end KlarAudit
