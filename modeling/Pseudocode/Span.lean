import Pseudocode.Location

/-!
# Spans of text

A span is the stretch of text between two locations, the second not before the first. Two
arbitrary locations need not bound a span, which is why `Span.between?` may fail.

## Main definitions

* `Span`: two locations with ordered offsets.
* `Span.between?`: the span from one location to another, if they are in order.
* `Location.point`: the empty span at a location.
-/

namespace Pseudocode

/-- A stretch of text. -/
structure Span where
  /-- Where the stretch starts. -/
  start : Location
  /-- Where the stretch stops: the place behind its last character. -/
  stop : Location
  /-- A span never runs backwards. -/
  ordered : start.offset ≤ stop.offset
deriving DecidableEq

/-- The empty span at a location. -/
def Location.point (l : Location) : Span :=
  { start := l, stop := l, ordered := Nat.le_refl _ }

namespace Span

instance : Inhabited Span := ⟨Location.point {}⟩

/-- The span from `start` to `stop`, or `none` when `stop` lies before `start`. -/
def between? (start stop : Location) : Option Span :=
  if h : start.offset ≤ stop.offset then some { start, stop, ordered := h } else none

/-- The number of bytes in the span. -/
def length (s : Span) : Nat :=
  s.stop.offset - s.start.offset

/-- A span is empty when both ends are the same place in all three ways of counting. -/
def isEmpty (s : Span) : Bool :=
  s.start == s.stop

theorem between?_eq_some_iff {start stop : Location} {s : Span} :
    between? start stop = some s ↔ s.start = start ∧ s.stop = stop := by
  constructor
  · intro h
    unfold between? at h
    split at h
    · cases h
      exact ⟨rfl, rfl⟩
    · cases h
  · rintro ⟨rfl, rfl⟩
    simp [between?, s.ordered]

theorem between?_eq_none_iff {start stop : Location} :
    between? start stop = none ↔ stop.offset < start.offset := by
  unfold between?
  split <;> simp <;> omega

/-- The start of a span and its length determine where it stops. -/
theorem start_add_length (s : Span) : s.start.offset + s.length = s.stop.offset :=
  Nat.add_sub_cancel' s.ordered

end Span

end Pseudocode
