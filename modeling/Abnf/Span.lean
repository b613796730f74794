import Abnf.Text.Layout

/-!
# Abnf.Span — contiguous ranges of buffer positions

A span is where a rule matched: `start` inclusive, `stop` exclusive.  Rules answer spans with
`start ≤ stop`, but a custom rule may answer any pair, so the type does not forbid the others.
-/

namespace Abnf

/-- A range of buffer positions, `start` inclusive and `stop` exclusive. -/
structure Span where
  start : Nat
  stop : Nat
  deriving DecidableEq, Repr

namespace Span

/-- The span with the given ends, provided they are in order. -/
def ofBounds? (start stop : Nat) : Option Span :=
  if start ≤ stop then some ⟨start, stop⟩ else none

/-- The zero-length span at a position. -/
def empty (position : Nat) : Span := ⟨position, position⟩

/-- The number of positions covered; a span whose ends are out of order has none. -/
def length? (s : Span) : Option Nat :=
  if s.start ≤ s.stop then some (s.stop - s.start) else none

/-- A span is empty when its ends coincide. -/
def isEmpty (s : Span) : Bool := s.start == s.stop

/-- Both ends of a span. -/
def layout (s : Span) : Text.Layout :=
  .record "Span" [("start", .atom (toString s.start)), ("end", .atom (toString s.stop))] false

@[simp] theorem isEmpty_iff (s : Span) : s.isEmpty = true ↔ s.start = s.stop := by
  simp [isEmpty]

@[simp] theorem isEmpty_empty (p : Nat) : (empty p).isEmpty = true := by simp [empty]

theorem ofBounds?_eq_some_iff {a b : Nat} {s : Span} :
    ofBounds? a b = some s ↔ a ≤ b ∧ s = ⟨a, b⟩ := by
  unfold ofBounds?
  split
  · rename_i h
    simp [h, eq_comm]
  · rename_i h
    simp [h]

end Span

end Abnf
