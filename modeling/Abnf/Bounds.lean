/-!
# Abnf.Bounds — how often a rule may be repeated

A repetition has a least number of rounds and may have a greatest one.
-/

namespace Abnf

/-- The least number of rounds and the greatest, if there is one. -/
structure Bounds where
  min : Nat
  max : Option Nat
  deriving DecidableEq, Repr

namespace Bounds

/-- So many rounds and no others. -/
def exactly (n : Nat) : Bounds := ⟨n, some n⟩

/-- So many rounds or more. -/
def atLeast (n : Nat) : Bounds := ⟨n, none⟩

/-- At most so many rounds. -/
def atMost (n : Nat) : Bounds := ⟨0, some n⟩

/-- Whether there may be one more round after `count`. -/
def allowMore (b : Bounds) (count : Nat) : Bool :=
  match b.max with
  | none => true
  | some max => count < max

/-- Whether the least number of rounds is not above the greatest; else no number of rounds will do. -/
def inOrder (b : Bounds) : Bool :=
  match b.max with
  | none => true
  | some max => b.min ≤ max

end Bounds

end Abnf
