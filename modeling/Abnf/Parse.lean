import Abnf.Rule

/-!
# Abnf.Parse — matching a prefix of a source

A parse applies one rule at the beginning of a source and answers the symbols that it matched.
Input left over is no failure: a rule that has to match all of it ends with the end of the input.
-/

namespace Abnf

/-- What a parse comes to. -/
inductive Answer (α : Type) where
  /-- The rule matched these symbols. -/
  | matched (symbols : List α)
  /-- The rule did not match. -/
  | noMatch
  /-- A rule was misused, or left marks behind. -/
  | failed (misuse : Misuse)
  /-- The rule answered a span whose ends are out of order, so that the length that was to be
  reported does not exist. -/
  | noLength (span : Span)
  deriving DecidableEq, Repr

namespace Scanner

variable {α : Type}

/-- The symbols of a match, whose length is reported if `reporting` is set. -/
def finishMatch (reporting : Bool) (span : Span) (s : Scanner α) : Answer α × Scanner α :=
  if reporting then
    match span.length? with
    | some length => (.matched (s.slice span), s.report (.matched length))
    | none => (.noLength span, s)
  else (.matched (s.slice span), s)

/-- Ends a parse.  No mark may be left, whether the rule matched or not. -/
def finish (reporting : Bool) (outcome : Outcome) (s : Scanner α) : Answer α × Scanner α :=
  match outcome with
  | .failed misuse => (.failed misuse, s)
  | .matched span =>
    if s.depth = 0 then s.finishMatch reporting span
    else (.failed (.unbalancedMark .finish s.position), s)
  | .noMatch =>
    if s.depth = 0 then
      (.noMatch, if reporting then s.report (.unmatched s.buffer.size) else s)
    else (.failed (.unbalancedMark .finish s.position), s)

end Scanner

namespace Rule

variable {α : Type} [Symbol α]

/-- Applies a rule at the beginning of a source, and answers what came of it and the scanner as it
was left, or nothing when the fuel does not suffice. -/
def parse (g : Grammar (Rule α)) (fuel : Nat) (reporting : Bool) (rule : Rule α)
    (source : Source α) : Option (Answer α × Scanner α) :=
  match rule.apply g fuel (Scanner.ofSource source) with
  | none => none
  | some (outcome, s) => some (s.finish reporting outcome)

end Rule

end Abnf
