import Abnf.Bounds
import Abnf.Script

/-!
# Abnf.Script.Combinator — the scripts of the rule combinators

Each combinator is a script over sub-rules of any type.  All that consume more than one symbol set a
mark first and resolve it at the end, so that no match leaves the position where it was.
-/

namespace Abnf.Script

variable {ρ α : Type}

/-- Consumes the current symbol if it passes the test. -/
def acceptIf (test : α → Bool) : Script ρ α :=
  .peek fun
    | some symbol => if test symbol then consume else .answer .noMatch
    | none => .answer .noMatch

/-- Matches nothing, at the end of the input only. -/
def endOfInput : Script ρ α :=
  .peek fun
    | some _ => .answer .noMatch
    | none => .inspect fun view => .answer (.matched (Span.empty view.position))

/-- Consumes the current symbols if they pass the tests, one each; else rejects. -/
def acceptAll : List (α → Bool) → Script ρ α
  | [] => accept
  | test :: rest =>
    .peek fun
      | some symbol =>
        if test symbol then
          .advance fun
            | .ok _ => acceptAll rest
            | .error misuse => .answer (.failed misuse)
        else reject
      | none => reject

/-- Consumes as many symbols as there are tests, all or nothing. -/
def acceptRun (tests : List (α → Bool)) : Script ρ α := .mark (acceptAll tests)

/-- Applies the rules one after another; else rejects. -/
def applyAll : List ρ → Script ρ α
  | [] => accept
  | rule :: rest => attempt rule (fun _ => applyAll rest) reject

/-- Matches the rules one after another, all or nothing. -/
def sequence (rules : List ρ) : Script ρ α := .mark (applyAll rules)

/-- Matches as the first of the rules that matches. -/
def choice : List ρ → Script ρ α
  | [] => .answer .noMatch
  | rule :: rest => attempt rule (fun span => .answer (.matched span)) (choice rest)

/-- Matches as the rule does, or else nothing. -/
def optional (rule : ρ) : Script ρ α :=
  .inspect fun view =>
    attempt rule (fun span => .answer (.matched span))
      (.answer (.matched (Span.empty view.position)))

/-- Ends a repetition after `count` rounds. -/
def endRounds (bounds : Bounds) (count : Nat) : Script ρ α :=
  if count < bounds.min then
    .inspect fun view => .report (.tooFewRounds count bounds.min view.position) reject
  else accept

/-- Goes on with a repetition after `count` rounds, for at most `fuel` more.  A round that matches
nothing is the last one, and counts for all that are still needed. -/
def rounds (bounds : Bounds) (rule : ρ) : Nat → Nat → Script ρ α
  | 0, _ => .unfinished
  | fuel + 1, count =>
    if bounds.allowMore count then
      attempt rule
        (fun span =>
          if span.isEmpty then endRounds bounds (max count bounds.min)
          else rounds bounds rule fuel (count + 1))
        (endRounds bounds count)
    else endRounds bounds count

/-- Matches the rule as often as it can within the bounds; bounds that are out of order are never
met. -/
def repetition (fuel : Nat) (bounds : Bounds) (rule : ρ) : Script ρ α :=
  if bounds.inOrder then .mark (rounds bounds rule fuel 0) else .answer .noMatch

end Abnf.Script
