import Abnf.Scanner

/-!
# Abnf.Script — what a rule does with a scanner, as data

A script is a tree of scanner operations and applications of rules, each followed by what is done
for every answer it can give.  `Script.run` carries a script out, given how rules are applied.  A
script reaches the scanner through its operations alone: it cannot look ahead in the source nor
touch the buffer and the marks.
-/

namespace Abnf

/-- What applying a rule comes to. -/
inductive Outcome where
  /-- The rule matched, possibly nothing. -/
  | matched (span : Span)
  /-- The rule did not match. -/
  | noMatch
  /-- The application was given up. -/
  | failed (misuse : Misuse)
  deriving DecidableEq, Repr

/-- What a script can see of a scanner without changing it. -/
structure View (α : Type) where
  position : Nat
  depth : Nat
  buffer : Array α

/-- What can be seen of a scanner. -/
def Scanner.view {α : Type} (s : Scanner α) : View α := ⟨s.position, s.depth, s.buffer⟩

/-- Operations on a scanner of `α` and applications of rules of the type `ρ`. -/
inductive Script (ρ α : Type) where
  /-- Ends with an outcome. -/
  | answer (outcome : Outcome)
  /-- Looks at the current symbol. -/
  | peek (next : Option α → Script ρ α)
  /-- Moves past the current symbol. -/
  | advance (next : Except Misuse Span → Script ρ α)
  /-- Saves the position. -/
  | mark (next : Script ρ α)
  /-- Goes back to the latest mark. -/
  | rollback (next : Except Misuse Unit → Script ρ α)
  /-- Forgets the latest mark and keeps what was consumed. -/
  | commit (next : Except Misuse Span → Script ρ α)
  /-- Looks at the position, the number of marks and the buffer. -/
  | inspect (next : View α → Script ρ α)
  /-- Reports an event. -/
  | report (record : Record) (next : Script ρ α)
  /-- Applies a rule. -/
  | apply (rule : ρ) (next : Outcome → Script ρ α)
  /-- Stands for work that goes on longer than was allowed. -/
  | unfinished

namespace Script

variable {ρ α : Type}

/-- Carries a script out.  `applyRule` applies a rule; it answers nothing when it comes to no end, and
then neither does the script. -/
def run (applyRule : ρ → Scanner α → Option (Outcome × Scanner α)) :
    Script ρ α → Scanner α → Option (Outcome × Scanner α)
  | .answer outcome, s => some (outcome, s)
  | .peek next, s =>
    match s.peek with
    | (symbol?, s) => (next symbol?).run applyRule s
  | .advance next, s =>
    match s.advance with
    | (result, s) => (next result).run applyRule s
  | .mark next, s => next.run applyRule s.pushMark
  | .rollback next, s =>
    match s.rollback with
    | (result, s) => (next result).run applyRule s
  | .commit next, s =>
    match s.commit with
    | (result, s) => (next result).run applyRule s
  | .inspect next, s => (next s.view).run applyRule s
  | .report record next, s => next.run applyRule (s.report record)
  | .apply rule next, s =>
    match applyRule rule s with
    | none => none
    | some (outcome, s) => (next outcome).run applyRule s
  | .unfinished, _ => none

/-! ### Single steps that end a script -/

/-- Moves past the current symbol and matches it. -/
def consume : Script ρ α :=
  .advance fun
    | .ok span => .answer (.matched span)
    | .error misuse => .answer (.failed misuse)

/-- Keeps what was consumed since the latest mark and matches it. -/
def accept : Script ρ α :=
  .commit fun
    | .ok span => .answer (.matched span)
    | .error misuse => .answer (.failed misuse)

/-- Goes back to the latest mark and does not match. -/
def reject : Script ρ α :=
  .rollback fun
    | .ok () => .answer .noMatch
    | .error misuse => .answer (.failed misuse)

/-- Applies a rule and goes on according to whether it matched; a failure is final. -/
def attempt (rule : ρ) (onMatch : Span → Script ρ α) (onNoMatch : Script ρ α) : Script ρ α :=
  .apply rule fun
    | .matched span => onMatch span
    | .noMatch => onNoMatch
    | .failed misuse => .answer (.failed misuse)

end Script

end Abnf
