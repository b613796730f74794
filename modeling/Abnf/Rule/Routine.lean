import Abnf.Rule

/-!
# Abnf.Rule.Routine — custom rules as straight-line routines

A routine is a list of scanner operations that are carried out in order, whatever they do to the
scanner: marks may be left or resolved that the routine did not set, symbols consumed without a
match, and any span answered.  The first failure ends it.
-/

namespace Abnf.Rule

/-- One operation of a routine.  Those that answer a span or an outcome keep it as the last match. -/
inductive Instruction (α : Type) where
  /-- Looks at the current symbol; without one, the routine does not match. -/
  | need
  /-- Looks at the current symbol. -/
  | peek
  /-- Moves past the current symbol and keeps its span. -/
  | advance
  /-- Saves the position. -/
  | mark
  /-- Goes back to the latest mark. -/
  | rollback
  /-- Forgets the latest mark and keeps the span consumed since. -/
  | commit
  /-- Applies a rule and keeps its match, or that there was none. -/
  | attempt (rule : Rule α)

/-- What a routine answers at its end. -/
inductive Reply where
  /-- No match. -/
  | noMatch
  /-- The last match kept. -/
  | last
  /-- A match of nothing at the current position. -/
  | here
  /-- A match of the given span, whatever was consumed. -/
  | given (span : Span)
  deriving DecidableEq, Repr

/-- The end of a routine whose last match is given. -/
def Reply.script {α : Type} (last : Option Span) : Reply → Script (Rule α) α
  | .noMatch => .answer .noMatch
  | .last =>
    match last with
    | some span => .answer (.matched span)
    | none => .answer .noMatch
  | .here => .inspect fun view => .answer (.matched (Span.empty view.position))
  | .given span => .answer (.matched span)

/-- What a routine does from an instruction on. -/
def Instruction.script {α : Type} (reply : Reply) :
    List (Instruction α) → Option Span → Script (Rule α) α
  | [], last => reply.script last
  | .need :: rest, last =>
    .peek fun
      | some _ => Instruction.script reply rest last
      | none => .answer .noMatch
  | .peek :: rest, last => .peek fun _ => Instruction.script reply rest last
  | .advance :: rest, _ =>
    .advance fun
      | .ok span => Instruction.script reply rest (some span)
      | .error misuse => .answer (.failed misuse)
  | .mark :: rest, last => .mark (Instruction.script reply rest last)
  | .rollback :: rest, last =>
    .rollback fun
      | .ok () => Instruction.script reply rest last
      | .error misuse => .answer (.failed misuse)
  | .commit :: rest, _ =>
    .commit fun
      | .ok span => Instruction.script reply rest (some span)
      | .error misuse => .answer (.failed misuse)
  | .attempt rule :: rest, _ =>
    .attempt rule (fun span => Instruction.script reply rest (some span))
      (Instruction.script reply rest none)

/-- The custom rule of a routine. -/
def routine {α : Type} (instructions : List (Instruction α)) (reply : Reply) : Rule α :=
  .custom (Instruction.script reply instructions none)

end Abnf.Rule
