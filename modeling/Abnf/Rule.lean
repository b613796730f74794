import Abnf.Grammar
import Abnf.Script.Combinator

/-!
# Abnf.Rule — grammar rules and how they are applied to a scanner

A rule matches a prefix of the input from the scanner's position on.  Choice is ordered and
repetition greedy, so a rule matches in at most one way.  `Rule.script` says what each kind of rule
does, in terms of its sub-rules; `Rule.apply` carries it out, with fuel for the depth of the rules
and the rounds of a repetition.
-/

namespace Abnf

/-- A grammar rule over symbols of the type `α`. -/
inductive Rule (α : Type) where
  /-- One specific symbol. -/
  | symbol (expected : α)
  /-- Any one of the symbols. -/
  | oneOf (candidates : List α)
  /-- A symbol between two, both included. -/
  | range (low high : α)
  /-- Nothing, at the end of the input. -/
  | endOfInput
  /-- The symbols in order, but for the case of ASCII letters. -/
  | caseless (expected : List α)
  /-- The rules one after another. -/
  | concat (rules : List (Rule α))
  /-- The first of the rules that matches. -/
  | choice (rules : List (Rule α))
  /-- The rule, or else nothing. -/
  | optional (rule : Rule α)
  /-- The rule as often as possible within the bounds. -/
  | repetition (bounds : Bounds) (rule : Rule α)
  /-- What the nonterminal stands for. -/
  | nonterminal (n : Nonterminal)
  /-- What the script does. -/
  | custom (script : Script (Rule α) α)

namespace Rule

variable {α : Type}

/-! ### Shorthands -/

/-- The symbols in order. -/
def literal (expected : List α) : Rule α := .concat (expected.map .symbol)

/-- The characters of a text in order. -/
def string (expected : String) : Rule Char := literal expected.toList

/-- The rule exactly `n` times. -/
def exactly (n : Nat) (rule : Rule α) : Rule α := .repetition (.exactly n) rule

/-- The rule any number of times. -/
def zeroOrMore (rule : Rule α) : Rule α := .repetition (.atLeast 0) rule

/-- The rule at least once. -/
def oneOrMore (rule : Rule α) : Rule α := .repetition (.atLeast 1) rule

/-- The rule, or else another. -/
def orElse (rule other : Rule α) : Rule α := .choice [rule, other]

/-- The rule and then another. -/
def andThen (rule next : Rule α) : Rule α := .concat [rule, next]

/-! ### Application -/

variable [Symbol α]

/-- What a rule does.  Fuel bounds the rounds of a repetition. -/
def script (g : Grammar (Rule α)) (fuel : Nat) : Rule α → Script (Rule α) α
  | .symbol expected => .acceptIf (Symbol.same expected)
  | .oneOf candidates => .acceptIf fun symbol => candidates.any (Symbol.same symbol)
  | .range low high => .acceptIf (Symbol.between low high)
  | .endOfInput => .endOfInput
  | .caseless expected => .acceptRun (expected.map Symbol.sameButCase)
  | .concat rules => .sequence rules
  | .choice rules => .choice rules
  | .optional rule => .optional rule
  | .repetition bounds rule => .repetition fuel bounds rule
  | .nonterminal n =>
    match g.body? n with
    | some body => .apply body .answer
    | none => .report (.appliedUndefined n.name) (.answer (.failed (.unresolvedRule n.name)))
  | .custom script => script

/-- Applies a rule, or answers nothing when the fuel does not suffice. -/
def apply (g : Grammar (Rule α)) : Nat → Rule α → Scanner α → Option (Outcome × Scanner α)
  | 0, _, _ => none
  | fuel + 1, rule, s => (rule.script g fuel).run (apply g fuel) s

theorem apply_succ (g : Grammar (Rule α)) (fuel : Nat) (rule : Rule α) (s : Scanner α) :
    rule.apply g (fuel + 1) s = (rule.script g fuel).run (apply g fuel) s := rfl

end Rule

end Abnf
