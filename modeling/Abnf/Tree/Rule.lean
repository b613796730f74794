import Abnf.Grammar
import Abnf.Tree.Combinator

/-!
# Abnf.Tree.Rule — grammar rules that answer parse trees

Rules over bytes whose every match is recorded under a key.  `Rule.parser` says what each kind of rule
does in terms of its sub-rules; `Rule.apply` carries it out, with fuel for the depth of the rules.
-/

namespace Abnf.Tree

/-- A grammar rule whose matches are parse trees. -/
inductive Rule where
  /-- The bytes in order. -/
  | terminal (key : String) (expected : List UInt8)
  /-- A byte between two, both included. -/
  | range (key : String) (low high : UInt8)
  /-- Any one of the bytes. -/
  | oneOf (key : String) (candidates : List UInt8)
  /-- The rules one after another. -/
  | concat (key : String) (rules : List Rule)
  /-- Every one of the rules. -/
  | choice (key : String) (rules : List Rule)
  /-- The rule as often as possible within the bounds. -/
  | repetition (key : String) (bounds : Bounds) (rule : Rule)
  /-- What the nonterminal stands for. -/
  | nonterminal (n : Nonterminal)
  /-- What the function answers. -/
  | custom (find : List UInt8 → Except Misuse Candidates)

namespace Rule

/-- The rule once, or not at all. -/
def optional (key : String) (rule : Rule) : Rule := .repetition key (.atMost 1) rule

/-- What a rule does, given how its sub-rules are applied. -/
def parser (g : Grammar Rule) (applyRule : Rule → Parser) : Rule → Parser
  | .terminal key expected => .terminal key expected
  | .range key low high => .byteThat key fun b => low ≤ b && b ≤ high
  | .oneOf key candidates => .byteThat key candidates.contains
  | .concat key rules => .concat key (rules.map applyRule)
  | .choice key rules => .choice key (rules.map applyRule)
  | .repetition key bounds rule => .repetition key bounds (applyRule rule)
  | .nonterminal n => fun input =>
    match g.body? n with
    | some body => applyRule body input
    | none => .fail (.unresolvedRule n.name)
  | .custom find => fun input => .ofExcept (find input)

/-- Applies a rule; it is unfinished when the fuel does not suffice. -/
def apply (g : Grammar Rule) : Nat → Rule → Parser
  | 0, _ => fun _ => .unfinished
  | fuel + 1, rule => rule.parser g (apply g fuel)

theorem apply_succ (g : Grammar Rule) (fuel : Nat) (rule : Rule) :
    rule.apply g (fuel + 1) = rule.parser g (apply g fuel) := rfl

/-- Applies a rule at the beginning of an input, and reports how many candidates were found. -/
def parse (g : Grammar Rule) (fuel : Nat) (rule : Rule) : Parser := fun input => do
  let found ← rule.apply g fuel input
  .report (.treeParsed found.size input.length)
  pure found

/-! ### Custom rules -/

/-- One candidate for every prefix of the input that has at least `shortest` bytes, the shortest
first. -/
def prefixes (key : String) (shortest : Nat) : Rule :=
  .custom fun input =>
    .ok ⟨(List.range' shortest (input.length + 1 - shortest)).map fun n =>
      .leaf key (input.take n)⟩

/-- One candidate: the first `n` bytes, or all of fewer. -/
def take (key : String) (n : Nat) : Rule :=
  .custom fun input => .ok (.single (.leaf key (input.take n)))

/-- The given candidates, whatever the input is. -/
def fixed (nodes : List Node) : Rule := .custom fun _ => .ok ⟨nodes⟩

/-- No candidates, but a misuse. -/
def failing (misuse : Misuse) : Rule := .custom fun _ => .error misuse

end Rule

end Abnf.Tree
