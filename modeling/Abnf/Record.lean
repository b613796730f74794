/-!
# Abnf.Record — the events an application reports while it runs

Records are data, one constructor per kind of event; `Record.level` and `Record.message` give their
written form.
-/

namespace Abnf

/-- How much a record matters. -/
inductive Level where
  | trace
  | debug
  | warn
  deriving DecidableEq, Repr

/-- An event worth reporting. -/
inductive Record where
  /-- The position went back to a mark. -/
  | rolledBack (position mark : Nat)
  /-- A repetition ended with fewer rounds than it needs. -/
  | tooFewRounds (count min position : Nat)
  /-- A tree repetition ended with fewer steps than it needs. -/
  | tooFewSteps (key : String) (count min : Nat)
  /-- A nonterminal was applied before it was defined. -/
  | appliedUndefined (name : String)
  /-- A parse ended with a match of so many symbols. -/
  | matched (length : Nat)
  /-- A parse ended without a match after buffering so many symbols. -/
  | unmatched (buffered : Nat)
  /-- A tree parse ended with so many candidates over an input of so many bytes. -/
  | treeParsed (candidates length : Nat)
  /-- A read failed, which counts as the end of the input. -/
  | readFailed (error : String)
  deriving DecidableEq, Repr

namespace Record

/-- Moves of the machinery are traced, ends of parses are for debugging, lost input is a warning. -/
def level : Record → Level
  | .rolledBack .. | .tooFewRounds .. | .tooFewSteps .. => .trace
  | .appliedUndefined .. | .matched .. | .unmatched .. | .treeParsed .. => .debug
  | .readFailed .. => .warn

/-- The wording of a record. -/
def message : Record → String
  | .rolledBack position mark => "rollback " ++ toString position ++ " -> " ++ toString mark
  | .tooFewRounds count min position =>
    "repeat matched " ++ toString count ++ " of at least " ++ toString min ++ " at " ++
      toString position
  | .tooFewSteps key count min =>
    "tree repeat `" ++ key ++ "` matched " ++ toString count ++ " of " ++ toString min ++
      " required steps"
  | .appliedUndefined name => "rule `" ++ name ++ "` applied before definition"
  | .matched length => "matched " ++ toString length ++ " symbols"
  | .unmatched buffered => "no match (" ++ toString buffered ++ " symbols read)"
  | .treeParsed candidates length =>
    "tree parse produced " ++ toString candidates ++ " alternatives over " ++ toString length ++
      " bytes"
  | .readFailed error => "input read failed, treating as end of input: " ++ error

end Record

end Abnf
