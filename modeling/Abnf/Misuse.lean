/-!
# Abnf.Misuse — what can go wrong when rules are composed or driven incorrectly

A misuse never describes the input: an input that does not match is no match, not an error.  Each
cause is a constructor; the wording of all of them is `Misuse.message`.
-/

namespace Abnf

/-- What asked for a mark, or ended while one was left. -/
inductive MarkUse where
  | commit
  | rollback
  | finish
  deriving DecidableEq, Repr

/-- The word for it in messages. -/
def MarkUse.word : MarkUse → String
  | .commit => "commit"
  | .rollback => "rollback"
  | .finish => "finish"

/-- Why an application was given up. -/
inductive Misuse where
  /-- A mark was resolved that nobody set, or one was left when the parse finished. -/
  | unbalancedMark (operation : MarkUse) (position : Nat)
  /-- There was no buffered symbol to move past. -/
  | advancePastBuffer (position : Nat)
  /-- A tree rule answered a node longer than the input it was given. -/
  | overlongNode (key : String) (length available : Nat)
  /-- A nonterminal was applied before it was defined. -/
  | unresolvedRule (name : String)
  /-- A nonterminal was defined a second time. -/
  | redefinedRule (name : String)
  deriving DecidableEq, Repr

/-- The wording of a misuse. -/
def Misuse.message : Misuse → String
  | .unbalancedMark operation position =>
    "unbalanced marker: " ++ operation.word ++ " at position " ++ toString position
  | .advancePastBuffer position =>
    "cannot advance past the end of the buffer at position " ++ toString position
  | .overlongNode key length available =>
    "node `" ++ key ++ "` spans " ++ toString length ++ " bytes but only " ++
      toString available ++ " remain"
  | .unresolvedRule name => "rule `" ++ name ++ "` was used before it was defined"
  | .redefinedRule name => "rule `" ++ name ++ "` is already defined"

end Abnf
