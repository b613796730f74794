import Abnf.Bounds
import Abnf.Tree.Candidates
import Abnf.Tree.Trial

/-!
# Abnf.Tree.Combinator — how parse trees are made from those of the parts

A parser takes the rest of the input and answers candidates for a prefix of it.  Choice keeps every
candidate; concatenation and repetition keep the best one.  Their parts may be any functions: a
candidate longer than the input it was found in ends the application.
-/

namespace Abnf.Tree

/-- Finds candidates for a prefix of the input. -/
abbrev Parser := List UInt8 → Trial Candidates

namespace Parser

/-- One candidate: the expected bytes, if the input begins with them. -/
def terminal (key : String) (expected : List UInt8) : Parser := fun input =>
  pure (if expected.isPrefixOf input then .single (.leaf key expected) else .empty)

/-- One candidate: the first byte, if it passes the test. -/
def byteThat (key : String) (test : UInt8 → Bool) : Parser
  | [] => pure .empty
  | b :: _ => pure (if test b then .single (.leaf key [b]) else .empty)

/-- What is wrong with a node that is longer than the input it was found in. -/
def overlong (n : Node) (input : List UInt8) : Misuse :=
  .overlongNode n.key n.length input.length

/-- Refuses a node that is longer than the input it was found in. -/
def checkFits (n : Node) (input : List UInt8) : Trial Unit :=
  if n.length ≤ input.length then pure () else .fail (overlong n input)

/-- The nodes that `extend` makes of the candidates, in order. -/
def collect (extend : Node → Trial (Option Node)) : List Node → Trial (List Node)
  | [] => pure []
  | n :: rest => do
    let extended ← extend n
    let others ← collect extend rest
    pure (extended.toList ++ others)

/-- The best match of the parsers one after another from `offset` on, as a node that covers the
input up to its end. -/
def extend (key : String) (input : List UInt8) : List Parser → Nat → Trial (Option Node)
  | [], offset => pure (some (.leaf key (input.take offset)))
  | first :: rest, offset => do
    let found ← first (input.drop offset)
    let extended ← collect (fun n => do
      checkFits n (input.drop offset)
      let tail ← extend key input rest (offset + n.length)
      pure (tail.map fun t => { t with children := n :: t.children })) found.nodes
    pure (Candidates.mk extended).best?

/-- The parsers one after another: of all combinations of their candidates, the best. -/
def concat (key : String) (parsers : List Parser) : Parser := fun input => do
  pure (.ofOption (← extend key input parsers 0))

/-- A node of its own around a candidate. -/
def wrap (key : String) (n : Node) : Node := ⟨key, n.value, [n]⟩

/-- Every candidate of every parser, each in a node of its own. -/
def choice (key : String) : List Parser → Parser
  | [], _ => pure .empty
  | first :: rest, input => do
    let found ← first input
    let others ← choice key rest input
    pure ⟨found.nodes.map (wrap key) ++ others.nodes⟩

/-- The steps of a repetition after `count` others, each the best candidate at its place.  A step
that matches nothing is the last one, and is repeated as often as steps are still needed. -/
def steps (bounds : Bounds) (parser : Parser) (rest : List UInt8) (count : Nat) :
    Trial (List Node) :=
  if bounds.allowMore count then do
    let found ← parser rest
    match found.best? with
    | none => pure []
    | some step =>
      if hne : step.isEmpty then pure (List.replicate (bounds.min - count) step)
      else if hle : step.length ≤ rest.length then do
        let more ← steps bounds parser (rest.drop step.length) (count + 1)
        pure (step :: more)
      else .fail (overlong step rest)
  else pure []
termination_by rest.length
decreasing_by
  simp only [Node.isEmpty_iff] at hne
  simp only [List.length_drop]
  omega

/-- The parser as often as it can within the bounds; bounds that are out of order are never met. -/
def repetition (key : String) (bounds : Bounds) (parser : Parser) : Parser := fun input =>
  if bounds.inOrder then do
    let children ← steps bounds parser input 0
    if children.length < bounds.min then do
      .report (.tooFewSteps key children.length bounds.min)
      pure .empty
    else
      pure (.single ⟨key, input.take (Node.lengthList children), children⟩)
  else pure .empty

end Parser

end Abnf.Tree
