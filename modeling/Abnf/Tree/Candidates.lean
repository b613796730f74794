import Abnf.Tree.Node

/-!
# Abnf.Tree.Candidates — the possible matches of one rule at one place

Candidates are kept in the order in which they were found.  No candidates mean no match.  The best
candidate is the longest, and of several longest ones the first.
-/

namespace Abnf.Tree

/-- Possible matches of the same input, in the order in which they were found. -/
structure Candidates where
  nodes : List Node
  deriving DecidableEq, Repr

namespace Candidates

/-- No candidates. -/
def empty : Candidates := ⟨[]⟩

/-- One candidate. -/
def single (n : Node) : Candidates := ⟨[n]⟩

/-- One more candidate, behind the others. -/
def push (c : Candidates) (n : Node) : Candidates := ⟨c.nodes ++ [n]⟩

/-- The candidates of both, the first ones in front. -/
def append (c d : Candidates) : Candidates := ⟨c.nodes ++ d.nodes⟩

/-- How many there are. -/
def size (c : Candidates) : Nat := c.nodes.length

/-- Whether there are none. -/
def isEmpty (c : Candidates) : Bool := c.nodes.isEmpty

/-- The first of the longest nodes, and its index. -/
def firstLongest : List Node → Option (Node × Nat)
  | [] => none
  | n :: rest =>
    match firstLongest rest with
    | none => some (n, 0)
    | some (m, i) => if n.length < m.length then some (m, i + 1) else some (n, 0)

/-- The best candidate. -/
def best? (c : Candidates) : Option Node := (firstLongest c.nodes).map (·.1)

/-- The index of the best candidate. -/
def bestIndex? (c : Candidates) : Option Nat := (firstLongest c.nodes).map (·.2)

/-- The node at an index and the others, the last of them in its place. -/
def swapRemove (nodes : List Node) (i : Nat) : Option (Node × List Node) :=
  match nodes[i]?, nodes.getLast? with
  | some n, some last => some (n, (nodes.set i last).dropLast)
  | _, _ => none

/-- The best candidate, taken out from among the others. -/
def takeBest? (c : Candidates) : Option Node :=
  match c.bestIndex? with
  | none => none
  | some i => (swapRemove c.nodes i).map (·.1)

/-- The best candidate alone, if there is one. -/
def ofOption : Option Node → Candidates
  | none => empty
  | some n => single n

/-- The candidates' layouts. -/
def layout (c : Candidates) : Text.Layout :=
  .record "Alternatives" [("nodes", .list (Node.layoutList c.nodes))] false

/-- The index of the best candidate is where it stands. -/
theorem getElem?_firstLongest {nodes : List Node} {n : Node} {i : Nat}
    (h : firstLongest nodes = some (n, i)) : nodes[i]? = some n := by
  induction nodes generalizing n i with
  | nil => cases h
  | cons m rest ih =>
    rw [firstLongest] at h
    split at h
    · cases h
      rfl
    · rename_i k j hrest
      split at h <;> cases h
      · simpa using ih hrest
      · rfl

/-- To take the best candidate out moves others, but not before it was found. -/
theorem takeBest?_eq_best? (c : Candidates) : c.takeBest? = c.best? := by
  unfold takeBest? bestIndex? best?
  cases h : firstLongest c.nodes with
  | none => rfl
  | some x =>
    obtain ⟨n, i⟩ := x
    have hget := getElem?_firstLongest h
    have hne : c.nodes ≠ [] := by
      intro hnil
      rw [hnil] at hget
      cases hget
    simp only [Option.map_some, swapRemove, hget, List.getLast?_eq_some_getLast hne]

end Candidates

end Abnf.Tree
