import Abnf.Tree.Node

/-!
# Abnf.Tree.Walk — visiting the nodes of a tree

A walk keeps the trees that are still to be visited on a stack.  A step takes the top node and puts
its children in its place, so that a node comes before its children and these from left to right.
-/

namespace Abnf.Tree

/-- The trees still to be visited, the next one first. -/
structure Walk where
  stack : List Node
  deriving DecidableEq, Repr

namespace Walk

/-- The next node, and the walk after it. -/
def next? (w : Walk) : Option (Node × Walk) :=
  match w.stack with
  | [] => none
  | n :: rest => some (n, ⟨n.children ++ rest⟩)

/-- A step leaves one node less to visit. -/
theorem size_next? {w w' : Walk} {n : Node} (h : w.next? = some (n, w')) :
    Node.sizeList w'.stack < Node.sizeList w.stack := by
  obtain ⟨_ | ⟨a, rest⟩⟩ := w
  · cases h
  · cases h
    simp only [Node.sizeList_append, Node.sizeList_cons, Node.size_eq]
    omega

/-- The nodes in the order in which they are visited. -/
def toList (w : Walk) : List Node :=
  match _h : w.next? with
  | none => []
  | some (n, rest) => n :: rest.toList
termination_by Node.sizeList w.stack
decreasing_by exact size_next? _h

/-- What holds of the trees to be visited, and passes to children, holds of every node visited. -/
theorem forall_mem_toList {P : Node → Prop} (hP : ∀ n, P n → ∀ c ∈ n.children, P c) (w : Walk)
    (h : ∀ n ∈ w.stack, P n) : ∀ n ∈ w.toList, P n := by
  fun_induction toList w with
  | case1 => simp
  | case2 w n rest hnext ih =>
    obtain ⟨_ | ⟨top, below⟩⟩ := w
    · cases hnext
    · cases hnext
      have htop : P n := h n List.mem_cons_self
      rintro m (_ | ⟨_, hm⟩)
      · exact htop
      · refine ih (fun m hm => ?_) m hm
        rcases List.mem_append.mp hm with hm | hm
        · exact hP n htop m hm
        · exact h m (List.mem_cons_of_mem _ hm)

end Walk

namespace Node

/-- The walk through a tree. -/
def walk (n : Node) : Walk := ⟨[n]⟩

/-- The first node visited that has the given key. -/
def find? (n : Node) (key : String) : Option Node := n.walk.toList.find? (·.key == key)

end Node

end Abnf.Tree
