import Abnf.Tree.Walk

/-!
# Abnf.Proofs.Tree.PreOrder — what a walk visits, and what that says of the tree

`Node.preOrder`: the tree, then the pre-orders of its children from left to right.  A walk keeps on its
stack the trees whose pre-orders are still to come, one behind another (`Walk.pending`).  To pop a tree
and push its children, the last one first, takes exactly one node off the front of that
(`Walk.pending_of_next?`), and so the walk visits the pre-order.

Of each node visited, write down its key, its bytes and how many children it has (`Node.entry`).  Nothing
marks where a subtree ends, but read from the back the entries need no marks: the trees that are complete
wait in a list, and an entry takes its children off the front of it (`Entry.trees?`).

* `Node.walk_preOrder`: the walk, the search for a key, and the tree from what was written down.
-/

namespace Abnf.Tree

namespace Node

/-! ### The pre-order -/

mutual

/-- The tree itself, then the nodes of its children from left to right. -/
def preOrder : Node → List Node
  | ⟨key, value, children⟩ => ⟨key, value, children⟩ :: preOrderList children

/-- The nodes of several trees from left to right. -/
def preOrderList : List Node → List Node
  | [] => []
  | n :: rest => n.preOrder ++ preOrderList rest

end

theorem preOrder_eq (n : Node) : n.preOrder = n :: preOrderList n.children := by
  cases n
  rw [preOrder]

@[simp] theorem preOrderList_nil : preOrderList [] = [] := by rw [preOrderList]

@[simp] theorem preOrderList_cons (n : Node) (rest : List Node) :
    preOrderList (n :: rest) = n.preOrder ++ preOrderList rest := by rw [preOrderList]

@[simp] theorem preOrderList_append (ns ms : List Node) :
    preOrderList (ns ++ ms) = preOrderList ns ++ preOrderList ms := by
  induction ns with
  | nil => simp
  | cons n ns ih => simp [ih, List.append_assoc]

mutual

theorem length_preOrder : ∀ n : Node, n.preOrder.length = n.size
  | ⟨key, value, children⟩ => by
    rw [preOrder, List.length_cons, length_preOrderList children, size]

theorem length_preOrderList : ∀ nodes : List Node, (preOrderList nodes).length = sizeList nodes
  | [] => by simp
  | n :: rest => by
    rw [preOrderList_cons, List.length_append, length_preOrder n, length_preOrderList rest,
      sizeList_cons]

end

theorem mem_preOrderList {m n : Node} : ∀ {nodes : List Node}, n ∈ nodes → m ∈ n.preOrder →
    m ∈ preOrderList nodes
  | _ :: rest, hn, hm => by
    rw [preOrderList_cons, List.mem_append]
    rcases List.mem_cons.mp hn with rfl | hn
    · exact .inl hm
    · exact .inr (mem_preOrderList hn hm)

/-- The tree itself, its children and theirs. -/
inductive Part : Node → Node → Prop
  | self (n : Node) : Part n n
  | child {n c m : Node} (hc : c ∈ n.children) (h : Part c m) : Part n m

theorem Part.of_mem_children {n m c : Node} (h : n.Part m) (hc : c ∈ m.children) : n.Part c := by
  induction h with
  | self m => exact .child hc (.self c)
  | child hc' _ ih => exact .child hc' (ih hc)

theorem Part.mem_preOrder {n m : Node} (h : n.Part m) : m ∈ n.preOrder := by
  induction h with
  | self n =>
    rw [preOrder_eq]
    exact List.mem_cons_self
  | child hc _ ih =>
    rw [preOrder_eq]
    exact List.mem_cons_of_mem _ (mem_preOrderList hc ih)

end Node

/-! ### The walk -/

namespace Walk

variable {w w' : Walk} {n : Node}

/-- A tree put on top of the stack. -/
def push (w : Walk) (n : Node) : Walk := ⟨n :: w.stack⟩

/-- The walk after a number of calls for the next node.  At its end it stays as it is. -/
def after : Nat → Walk → Walk
  | 0, w => w
  | k + 1, w =>
    match w.next? with
    | none => w
    | some (_, rest) => rest.after k

/-- The nodes still to be visited, in pre-order. -/
def pending (w : Walk) : List Node := Node.preOrderList w.stack

/-- A walk pops a tree and pushes its children, the last one first. -/
theorem exists_push_of_next? (h : w.next? = some (n, w')) :
    ∃ below : Walk, w = below.push n ∧ w' = n.children.reverse.foldl push below := by
  obtain ⟨_ | ⟨top, stack⟩⟩ := w
  · cases h
  · cases h
    refine ⟨⟨stack⟩, rfl, ?_⟩
    rw [List.foldl_reverse]
    induction n.children with
    | nil => rfl
    | cons c rest ih => rw [List.foldr_cons, ← ih, push, List.cons_append]

@[simp] theorem pending_push (w : Walk) (n : Node) :
    (w.push n).pending = n.preOrder ++ w.pending := by
  rw [pending, push, Node.preOrderList_cons, pending]

/-- Pushed from the last to the first, trees are visited from the first to the last. -/
theorem pending_pushAll (w : Walk) (nodes : List Node) :
    (nodes.reverse.foldl push w).pending = Node.preOrderList nodes ++ w.pending := by
  rw [List.foldl_reverse]
  induction nodes with
  | nil => simp
  | cons n rest ih => rw [List.foldr_cons, pending_push, ih, Node.preOrderList_cons, List.append_assoc]

theorem pending_of_next? (h : w.next? = some (n, w')) : w.pending = n :: w'.pending := by
  obtain ⟨below, rfl, rfl⟩ := exists_push_of_next? h
  rw [pending_push, Node.preOrder_eq, List.cons_append, pending_pushAll]

theorem pending_of_end (h : w.next? = none) : w.pending = [] := by
  obtain ⟨_ | ⟨top, stack⟩⟩ := w
  · exact Node.preOrderList_nil
  · cases h

theorem head?_pending (w : Walk) : w.pending.head? = w.next?.map Prod.fst := by
  cases h : w.next? with
  | none => rw [pending_of_end h, List.head?_nil, Option.map_none]
  | some next => rw [pending_of_next? h, List.head?_cons, Option.map_some]

theorem pending_after (k : Nat) (w : Walk) : (w.after k).pending = w.pending.drop k := by
  induction k generalizing w with
  | zero => rw [after, List.drop_zero]
  | succ k ih =>
    cases h : w.next? with
    | none => simp only [after, h, pending_of_end h, List.drop_nil]
    | some next => simp only [after, h, pending_of_next? h, List.drop_succ_cons, ih]

/-- What the next call answers after a number of calls. -/
theorem next?_after (k : Nat) (w : Walk) : (w.after k).next?.map Prod.fst = w.pending[k]? := by
  rw [← head?_pending, pending_after, List.head?_drop]

theorem toList_eq_pending (w : Walk) : w.toList = w.pending := by
  fun_induction toList w with
  | case1 w h => rw [pending_of_end h]
  | case2 w n rest h ih => rw [pending_of_next? h, ih]

end Walk

namespace Node

theorem pending_walk (n : Node) : n.walk.pending = n.preOrder := by
  rw [Walk.pending, walk, preOrderList_cons, preOrderList_nil, List.append_nil]

theorem toList_walk (n : Node) : n.walk.toList = n.preOrder :=
  n.walk.toList_eq_pending.trans n.pending_walk

theorem mem_preOrder_iff {n m : Node} : m ∈ n.preOrder ↔ n.Part m := by
  refine ⟨fun hm => ?_, Part.mem_preOrder⟩
  rw [← toList_walk] at hm
  refine Walk.forall_mem_toList (fun m hm c hc => hm.of_mem_children hc) n.walk (fun m hm => ?_) m hm
  obtain rfl := List.mem_singleton.mp hm
  exact .self m

end Node

/-! ### The tree from what was written down -/

/-- What is written down of a node: its key, its bytes, and how many children it has. -/
structure Entry where
  key : String
  value : List UInt8
  arity : Nat
  deriving DecidableEq, Repr

/-- What is written down of the node. -/
def Node.entry (n : Node) : Entry := ⟨n.key, n.value, n.children.length⟩

namespace Entry

/-- The node of the entry, with its children taken off the front of the trees. -/
def attach? (e : Entry) (trees : List Node) : Option (List Node) :=
  if e.arity ≤ trees.length then
    some (⟨e.key, e.value, trees.take e.arity⟩ :: trees.drop e.arity)
  else none

/-- The trees whose nodes were written down, if the entries are those of whole trees. -/
def trees? : List Entry → Option (List Node)
  | [] => some []
  | e :: rest => (trees? rest).bind e.attach?

/-- The tree whose nodes were written down, if the entries are those of one tree. -/
def tree? (entries : List Entry) : Option Node :=
  match trees? entries with
  | some [n] => some n
  | _ => none

theorem attach?_eq_some_iff {e : Entry} {trees answered : List Node} :
    e.attach? trees = some answered ↔
      ∃ n rest, e = n.entry ∧ trees = n.children ++ rest ∧ answered = n :: rest := by
  constructor
  · intro h
    obtain ⟨key, value, arity⟩ := e
    rw [attach?] at h
    split at h
    · next hle =>
      cases h
      refine ⟨⟨key, value, trees.take arity⟩, trees.drop arity, ?_, ?_, rfl⟩
      · rw [Node.entry, List.length_take_of_le hle]
      · exact (List.take_append_drop arity trees).symm
    · cases h
  · rintro ⟨⟨key, value, children⟩, rest, rfl, rfl, rfl⟩
    simp [attach?, Node.entry]

mutual

/-- Entries of a tree in front of others put the tree in front of theirs. -/
theorem trees?_preOrder : ∀ (n : Node) (rest : List Entry),
    trees? (n.preOrder.map Node.entry ++ rest) = (trees? rest).map (n :: ·)
  | ⟨key, value, children⟩, rest => by
    -- read from the back, the children are complete when the entry of their parent comes
    rw [Node.preOrder, List.map_cons, List.cons_append, trees?, trees?_preOrderList children rest,
      Option.bind_map, Option.map_eq_bind]
    refine congrArg (Option.bind _) (funext fun trees => ?_)
    exact attach?_eq_some_iff.mpr ⟨⟨key, value, children⟩, trees, rfl, rfl, rfl⟩

theorem trees?_preOrderList : ∀ (nodes : List Node) (rest : List Entry),
    trees? ((Node.preOrderList nodes).map Node.entry ++ rest) = (trees? rest).map (nodes ++ ·)
  | [], rest => by simp
  | n :: nodes, rest => by
    rw [Node.preOrderList_cons, List.map_append, List.append_assoc, trees?_preOrder n,
      trees?_preOrderList nodes rest, Option.map_map]
    rfl

end

/-- Entries that make trees are those of the trees they make. -/
theorem eq_of_trees? {entries : List Entry} {trees : List Node} (h : trees? entries = some trees) :
    entries = (Node.preOrderList trees).map Node.entry := by
  induction entries generalizing trees with
  | nil =>
    cases h
    simp
  | cons e rest ih =>
    obtain ⟨below, hrest, hattach⟩ := Option.bind_eq_some_iff.mp h
    obtain ⟨n, others, rfl, rfl, rfl⟩ := attach?_eq_some_iff.mp hattach
    rw [ih hrest, Node.preOrderList_cons, Node.preOrder_eq, Node.preOrderList_append, List.cons_append,
      List.map_cons]

theorem tree?_eq_some_iff {entries : List Entry} {n : Node} :
    tree? entries = some n ↔ entries = n.preOrder.map Node.entry := by
  constructor
  · intro h
    rw [tree?] at h
    split at h
    · next m htrees =>
      cases h
      rw [eq_of_trees? htrees, Node.preOrderList_cons, Node.preOrderList_nil, List.append_nil]
    · cases h
  · rintro rfl
    have htrees := trees?_preOrder n []
    rw [List.append_nil, trees?, Option.map_some] at htrees
    rw [tree?, htrees]

/-- The same keys and bytes in the same order, and two trees: the counts tell them apart. -/
example :
    tree? [⟨"a", [1], 2⟩, ⟨"b", [1], 0⟩, ⟨"c", [], 0⟩] =
        some ⟨"a", [1], [.leaf "b" [1], .leaf "c" []]⟩ ∧
      tree? [⟨"a", [1], 1⟩, ⟨"b", [1], 1⟩, ⟨"c", [], 0⟩] =
        some ⟨"a", [1], [⟨"b", [1], [.leaf "c" []]⟩]⟩ := by decide

end Entry

namespace Node

/-- **The walk.**  Call after call it answers the nodes of the pre-order, and after as many calls as the
tree has nodes, not before, it is at its end; collected, its nodes are the pre-order.  The search for a
key answers the first of them that has the key, and nothing just when no node of the tree has it.  The
keys, bytes and numbers of children that are written down on the walk give back this tree and no other. -/
theorem walk_preOrder (n : Node) :
    (∀ k, (n.walk.after k).next?.map Prod.fst = n.preOrder[k]?) ∧
      (∀ k, (n.walk.after k).next? = none ↔ n.size ≤ k) ∧
      n.walk.toList = n.preOrder ∧
      (∀ key m, n.find? key = some m ↔
        m.key = key ∧
          ∃ before behind, n.preOrder = before ++ m :: behind ∧ ∀ b ∈ before, b.key ≠ key) ∧
      (∀ key, n.find? key = none ↔ ¬ ∃ m, n.Part m ∧ m.key = key) ∧
      (∀ entries, Entry.tree? entries = some n ↔ entries = n.walk.toList.map entry) ∧
      ∀ n' : Node, n.walk.toList.map entry = n'.walk.toList.map entry ↔ n = n' := by
  have hnext (k : Nat) : (n.walk.after k).next?.map Prod.fst = n.preOrder[k]? := by
    rw [Walk.next?_after, pending_walk]
  refine ⟨hnext, fun k => ?_, n.toList_walk, fun key m => ?_, fun key => ?_, fun entries => ?_,
    fun n' => ⟨fun h => ?_, fun h => by rw [h]⟩⟩
  · rw [← Option.map_eq_none_iff, hnext, List.getElem?_eq_none_iff, length_preOrder]
  · simp [find?, toList_walk, List.find?_eq_some_iff_append]
  · simp [find?, toList_walk, mem_preOrder_iff]
  · rw [toList_walk, Entry.tree?_eq_some_iff]
  · -- both trees are what the same entries give back
    rw [toList_walk, toList_walk] at h
    have htree := Entry.tree?_eq_some_iff.mpr h
    rw [Entry.tree?_eq_some_iff.mpr rfl] at htree
    exact Option.some.inj htree

end Node

end Abnf.Tree
