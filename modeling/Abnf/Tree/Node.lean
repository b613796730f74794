import Abnf.Text.Layout
import Abnf.Text.Quoted
import Abnf.Text.Utf8

/-!
# Abnf.Tree.Node — parse trees

A node records that the rule called `key` matched the bytes `value`; its children record the matches
of the sub-rules that it was made of, in input order.
-/

namespace Abnf.Tree

/-- A parse tree. -/
structure Node where
  /-- The name of the rule. -/
  key : String
  /-- The bytes it matched. -/
  value : List UInt8
  /-- The matches of its sub-rules. -/
  children : List Node
  deriving Repr

namespace Node

mutual

/-- Decides whether two trees are the same. -/
protected def decEq : (a b : Node) → Decidable (a = b)
  | ⟨key, value, children⟩, ⟨key', value', children'⟩ =>
    if hk : key = key' then
      if hv : value = value' then
        match Node.decEqList children children' with
        | isTrue hc => isTrue (by rw [hk, hv, hc])
        | isFalse hc => isFalse fun h => hc (Node.mk.inj h).2.2
      else isFalse fun h => hv (Node.mk.inj h).2.1
    else isFalse fun h => hk (Node.mk.inj h).1

/-- Decides whether two lists of trees are the same. -/
protected def decEqList : (as bs : List Node) → Decidable (as = bs)
  | [], [] => isTrue rfl
  | [], _ :: _ => isFalse nofun
  | _ :: _, [] => isFalse nofun
  | a :: as, b :: bs =>
    match Node.decEq a b, Node.decEqList as bs with
    | isTrue ha, isTrue hs => isTrue (by rw [ha, hs])
    | isFalse ha, _ => isFalse fun h => ha (List.cons.inj h).1
    | _, isFalse hs => isFalse fun h => hs (List.cons.inj h).2

end

instance : DecidableEq Node := Node.decEq

/-- A node without children. -/
def leaf (key : String) (value : List UInt8) : Node := ⟨key, value, []⟩

/-- The number of bytes matched. -/
def length (n : Node) : Nat := n.value.length

/-- The number of bytes that several nodes match one after another. -/
def lengthList : List Node → Nat
  | [] => 0
  | n :: rest => n.length + lengthList rest

/-- Whether no byte was matched. -/
def isEmpty (n : Node) : Bool := n.value.isEmpty

/-- The bytes matched, as text. -/
def text (n : Node) : String := Text.Utf8.decodeLossy n.value

@[simp] theorem isEmpty_iff (n : Node) : n.isEmpty = true ↔ n.length = 0 := by
  simp [isEmpty, length]

mutual

/-- The number of nodes of a tree. -/
def size : Node → Nat
  | ⟨_, _, children⟩ => sizeList children + 1

/-- The number of nodes of several trees. -/
def sizeList : List Node → Nat
  | [] => 0
  | n :: rest => n.size + sizeList rest

end

theorem size_eq (n : Node) : n.size = sizeList n.children + 1 := by
  cases n
  rw [size]

@[simp] theorem sizeList_nil : sizeList [] = 0 := by rw [sizeList]

@[simp] theorem sizeList_cons (n : Node) (rest : List Node) :
    sizeList (n :: rest) = n.size + sizeList rest := by rw [sizeList]

@[simp] theorem sizeList_append (as bs : List Node) :
    sizeList (as ++ bs) = sizeList as + sizeList bs := by
  induction as with
  | nil => simp
  | cons a as ih => simp [ih, Nat.add_assoc]

mutual

/-- The node's key, text, and children if it has any. -/
def layout : Node → Text.Layout
  | ⟨key, value, children⟩ =>
    let fields :=
      [("key", .atom (Text.Quoted.ofString key)),
        ("value", .atom (Text.Quoted.ofString (Text.Utf8.decodeLossy value)))]
    match children with
    | [] => .record "Node" fields false
    | child :: rest =>
      .record "Node" (fields ++ [("children", .list (layout child :: layoutList rest))]) false

/-- The layouts of several nodes. -/
def layoutList : List Node → List Text.Layout
  | [] => []
  | n :: rest => layout n :: layoutList rest

end

end Node

end Abnf.Tree
