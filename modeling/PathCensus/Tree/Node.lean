import PathCensus.Sum
import PathCensus.Tree.Replacing

/-!
# Labelled trees

A node has a label, a value and children. Its layout says how the children are kept: a sequence
holds them in order and may repeat labels, a keyed node has one child per label. Trees and censuses
are both made of these nodes and differ in their values.
-/

namespace PathCensus

/-- How a node keeps its children. -/
inductive Layout where
  /-- In order, labels may repeat. -/
  | sequence
  /-- One child per label. -/
  | keyed
  deriving DecidableEq, Repr

/-- A node and all that is below it. -/
structure Node (V : Type) where
  /-- What the node is called. -/
  label : String
  /-- What the node carries. -/
  value : V
  /-- How the children are kept. -/
  layout : Layout
  /-- The children in the order in which their places were first taken. -/
  children : List (Node V)

/-- A parse tree: the text of a node, if it has any. -/
abbrev Tree := Node (Option String)

namespace Node

variable {V : Type}

mutual

/-- Two nodes are equal if they agree in label, value, layout and, in order, in their children. -/
def decEq [DecidableEq V] : (a b : Node V) → Decidable (a = b)
  | ⟨l, v, k, cs⟩, ⟨l', v', k', cs'⟩ =>
    if h : l = l' ∧ v = v' ∧ k = k' then
      match decEqForest cs cs' with
      | isTrue hc => isTrue (by obtain ⟨rfl, rfl, rfl⟩ := h; rw [hc])
      | isFalse hc => isFalse fun he => hc (by injection he)
    else isFalse fun he => h (by injection he; exact ⟨‹_›, ‹_›, ‹_›⟩)

/-- Equality of lists of nodes, one by one. -/
def decEqForest [DecidableEq V] : (as bs : List (Node V)) → Decidable (as = bs)
  | [], [] => isTrue rfl
  | [], _ :: _ => isFalse nofun
  | _ :: _, [] => isFalse nofun
  | a :: as, b :: bs =>
    match decEq a b with
    | isFalse h => isFalse fun he => h (by injection he)
    | isTrue h =>
      match decEqForest as bs with
      | isTrue hs => isTrue (by rw [h, hs])
      | isFalse hs => isFalse fun he => hs (by injection he)

end

instance [DecidableEq V] : DecidableEq (Node V) := decEq

mutual

/-- The number of nodes, the node itself included. -/
def size : Node V → Nat
  | ⟨_, _, _, children⟩ => forestSize children + 1

/-- The number of nodes of several trees. -/
def forestSize : List (Node V) → Nat
  | [] => 0
  | node :: rest => node.size + forestSize rest

end

/-- The size of several trees is the sum of their sizes. -/
theorem forestSize_eq_sum (nodes : List (Node V)) : forestSize nodes = sumBy size nodes := by
  induction nodes with
  | nil => simp [forestSize]
  | cons node rest ih => simp [forestSize, ih]

/-- A node is one more than what is below it. -/
theorem size_eq (node : Node V) : node.size = sumBy size node.children + 1 := by
  cases node
  rw [size, forestSize_eq_sum]

/-- The label of the root of every tree and of every census. -/
def rootLabel : String := "head"

/-- A node without children. -/
def leaf (label : String) (value : V) (layout : Layout) : Node V :=
  ⟨label, value, layout, []⟩

/-- A root without children. -/
def root (value : V) (layout : Layout) : Node V :=
  leaf rootLabel value layout

/-- The node has no children. -/
def isLeaf (node : Node V) : Bool :=
  node.children.isEmpty

/-- The children from the first to the last in the order of traversal: the last stored comes first
in a sequence, the first stored in a keyed node. -/
def adjacent (node : Node V) : List (Node V) :=
  match node.layout with
  | .sequence => node.children.reverse
  | .keyed => node.children

/-- The place of the first child with a label. -/
def place? (node : Node V) (label : String) : Option Nat :=
  Replacing.place? Node.label label node.children

/-- The first child with a label. -/
def child? (node : Node V) (label : String) : Option (Node V) :=
  node.children.find? fun c => c.label = label

/-- Add a child: at the end of a sequence; in a keyed node in place of a child with its label, or
at the end if there is none. -/
def push (node : Node V) (child : Node V) : Node V :=
  match node.layout with
  | .sequence => { node with children := node.children ++ [child] }
  | .keyed => { node with children := Replacing.put Node.label node.children child }

/-- The place that a child takes when it is added. -/
def pushPlace (node : Node V) (child : Node V) : Nat :=
  match node.layout with
  | .sequence => node.children.length
  | .keyed => (node.place? child.label).getD node.children.length

/-- Make sure that there is a child with a label, adding `fresh` if there is none; the place of the
child comes with the node. -/
def ensureChild (node : Node V) (label : String) (fresh : Node V) : Nat × Node V :=
  match node.place? label with
  | some i => (i, node)
  | none => (node.pushPlace fresh, node.push fresh)

/-- Change the child with a label, which is `fresh` if there is none. -/
def alterChild (node : Node V) (label : String) (fresh : Node V) (f : Node V → Node V) : Node V :=
  let (i, node) := node.ensureChild label fresh
  { node with children := node.children.modify i f }

/-- The node that is reached from this one along labels. -/
def descend? (node : Node V) : List String → Option (Node V)
  | [] => some node
  | label :: path => (node.child? label).bind fun c => c.descend? path

/-- The node at an address: the places of the children to go through. -/
def at? (node : Node V) : List Nat → Option (Node V)
  | [] => some node
  | i :: address => node.children[i]?.bind fun c => c.at? address

/-- Change the node at an address. -/
def modifyAt (f : Node V → Node V) : List Nat → Node V → Node V
  | [], node => f node
  | i :: address, node => { node with children := node.children.modify i (modifyAt f address) }

end Node

end PathCensus
