import PathCensus.Tree.Node

/-!
# Depth-first walks

A walk keeps a stack of nodes to visit. It takes the top one and puts the children of that node on
the stack, in their order of traversal, so that the last of them is visited next.
-/

namespace PathCensus

/-- A node met by a walk, and how deep below the start it lies. -/
structure Visit (V : Type) where
  /-- The number of steps from a node where the walk started. -/
  depth : Nat
  /-- The node that is met. -/
  node : Node V

namespace Visit

variable {V : Type}

/-- The visits that a visit puts on the stack, the top first. -/
def next (visit : Visit V) : List (Visit V) :=
  visit.node.adjacent.reverse.map fun child => ⟨visit.depth + 1, child⟩

/-- The number of nodes still to be met from a stack. -/
def pending (stack : List (Visit V)) : Nat :=
  sumBy (fun visit => visit.node.size) stack

/-- A visit leaves one node less to be met. -/
theorem pending_next (visit : Visit V) : pending visit.next + 1 = visit.node.size := by
  have h : sumBy Node.size visit.node.adjacent = sumBy Node.size visit.node.children := by
    cases hl : visit.node.layout <;> simp [Node.adjacent, hl]
  simp [pending, next, Node.size_eq visit.node, h]

/-- The visits from a stack on, in order. -/
def walk : List (Visit V) → List (Visit V)
  | [] => []
  | visit :: stack => visit :: walk (visit.next ++ stack)
termination_by stack => pending stack
decreasing_by
  have h := pending_next visit
  simp only [pending, sumBy_append, sumBy_cons] at *
  omega

end Visit

namespace Node

variable {V : Type}

/-- The walk from several nodes; the last of them is visited first. -/
def walkFrom (seeds : List (Node V)) : List (Visit V) :=
  Visit.walk (seeds.reverse.map fun node => ⟨0, node⟩)

/-- The walk through all that is below a node. -/
def walk (node : Node V) : List (Visit V) :=
  walkFrom node.adjacent

end Node

end PathCensus
