import PathCensus.Tree.Walk

/-!
# Topmost nodes with a label

A search that walks like a depth-first walk but does not go below a node it has found.
-/

namespace PathCensus.Node

variable {V : Type}

/-- The nodes with a label that a search from a stack finds, the top of the stack first. -/
def topmostFrom (label : String) : List (Node V) → List (Node V)
  | [] => []
  | node :: stack =>
    if node.label = label then node :: topmostFrom label stack
    else topmostFrom label (node.adjacent.reverse ++ stack)
termination_by stack => sumBy size stack
decreasing_by
  · have := size_eq node
    simp only [sumBy_cons]
    omega
  · have h : sumBy size node.adjacent = sumBy size node.children := by
      cases hl : node.layout <;> simp [adjacent, hl]
    have := size_eq node
    simp only [sumBy_append, sumBy_reverse, sumBy_cons, h]
    omega

/-- The nodes below this one that have a label no node between has. -/
def topmost (node : Node V) (label : String) : List (Node V) :=
  topmostFrom label node.adjacent.reverse

end PathCensus.Node
