import PathCensus.Proofs.Tree.Routes

/-!
# Leaves

Every node has a leaf at or below it: a leaf has itself, and any other node has the leaves of its
children. There is one way down from a node to each of its leaves.
-/

namespace PathCensus.Node

variable {V : Type}

/-- The number of leaves at or below a node. -/
def leafCount (node : Node V) : Nat :=
  node.fold fun node below => if node.isLeaf then 1 else sumBy id below

theorem leafCount_eq (node : Node V) :
    node.leafCount = if node.isLeaf then 1 else sumBy leafCount node.children := by
  rw [leafCount, fold_eq, sumBy_map, ← sumBy_visited]
  rfl

/-- There is a leaf at or below every node. -/
theorem leafCount_pos (node : Node V) : 0 < node.leafCount := by
  induction node using inductionOn with
  | step node ih =>
    rw [leafCount_eq]
    cases hc : node.children with
    | nil => simp [isLeaf, hc]
    | cons c rest =>
      have hpos := ih c (by rw [hc]; exact List.mem_cons_self)
      rw [if_neg (by simp [isLeaf, hc]), sumBy_cons]
      exact Nat.add_pos_left hpos _

/-- What is left of the ways from a node to its leaves behind the node itself. -/
def leafRoutesBelow (node : Node V) : List (List (Node V)) :=
  if node.isLeaf then [[]] else node.visited.flatMap leafRoutes

theorem leafRoutes_eq_map (node : Node V) :
    node.leafRoutes = node.leafRoutesBelow.map (node :: ·) := by
  rw [leafRoutes_eq, leafRoutesBelow]
  split <;> rfl

/-- There is one way to each leaf. -/
theorem length_leafRoutes (node : Node V) : node.leafRoutes.length = node.leafCount := by
  induction node using inductionOn with
  | step node ih =>
    rw [leafRoutes_eq, leafCount_eq]
    split
    · rfl
    · have hchildren : sumBy (fun c => c.leafRoutes.length) node.visited =
          sumBy leafCount node.visited :=
        sumBy_congr fun c hc => ih c (mem_visited.1 hc)
      rw [List.length_map, length_flatMap, hchildren, sumBy_visited]

theorem length_leafRoutesBelow (node : Node V) :
    node.leafRoutesBelow.length = node.leafCount := by
  rw [← length_leafRoutes, leafRoutes_eq_map, List.length_map]

end PathCensus.Node
