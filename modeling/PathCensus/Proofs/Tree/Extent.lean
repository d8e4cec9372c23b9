import PathCensus.Proofs.Tree.Canonical
import PathCensus.Proofs.Tree.Literals
import PathCensus.Proofs.Tree.Reaching
import PathCensus.Proofs.Tree.Replacing

/-!
# The extent of a tree

The extent of a tree is the length of the ways down to all of its nodes together. A tree has no more
canonical paths than that. Renaming literals makes the extent no greater, and a tree that is built
from nodes with depths has at most the extent of these.
-/

namespace PathCensus

variable {V : Type}

/-! ## Items with one place per key -/

namespace Replacing

variable {α κ : Type} [DecidableEq κ]

theorem sumBy_put_le (keyOf : α → κ) (f : α → Nat) (items : List α) (item : α) :
    sumBy f (put keyOf items item) ≤ sumBy f items + f item := by
  unfold put
  split
  · exact sumBy_set_le f items _ item
  · rw [sumBy_append, sumBy_cons, sumBy_nil]
    omega

/-- Items that replace others leave at most the sum of all. -/
theorem sumBy_ofList_le (keyOf : α → κ) (f : α → Nat) (items : List α) :
    sumBy f (ofList keyOf items) ≤ sumBy f items := by
  induction items using List.reverseRecOn with
  | nil => exact Nat.le_refl _
  | append_singleton items item ih =>
    have hput := sumBy_put_le keyOf f (ofList keyOf items) item
    rw [ofList_concat, sumBy_append, sumBy_cons, sumBy_nil]
    omega

end Replacing

namespace Node

/-- The length of the ways down to a node at some depth and to all that is below it. -/
def extent (depth : Nat) (node : Node V) : Nat :=
  sumBy (fun visit => visit.depth + 1) (node.preorder depth)

/-- The length of the ways from the children of a node down to all that is below it. -/
def extentBelow (node : Node V) : Nat :=
  sumBy (extent 0) node.children

/-- A node adds its own way to what is below it. -/
theorem extent_eq (depth : Nat) (node : Node V) :
    node.extent depth = depth + 1 + sumBy (extent (depth + 1)) node.children := by
  rw [extent, preorder_eq, sumBy_cons, sumBy_flatMap, ← sumBy_visited]
  rfl

@[simp] theorem extent_leaf (depth : Nat) (label : String) (value : V) (layout : Layout) :
    (leaf label value layout).extent depth = depth + 1 := by
  rw [extent_eq]
  rfl

/-- Every node is counted once, and no way down is longer than the number of nodes. -/
theorem extent_le (depth : Nat) (node : Node V) :
    node.extent depth ≤ node.size * (depth + node.size) := by
  induction node using inductionOn generalizing depth with
  | step node ih =>
    have hchildren : ∀ c ∈ node.children,
        c.extent (depth + 1) ≤ (depth + node.size) * c.size := by
      intro c hc
      have hlt := size_lt_of_mem hc
      rw [Nat.mul_comm]
      exact Nat.le_trans (ih c hc (depth + 1)) (Nat.mul_le_mul_left _ (by omega))
    have hsize := size_eq node
    calc
      node.extent depth
        = depth + 1 + sumBy (extent (depth + 1)) node.children := extent_eq depth node
      _ ≤ depth + 1 + sumBy (fun c => (depth + node.size) * c.size) node.children :=
        Nat.add_le_add_left (sumBy_mono hchildren) _
      _ = depth + 1 + (depth + node.size) * sumBy size node.children := by rw [sumBy_mul]
      _ ≤ (depth + node.size) * (sumBy size node.children + 1) := by
        rw [Nat.mul_succ]
        omega
      _ = node.size * (depth + node.size) := by rw [← hsize, Nat.mul_comm]

/-- Below a root of `N` nodes, the ways down are together no longer than `N` times `N`. -/
theorem extentBelow_le (node : Node V) :
    node.extentBelow ≤ forestSize node.children * forestSize node.children := by
  have hchild : ∀ c ∈ node.children, c.extent 0 ≤ forestSize node.children * c.size := by
    intro c hc
    have hle : c.size ≤ forestSize node.children := by
      rw [forestSize_eq_sum]
      exact le_sumBy size hc
    calc
      c.extent 0
        ≤ c.size * (0 + c.size) := extent_le 0 c
      _ = c.size * c.size := by rw [Nat.zero_add]
      _ ≤ forestSize node.children * c.size := Nat.mul_le_mul_right _ hle
  calc
    node.extentBelow
      ≤ sumBy (fun c => forestSize node.children * c.size) node.children := sumBy_mono hchild
    _ = forestSize node.children * forestSize node.children := by
      rw [sumBy_mul, ← forestSize_eq_sum]

/-- One more child adds at most its own extent. -/
theorem sumBy_children_push_le (f : Node V → Nat) (node child : Node V) :
    sumBy f (node.push child).children ≤ sumBy f node.children + f child := by
  unfold push
  split
  · rw [sumBy_append, sumBy_cons, sumBy_nil]
    omega
  · exact Replacing.sumBy_put_le label f node.children child

/-! ## Canonical paths -/

/-- A chain is at most as long as the way to its visit. -/
theorem sumBy_length_chains_le (buffer : List (Node V)) (visits : List (Visit V)) :
    sumBy List.length (Visit.chains buffer visits) ≤ sumBy (fun visit => visit.depth + 1) visits := by
  induction visits generalizing buffer with
  | nil => exact Nat.le_refl 0
  | cons visit rest ih =>
    have hrest := ih (buffer.take visit.depth ++ [visit.node])
    have htake := List.length_take_le visit.depth buffer
    rw [Visit.chains, sumBy_cons, sumBy_cons, List.length_append, List.length_singleton]
    omega

/-- A tree has at most as many canonical paths as its ways down are long together. -/
theorem length_canonicalPaths_le (node : Node V) :
    node.canonicalPaths.length ≤ node.extentBelow := by
  have hpaths : ∀ chain ∈ node.completePaths,
      (Canonical.paths (labels chain)).length ≤ chain.length := by
    intro chain hc
    have hne := labels_ne_nil_of_mem_chains (mem_completePaths_iff.1 hc).1
    have hle := Canonical.length_paths_le hne
    rwa [labels, List.length_map] at hle
  have hwalk : sumBy (fun visit => visit.depth + 1) node.walk = node.extentBelow := by
    rw [walk_eq, sumBy_flatMap, sumBy_visited]
    rfl
  calc
    node.canonicalPaths.length
      = sumBy (fun chain => (Canonical.paths (labels chain)).length) node.completePaths := by
        rw [canonicalPaths, length_flatMap]
    _ ≤ sumBy List.length node.completePaths := sumBy_mono hpaths
    _ ≤ sumBy List.length node.chains := sumBy_filter_le _ _ _
    _ ≤ sumBy (fun visit => visit.depth + 1) node.walk := sumBy_length_chains_le _ _
    _ = node.extentBelow := hwalk

end Node

/-! ## Renaming literals -/

namespace Literals

@[simp] theorem extent_rename (depth : Nat) (node : Tree) :
    (rename node).extent depth = node.extent depth := by
  unfold rename
  split
  · rw [Node.extent_eq, Node.extent_eq]
  · rfl

/-- Literals that share a place are left out of the sum but for the last. -/
theorem sumBy_children_normalize_le (f : Tree → Nat) (node : Tree) :
    sumBy f (normalize node).2.children ≤
      sumBy (fun child => f (rename (normalize child).2)) node.children := by
  have hsettle : sumBy (fun c => f c.2) (settle node.layout (normalizeEach node.children)) ≤
      sumBy (fun c => f c.2) (normalizeEach node.children) := by
    cases node.layout with
    | sequence => exact Nat.le_refl _
    | keyed => exact Replacing.sumBy_ofList_le _ _ _
  rw [children_normalize, sumBy_map]
  rwa [normalizeEach_eq, sumBy_map, ← normalizeEach_eq] at hsettle

theorem extent_normalize_le (depth : Nat) (node : Tree) :
    (normalize node).2.extent depth ≤ node.extent depth := by
  induction node using Node.inductionOn generalizing depth with
  | step node ih =>
    have hchildren := sumBy_children_normalize_le (Node.extent (depth + 1)) node
    simp only [extent_rename] at hchildren
    have hbelow : sumBy (fun c => (normalize c).2.extent (depth + 1)) node.children ≤
        sumBy (Node.extent (depth + 1)) node.children :=
      sumBy_mono fun c hc => ih c hc (depth + 1)
    rw [Node.extent_eq, Node.extent_eq]
    omega

/-- Renaming literals makes the extent no greater. -/
theorem extentBelow_normalize_le (node : Tree) :
    (normalize node).2.extentBelow ≤ node.extentBelow := by
  have hchildren := sumBy_children_normalize_le (Node.extent 0) node
  simp only [extent_rename] at hchildren
  exact Nat.le_trans hchildren (sumBy_mono fun c _ => extent_normalize_le 0 c)

end Literals

/-! ## Building -/

namespace Builder

/-- The extent of open nodes with what is closed below them. -/
def openExtent : List (Node V) → Nat
  | [] => 0
  | node :: above => node.extent above.length + openExtent above

/-- The extent of all that was built. -/
def extent (builder : Builder V) : Nat :=
  builder.root.extentBelow + openExtent builder.branch

theorem extent_closeOne_le (builder : Builder V) : builder.closeOne.extent ≤ builder.extent := by
  obtain ⟨root, branch, accepted⟩ := builder
  match branch with
  | [] => exact Nat.le_refl _
  | [node] =>
    have hpush := Node.sumBy_children_push_le (Node.extent 0) root node
    simp only [closeOne, extent, openExtent, Node.extentBelow, List.length_nil]
    omega
  | node :: parent :: above =>
    have hpush := Node.sumBy_children_push_le (Node.extent (above.length + 1)) parent node
    have hparent := Node.extent_eq above.length parent
    have hpushed := Node.extent_eq above.length (parent.push node)
    simp only [closeOne, extent, openExtent, List.length_cons]
    omega

theorem extent_close_le (n : Nat) (builder : Builder V) :
    (builder.close n).extent ≤ builder.extent := by
  induction n generalizing builder with
  | zero => exact Nat.le_refl _
  | succ n ih => exact Nat.le_trans (ih builder.closeOne) (extent_closeOne_le builder)

/-- A node without children adds the way to its depth. -/
theorem extent_attach_le {builder : Builder V} {depth : Nat} (hd : depth ≤ builder.branch.length)
    (label : String) (value : V) (layout : Layout) :
    (builder.attach depth (.leaf label value layout)).extent ≤ builder.extent + (depth + 1) := by
  have hclosed : (builder.closeTo depth).extent ≤ builder.extent := extent_close_le _ builder
  have hlen := length_branch_closeTo hd
  simp only [attach, extent, openExtent, Node.extent_leaf, hlen] at hclosed ⊢
  omega

/-- The finished tree has at most the extent of all that was built. -/
theorem extentBelow_finish_le (builder : Builder V) :
    builder.finish.extentBelow ≤ builder.extent := by
  have hclose := extent_close_le builder.branch.length builder
  rw [extent] at hclose
  unfold finish
  omega

end Builder

end PathCensus
