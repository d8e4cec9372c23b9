import PathCensus.Proofs.Census.Counters
import PathCensus.Proofs.Census.Multiplicities
import PathCensus.Proofs.Tree.Extent
import PathCensus.Proofs.Tree.Splitting

/-!
# Limits of counting

A path is split at least two times less often than it has labels, so below a root with `N` nodes
there are at most `N * N` canonical paths, and no counter of a new tree goes beyond that. Counting
with counters of 64 bits is therefore counting as such for every tree of fewer than `2 ^ 32` nodes,
as long as there is an id left for it and for the number of trees.
-/

namespace PathCensus.Census

/-- If there is an id left and the canonical paths of a tree are not too many, it is added. -/
theorem WellFormed.addTreeWith?_eq_some {census : Census} (h : census.WellFormed) {V : Type}
    {tree : Node V} (hids : census.treeCount + 1 < counterLimit)
    (hfew : tree.canonicalPaths.length < counterLimit) (counters : Counters) :
    census.addTreeWith? counters tree = some (census.addTree tree).2 := by
  have hroom : ({ census with treeCount := census.treeCount + 1 } : Census).HasRoomFor
      (tree.canonicalPaths.map (onceAlong census.treeCount)) := by
    intro labels hne
    rw [shares_onceAlong hne]
    intro other hother
    have hsame : other = census.treeCount := by
      by_contra hdiffers
      rw [bind_count?_tally, if_neg fun hboth => hdiffers hboth.1] at hother
      cases hother
    have hold : countIn (census.countsAt? labels) other = 0 :=
      h.countIn_countsAt?_of_le (Nat.le_of_eq hsame.symm) labels
    have hnew : countIn (tally census.treeCount
        (tree.canonicalPaths.countP fun path => labels <+: path)) other ≤
          tree.canonicalPaths.length := by
      rw [countIn_tally, if_pos hsame]
      exact List.countP_le_length
    change countIn (census.countsAt? labels) other + _ < _
    omega
  rw [addTreeWith?, counters.hold?_of_lt hids, Option.bind_some, addTree_eq,
    ← foldlM_putWith?_of_hasRoomFor hroom, List.foldlM_map]
  rfl

/-- No counter of a tree that was added goes beyond the number of its canonical paths. -/
theorem WellFormed.everywhere_get_addTree_le {census : Census} (h : census.WellFormed) {V : Type}
    (tree : Node V) : (census.addTree tree).2.root.Everywhere fun node =>
      node.value.get census.treeCount ≤ tree.canonicalPaths.length := by
  have hafter := h.addTree tree
  refine .intro ?_ (Node.everywhere_below_of_chains fun above node hc => ?_)
  · rw [hafter.root_value]
    exact Nat.zero_le _
  · have hne : Node.labels (above ++ [node]) ≠ [] := Node.labels_ne_nil_of_mem_chains hc
    have hcount := h.countIn_countsAt?_addTree tree hne
    rw [countsAt?_eq, find?, hafter.keyed.descend?_of_append_mem_chains hc, Option.map_some,
      countIn_some] at hcount
    rw [hcount]
    exact tree.prefixCount_le _

/-- A tree with one node below its root. -/
def singleTree : Tree :=
  ⟨Node.rootLabel, none, .sequence, [.leaf "A" none .sequence]⟩

end PathCensus.Census
