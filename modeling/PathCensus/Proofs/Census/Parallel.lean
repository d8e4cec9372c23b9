import PathCensus.Proofs.Census.Merging
import PathCensus.Proofs.Census.Profile

/-!
# Counting trees in parallel

Trees that are counted for themselves, each under its own id, can be merged in any order and in any
grouping, with empty censuses anywhere in between. The outcome has the counts of the census to which
the trees were added in turn, and differs from it at most in the order of children.
-/

namespace PathCensus.Census

/-- In whatever order and grouping the censuses of single trees are merged, and wherever empty
censuses come in, there are as many trees as were counted, and the same paths lead somewhere, with
the same counts at their ends, as if the trees had been added in turn. Merging half by half is one
of these groupings. -/
theorem merged_parts_exact {V : Type} {trees : List (Node V)} {parts : List Census}
    {census : Census} (hparts : parts.Perm (trees.mapIdx ofTree)) (h : Combined parts census) :
    census.treeCount = trees.length ∧
      (∀ labels, (census.find? labels).map Node.value =
        ((empty.addTrees trees).find? labels).map Node.value) ∧
      census.profile = (empty.addTrees trees).profile ∧
      Combined (trees.mapIdx ofTree) (ofParts trees) := by
  obtain ⟨hwell, hagrees⟩ := h.agrees hparts
  have hempty : Reachable .trees empty := .ofTreeCount 0
  have hadded := (reachable_addTrees hempty trees).wellFormed
  have hcount : (empty.addTrees trees).treeCount = trees.length := by
    rw [treeCount_addTrees]
    exact Nat.zero_add _
  exact ⟨hagrees.treeCount.trans hcount, hagrees.map_value_find? hwell hadded,
    hagrees.profile_eq hwell hadded, combined_mergeHalves _⟩

/-- A tree in which C follows A. -/
def forkTree : Tree :=
  ⟨Node.rootLabel, none, .sequence, [⟨"A", none, .sequence, [.leaf "C" none .sequence]⟩]⟩

/-- Three trees, merged from the last to the first, with an empty census on either side. -/
theorem merged_parts_exact_reversed :
    ((empty.merge ((ofTree 2 loopTree).merge (ofTree 1 forkTree))).merge
          ((ofTree 0 loopTree).merge empty)).profile =
        (empty.addTrees [loopTree, forkTree, loopTree]).profile ∧
      (((empty.merge ((ofTree 2 loopTree).merge (ofTree 1 forkTree))).merge
          ((ofTree 0 loopTree).merge empty)).find? ["A"]).map Node.value =
        some (Counts.ofList [(0, 2), (1, 1), (2, 2)]) := by
  have hperm : [ofTree 2 loopTree, ofTree 1 forkTree, ofTree 0 loopTree].Perm
      ([loopTree, forkTree, loopTree].mapIdx ofTree) :=
    List.reverse_perm ([loopTree, forkTree, loopTree].mapIdx ofTree)
  have hcombined : Combined [ofTree 2 loopTree, ofTree 1 forkTree, ofTree 0 loopTree]
      ((empty.merge ((ofTree 2 loopTree).merge (ofTree 1 forkTree))).merge
        ((ofTree 0 loopTree).merge empty)) :=
    .merge (.merge .nil (.merge (.single _) (.single _))) (.merge (.single _) .nil)
  obtain ⟨-, hcounts, hprofile, -⟩ := merged_parts_exact hperm hcombined
  have hadded : ((empty.addTrees [loopTree, forkTree, loopTree]).find? ["A"]).map Node.value =
      some (Counts.ofList [(0, 2), (1, 1), (2, 2)]) := by decide +kernel
  exact ⟨hprofile, (hcounts ["A"]).trans hadded⟩

end PathCensus.Census
