import PathCensus.Proofs.Census.Querying
import PathCensus.Proofs.Tree.Bounds
import PathCensus.Proofs.Tree.Steps

/-!
# Productions of trees and of their census

A production leads from the label of a parent to the label of a child. A path leads somewhere in the
census of trees if it begins one of their canonical paths. So the complete paths of the census show
what the canonical paths of the trees show, and these show what the complete paths of the trees show:
the same labels, the same productions and the same first labels. Where a path goes on behind a loop it
does so from a node with the same label, so no production comes up that was not there.
-/

namespace PathCensus

/-- A place is counted if a canonical path of one of the trees passes it. -/
theorem isSome_tallies {V : Type} (labels : List String) (first : Nat) (trees : List (Node V)) :
    (tallies labels first trees).isSome ↔
      ∃ tree ∈ trees, ∃ path ∈ tree.canonicalPaths, labels <+: path := by
  induction trees generalizing first with
  | nil => simp [tallies]
  | cons tree rest ih => rw [tallies, isSome_join?, isSome_tally, ih, List.exists_mem_cons_iff]

namespace Census

variable {V : Type} {trees : List (Node V)}

/-- In the census of trees the beginnings of their canonical paths lead somewhere. -/
theorem isSome_find?_addTrees {labels : List String} (hne : labels ≠ []) :
    ((empty.addTrees trees).find? labels).isSome ↔
      ∃ tree ∈ trees, ∃ path ∈ tree.canonicalPaths, labels <+: path := by
  rw [← isSome_countsAt?, countsAt?_empty_addTrees trees hne, isSome_tallies]

/-- What splitting neither makes nor loses shows on complete paths of the census exactly if it shows
on complete paths of the trees. -/
theorem exists_completePath_iff {P : List String → Prop} (hp : Canonical.Persists P) :
    (∃ chain ∈ (empty.addTrees trees).root.completePaths, P (Node.labels chain)) ↔
      ∃ tree ∈ trees, ∃ chain ∈ tree.completePaths, P (Node.labels chain) := by
  have hempty : Reachable .trees empty := .ofTreeCount 0
  have hkeyed := (reachable_addTrees hempty trees).wellFormed.keyed
  constructor
  · rintro ⟨chain, hc, hshows⟩
    have hchain := (Node.mem_completePaths_iff.1 hc).1
    have hfound : ((empty.addTrees trees).find? (Node.labels chain)).isSome :=
      hkeyed.isSome_descend?_of_mem_chains hchain
    obtain ⟨tree, ht, path, hpath, hprefix⟩ :=
      (isSome_find?_addTrees (Node.labels_ne_nil_of_mem_chains hchain)).1 hfound
    obtain ⟨whole, hwhole, hpart⟩ := List.mem_flatMap.1 hpath
    exact ⟨tree, ht, whole, hwhole,
      (hp.exists_paths_iff (Node.labels whole)).1 ⟨path, hpart, hp.extend hprefix hshows⟩⟩
  · rintro ⟨tree, ht, whole, hwhole, hshows⟩
    obtain ⟨path, hpart, hshows⟩ := (hp.exists_paths_iff (Node.labels whole)).2 hshows
    have hpath : path ∈ tree.canonicalPaths := List.mem_flatMap.2 ⟨whole, hwhole, hpart⟩
    have hne := Node.ne_nil_of_mem_canonicalPaths hpath
    obtain ⟨node, hf⟩ := Option.isSome_iff_exists.1
      ((isSome_find?_addTrees hne).2 ⟨tree, ht, path, hpath, List.prefix_rfl⟩)
    obtain ⟨chain, hchain, rfl, hlast⟩ := Node.exists_chain_of_descend? hne hf
    obtain ⟨above, rfl⟩ := List.getLast?_eq_some_iff.1 hlast
    obtain ⟨more, hcomplete⟩ := Node.exists_completePath_of_chain hchain
    refine ⟨_, hcomplete, hp.extend ⟨Node.labels more, ?_⟩ hshows⟩
    simp [Node.labels]

/-- The census of trees has the productions of the trees and no others: the same labels have nodes
below the root, each with children of the same labels as in the trees, and the children of the root
have the labels of the children of the roots of the trees. The labels on complete paths, the labels
of nodes and the labels of parents are the same. -/
theorem productions_kept (trees : List (Node V)) :
    (Bounds.edgesOf [(empty.addTrees trees).root]).keys = (Bounds.edgesOf trees).keys ∧
      (∀ parent,
        ((Bounds.edgesOf [(empty.addTrees trees).root]).find? parent).map SortedTable.keys =
          ((Bounds.edgesOf trees).find? parent).map SortedTable.keys) ∧
      (Bounds.pathsOf trees).keys = (Bounds.edgesOf trees).keys ∧
      (Bounds.childrenOf trees).keys = (Bounds.edgesOf trees).keys ∧
      ∀ label, label ∈ Node.labels (empty.addTrees trees).root.children ↔
        ∃ tree ∈ trees, label ∈ Node.labels tree.children := by
  have hkeys : (Bounds.edgesOf [(empty.addTrees trees).root]).keys =
      (Bounds.edgesOf trees).keys := by
    refine SortedTable.keys_eq_of_mem_iff fun label => ?_
    simp only [Bounds.mem_keys_edgesOf, Node.exists_label_iff, List.mem_singleton, exists_eq_left]
    exact exists_completePath_iff (.mem label)
  refine ⟨hkeys, fun parent => ?_, ?_, ?_, fun label => ?_⟩
  · have hchildren : (((Bounds.edgesOf [(empty.addTrees trees).root]).find? parent).getD ∅).keys =
        (((Bounds.edgesOf trees).find? parent).getD ∅).keys := by
      refine SortedTable.keys_eq_of_mem_iff fun child => ?_
      simp only [Bounds.mem_keys_find?_edgesOf, Node.exists_edge_iff, List.mem_singleton,
        exists_eq_left]
      exact exists_completePath_iff (.step (parent, child))
    have hparent : ((Bounds.edgesOf [(empty.addTrees trees).root]).find? parent).isSome ↔
        ((Bounds.edgesOf trees).find? parent).isSome := by
      rw [← SortedTable.mem_keys_iff, hkeys, SortedTable.mem_keys_iff]
    revert hchildren hparent
    cases (Bounds.edgesOf [(empty.addTrees trees).root]).find? parent <;>
      cases (Bounds.edgesOf trees).find? parent <;> simp
  · refine SortedTable.keys_eq_of_mem_iff fun label => ?_
    simp only [Bounds.mem_keys_pathsOf, Bounds.mem_keys_edgesOf, Node.exists_label_iff]
  · refine SortedTable.keys_eq_of_mem_iff fun label => ?_
    rw [Bounds.mem_keys_childrenOf, Bounds.mem_keys_edgesOf]
  · simp only [Node.mem_labels_children_iff]
    exact exists_completePath_iff (.head label)

end Census

end PathCensus
