import PathCensus.Proofs.Tree.Leaves
import PathCensus.Proofs.Tree.Reaching
import PathCensus.Proofs.Tree.Splitting

/-!
# What complete paths show

Every chain goes on to a leaf, so the complete paths of a tree pass all its nodes. They show which
labels the tree has, which of them follow each other from a parent to a child, and which come first.
-/

namespace PathCensus.Node

variable {V : Type} {node : Node V} {label parent child : String}

/-- Every chain goes on to a leaf. -/
theorem exists_completePath_of_chain {above : List (Node V)} {m : Node V}
    (h : above ++ [m] ∈ node.chains) : ∃ more, above ++ m :: more ∈ node.completePaths := by
  have hpos : 0 < m.leafRoutes.length := by
    rw [length_leafRoutes]
    exact leafCount_pos m
  obtain ⟨route, hroute⟩ := List.exists_mem_of_length_pos hpos
  obtain ⟨hr, hleaf⟩ := List.mem_filter.1 hroute
  obtain ⟨more, rfl⟩ := exists_cons_of_mem_routes hr
  refine ⟨more, mem_completePaths_iff.2 ⟨append_mem_chains h hr, ?_⟩⟩
  rwa [endsAtLeaf, List.getLast?_append_of_ne_nil above (List.cons_ne_nil m more)]

/-- What holds at some node below another holds at some node on a complete path. -/
theorem exists_walk_iff_completePath (P : Node V → Prop) :
    (∃ visit ∈ node.walk, P visit.node) ↔ ∃ chain ∈ node.completePaths, ∃ m ∈ chain, P m := by
  rw [exists_walk_iff_chain]
  constructor
  · rintro ⟨above, m, hm, hp⟩
    obtain ⟨more, hc⟩ := exists_completePath_of_chain hm
    exact ⟨_, hc, m, List.mem_append_right above List.mem_cons_self, hp⟩
  · rintro ⟨chain, hc, m, hm, hp⟩
    obtain ⟨above, more, rfl⟩ := List.append_of_mem hm
    exact ⟨above, m, (mem_chains_of_append (mem_completePaths_iff.1 hc).1).1, hp⟩

/-- The labels of a tree are the labels on its complete paths. -/
theorem exists_label_iff :
    (∃ visit ∈ node.walk, visit.node.label = label) ↔
      ∃ chain ∈ node.completePaths, label ∈ labels chain := by
  rw [exists_walk_iff_completePath (fun m => m.label = label)]
  simp only [labels, List.mem_map]

/-- From parents to children a tree has the steps of its complete paths. -/
theorem exists_edge_iff :
    (∃ visit ∈ node.walk, visit.node.label = parent ∧ child ∈ labels visit.node.children) ↔
      ∃ chain ∈ node.completePaths, (parent, child) ∈ (labels chain).consecutivePairs := by
  rw [exists_walk_iff_chain (fun m => m.label = parent ∧ child ∈ labels m.children)]
  simp only [Canonical.mem_consecutivePairs_iff]
  constructor
  · rintro ⟨above, m, hm, rfl, hchild⟩
    obtain ⟨c, hc, rfl⟩ := List.mem_map.1 hchild
    obtain ⟨more, hpath⟩ := exists_completePath_of_chain (child_mem_chains hm hc)
    exact ⟨_, hpath, labels above, labels more, by simp [labels]⟩
  · rintro ⟨chain, hc, front, back, he⟩
    obtain ⟨above, rest, rfl, -, hrest⟩ := List.map_eq_append_iff.1 he
    obtain ⟨m, below, rfl, rfl, hbelow⟩ := List.map_eq_cons_iff.1 hrest
    obtain ⟨c, more, rfl, rfl, -⟩ := List.map_eq_cons_iff.1 hbelow
    obtain ⟨hm, hroute⟩ := mem_chains_of_append (mem_completePaths_iff.1 hc).1
    refine ⟨above, m, hm, rfl, ?_⟩
    rcases mem_routes_iff.1 hroute with hend | ⟨d, hd, rest, hrest, hgoes⟩
    · simp at hend
    · obtain ⟨next, rfl⟩ := exists_cons_of_mem_routes hrest
      obtain ⟨-, hgoes⟩ := List.cons.inj hgoes
      obtain ⟨rfl, -⟩ := List.cons.inj hgoes
      exact List.mem_map_of_mem hd

/-- The labels of the children of a node are those that come first on its complete paths. -/
theorem mem_labels_children_iff :
    label ∈ labels node.children ↔
      ∃ chain ∈ node.completePaths, (labels chain).head? = some label := by
  constructor
  · intro h
    obtain ⟨c, hc, rfl⟩ := List.mem_map.1 h
    have hchain : [] ++ [c] ∈ node.chains := singleton_mem_chains hc
    obtain ⟨more, hpath⟩ := exists_completePath_of_chain hchain
    exact ⟨_, hpath, rfl⟩
  · rintro ⟨chain, hpath, hhead⟩
    obtain ⟨c, hc, hroute⟩ := mem_chains_iff.1 (mem_completePaths_iff.1 hpath).1
    obtain ⟨rest, rfl⟩ := exists_cons_of_mem_routes hroute
    obtain rfl := Option.some.inj hhead
    exact List.mem_map_of_mem hc

/-- A canonical path has a label. -/
theorem ne_nil_of_mem_canonicalPaths {path : List String} (h : path ∈ node.canonicalPaths) :
    path ≠ [] := by
  obtain ⟨chain, hc, hp⟩ := List.mem_flatMap.1 h
  exact Canonical.ne_nil_of_mem_paths
    (labels_ne_nil_of_mem_chains (mem_completePaths_iff.1 hc).1) hp

end PathCensus.Node
