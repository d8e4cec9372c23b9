import PathCensus.Proofs.Census.Rereading
import PathCensus.Proofs.Tree.Canonical

/-!
# Loops end at leaves

All paths that trees put into a census have distinct labels up to the last one. This holds of every
chain of a census that comes of trees and other censuses alone: deposits lead along canonical paths,
along chains of other censuses, or along ends of such chains. So a label that repeats along a chain
does so at a leaf, and the paths of such a census need not be split again.
-/

namespace PathCensus

namespace Node

variable {V : Type}

/-- The canonical paths of a tree have distinct labels up to the last one. -/
theorem nodup_of_mem_canonicalPaths {tree : Node V} {path : List String}
    (h : path ∈ tree.canonicalPaths) : path.dropLast.Nodup := by
  obtain ⟨chain, -, hp⟩ := List.mem_flatMap.1 h
  exact Canonical.nodup_of_mem_paths hp

/-- If no complete path need be split, the canonical paths are the complete paths. -/
theorem canonicalPaths_of_nodup {tree : Node V}
    (h : ∀ chain ∈ tree.completePaths, (labels chain).dropLast.Nodup) :
    tree.canonicalPaths = tree.completePaths.map labels := by
  have hsame : ∀ chain ∈ tree.completePaths, Canonical.paths (labels chain) = [labels chain] :=
    fun chain hc => Canonical.paths_of_nodup (h chain hc)
  rw [canonicalPaths, List.flatMap_congr hsame]
  exact List.map_eq_flatMap.symm

/-- A node whose child's chain repeats no label before its end does not repeat a label itself. -/
theorem isLeaf_of_mem {node root : Node V} {above : List (Node V)}
    (h : ∀ chain ∈ root.chains, (labels chain).dropLast.Nodup)
    (hc : above ++ [node] ∈ root.chains) (hlabel : node.label ∈ labels above) :
    node.isLeaf = true := by
  by_contra hleaf
  obtain ⟨c, hmem⟩ : ∃ c, c ∈ node.children := by
    apply List.exists_mem_of_ne_nil
    intro hnil
    exact hleaf (List.isEmpty_iff.2 hnil)
  have hd := h _ (child_mem_chains hc hmem)
  have hsplit : labels (above ++ [node] ++ [c]) = labels above ++ node.label :: [c.label] := by
    simp [labels]
  rw [hsplit] at hd
  have hboth := (List.nodup_append.1 (Canonical.nodup_dropLast_append hd)).2.2
  exact hboth node.label hlabel node.label (List.mem_singleton_self _) rfl

end Node

namespace Census

/-- Along every chain, the labels up to the last one are distinct. -/
def LoopsEnd (census : Census) : Prop :=
  ∀ chain ∈ census.root.chains, (Node.labels chain).dropLast.Nodup

/-- Where one child is kept per label, this is a matter of the paths that lead somewhere. -/
theorem loopsEnd_iff {census : Census} (hk : census.root.Keyed) :
    census.LoopsEnd ↔ ∀ labels, labels ≠ [] → (census.countsAt? labels).isSome = true →
      labels.dropLast.Nodup := by
  constructor
  · intro h labels hne hsome
    rw [isSome_countsAt?] at hsome
    obtain ⟨found, hf⟩ := Option.isSome_iff_exists.1 hsome
    obtain ⟨chain, hc, rfl, -⟩ := Node.exists_chain_of_descend? hne hf
    exact h chain hc
  · intro h chain hc
    refine h _ (Node.labels_ne_nil_of_mem_chains hc) ?_
    rw [isSome_countsAt?]
    exact hk.isSome_descend?_of_mem_chains hc

/-- Deposits along paths with distinct labels up to the last one keep chains that way. -/
theorem LoopsEnd.foldl_put {census : Census} (h : census.LoopsEnd) (hw : census.WellFormed)
    {deposits : List (List (String × Counts))} (hw' : (deposits.foldl put census).WellFormed)
    (hd : ∀ path ∈ deposits, (path.map Prod.fst).dropLast.Nodup) :
    (deposits.foldl put census).LoopsEnd := by
  rw [loopsEnd_iff hw'.keyed]
  intro labels hne hsome
  rw [countsAt?_foldl_put _ _ hne] at hsome
  cases hold : census.countsAt? labels with
  | some counts => exact (loopsEnd_iff hw.keyed).1 h labels hne (by rw [hold]; rfl)
  | none =>
    rw [hold, none_join?] at hsome
    obtain ⟨-, path, hp, hprefix⟩ := isSome_shares.1 hsome
    exact Canonical.nodup_dropLast_of_prefix (hd path hp) hprefix

theorem loopsEnd_ofTreeCount (n : Nat) : (ofTreeCount n).LoopsEnd := by
  rw [loopsEnd_iff (wellFormed_ofTreeCount n).keyed]
  intro labels hne hsome
  rw [countsAt?_ofTreeCount n hne] at hsome
  cases hsome

theorem LoopsEnd.withTreeCount {census : Census} (h : census.LoopsEnd) (n : Nat) :
    ({ census with treeCount := n } : Census).LoopsEnd := h

theorem LoopsEnd.addTree {V : Type} {census : Census} (h : census.LoopsEnd)
    (hw : census.WellFormed) (tree : Node V) : (census.addTree tree).2.LoopsEnd := by
  have hw' := hw.addTree tree
  rw [addTree_eq] at hw' ⊢
  refine (h.withTreeCount _).foldl_put (hw.withTreeCount (Nat.le_succ _)) hw' fun path hp => ?_
  obtain ⟨labels, hl, rfl⟩ := List.mem_map.1 hp
  rw [map_fst_onceAlong]
  exact Node.nodup_of_mem_canonicalPaths hl

theorem LoopsEnd.addCounts {census other : Census} (h : census.LoopsEnd) (ho : other.LoopsEnd)
    (hw : census.WellFormed) (hwo : other.WellFormed) : (census.addCounts other).LoopsEnd := by
  have hw' := hw.addCounts hwo
  rw [addCounts_eq] at hw' ⊢
  refine (h.withTreeCount _).foldl_put (hw.withTreeCount (Nat.le_max_left _ _)) hw' fun path hp => ?_
  obtain ⟨chain, hc, rfl⟩ := List.mem_map.1 hp
  rw [map_fst_countsAlong]
  exact ho chain (Node.mem_completePaths_iff.1 hc).1

theorem LoopsEnd.merge {census other : Census} (h : census.LoopsEnd) (ho : other.LoopsEnd)
    (hw : census.WellFormed) (hwo : other.WellFormed) : (census.merge other).LoopsEnd := by
  have hw' := hw.merge hwo
  rw [merge_eq] at hw' ⊢
  refine (h.withTreeCount _).foldl_put (hw.withTreeCount (Nat.le_max_left _ _)) hw' fun path hp => ?_
  obtain ⟨chain, hc, rfl⟩ := List.mem_map.1 hp
  rw [map_fst_lastOnly]
  exact ho chain hc

theorem LoopsEnd.restructure {census : Census} (h : census.LoopsEnd) (hw : census.WellFormed)
    (label : String) : (census.restructure label).LoopsEnd := by
  have hw' := hw.restructure label
  rw [restructure_eq] at hw' ⊢
  refine (loopsEnd_ofTreeCount _).foldl_put (wellFormed_ofTreeCount _) hw' fun path hp => ?_
  obtain ⟨top, ht, hp⟩ := List.mem_flatMap.1 hp
  obtain ⟨route, hr, rfl⟩ := List.mem_map.1 hp
  have htop : ∀ route ∈ top.routes, (Node.labels route).dropLast.Nodup := by
    refine Node.of_mem_topmost (P := fun node => ∀ route ∈ node.routes,
      (Node.labels route).dropLast.Nodup) ?_ ?_ ht
    · intro node hnode c hc route hr
      have hlonger := hnode (node :: route) (Node.mem_routes_iff.2 (.inr ⟨c, hc, route, hr, rfl⟩))
      exact Canonical.nodup_dropLast_of_cons hlonger
    · intro c hc route hr
      exact h route (Node.mem_chains_iff.2 ⟨c, hc, hr⟩)
  rw [map_fst_countsAlong]
  exact htop route (List.mem_filter.1 hr).1

/-- Reading a census back keeps its chains. -/
theorem LoopsEnd.reread {census after : Census} (h : census.LoopsEnd) (hw : census.WellFormed)
    {text : String} (hr : census.render = .ok text) (ho : ofText text = .ok after) :
    after.LoopsEnd := by
  have hw' := wellFormed_ofLines ho
  have hmirrored := ((hw.ofText_render hr).1 ho).1
  rw [loopsEnd_iff hw'.keyed]
  intro labels hne hsome
  rw [hmirrored, ← hw.agrees_mirrored.countsAt labels hne] at hsome
  exact (loopsEnd_iff hw.keyed).1 h labels hne hsome

/-- Loops end at the last label in every census that comes of trees and other censuses. -/
theorem Reachable.loopsEnd {census : Census} (h : Reachable .trees census) : census.LoopsEnd := by
  induction h with
  | ofTreeCount n => exact loopsEnd_ofTreeCount n
  | addTree tree hr ih => exact ih.addTree hr.wellFormed tree
  | addPath hpaths => cases hpaths
  | addCounts hr hro ih iho => exact ih.addCounts iho hr.wellFormed hro.wellFormed
  | merge hr hro ih iho => exact ih.merge iho hr.wellFormed hro.wellFormed
  | restructure label hr ih => exact ih.restructure hr.wellFormed label
  | ofLines hdumps => cases hdumps
  | reread hr hrender ho ih => exact ih.reread hr.wellFormed hrender ho

/-- The canonical paths of a tree have distinct labels up to the last one: no label occurs more than
twice, one at most occurs twice, and its second occurrence is the last label; they need not be split
again. The chains of a census that comes of trees and other censuses have the same form: a node
whose label occurs above it is a leaf, a chain is at most one longer than its number of distinct
labels, and the canonical paths of the census are its complete paths in the same order. -/
theorem canonical_form :
    (∀ {V : Type} (tree : Node V), ∀ path ∈ tree.canonicalPaths,
      path.dropLast.Nodup ∧ (∀ label, path.count label ≤ 2) ∧
        (∀ a b, path.count a = 2 → path.count b = 2 → a = b) ∧
        (∀ label, path.count label = 2 → path.getLast? = some label) ∧
        Canonical.split? path = none ∧ Canonical.paths path = [path]) ∧
      ∀ census, Reachable .trees census →
        (∀ chain ∈ census.root.chains, (Node.labels chain).dropLast.Nodup ∧
          chain.length ≤ (Node.labels chain).dedup.length + 1) ∧
        (∀ above node, above ++ [node] ∈ census.root.chains → node.label ∈ Node.labels above →
          node.isLeaf = true) ∧
        (∀ chain ∈ census.root.completePaths, Canonical.split? (Node.labels chain) = none) ∧
        census.root.canonicalPaths = census.root.completePaths.map Node.labels := by
  constructor
  · intro V tree path hp
    have hd := Node.nodup_of_mem_canonicalPaths hp
    have hcount := Canonical.count_of_nodup_dropLast hd
    refine ⟨hd, fun label => (hcount label).1, fun a b ha hb => ?_, fun label => (hcount label).2,
      Canonical.split?_eq_none_iff.2 hd, Canonical.paths_of_nodup hd⟩
    have hlast := ((hcount a).2 ha).symm.trans ((hcount b).2 hb)
    exact Option.some.inj hlast
  · intro census h
    have hloops := h.loopsEnd
    have hcomplete : ∀ chain ∈ census.root.completePaths, (Node.labels chain).dropLast.Nodup :=
      fun chain hc => hloops chain (Node.mem_completePaths_iff.1 hc).1
    refine ⟨fun chain hc => ⟨hloops chain hc, ?_⟩, fun above node hc hl => ?_,
      fun chain hc => Canonical.split?_eq_none_iff.2 (hcomplete chain hc),
      Node.canonicalPaths_of_nodup hcomplete⟩
    · have hle := Canonical.length_le_of_nodup_dropLast (hloops chain hc)
      rwa [Node.labels, List.length_map, ← Node.labels] at hle
    · exact Node.isLeaf_of_mem hloops hc hl

/-- In the census of a tree with a loop, the loop ends at a leaf. -/
theorem canonical_form_loop :
    Reachable .trees (empty.addTree loopTree).2 ∧
      (∀ path ∈ loopTree.canonicalPaths, path.count "A" ≤ 2) ∧
      (empty.addTree loopTree).2.root.canonicalPaths = [["A", "B", "A"]] := by
  have hempty : Reachable .trees empty := .ofTreeCount 0
  have hreach : Reachable .trees (empty.addTree loopTree).2 := .addTree loopTree hempty
  obtain ⟨htree, hcensus⟩ := canonical_form
  have hcomplete : (empty.addTree loopTree).2.root.completePaths.map Node.labels =
      [["A", "B", "A"]] := by decide +kernel
  refine ⟨hreach, fun path hp => (htree loopTree path hp).2.1 "A", ?_⟩
  exact (hcensus _ hreach).2.2.2.trans hcomplete

end Census

end PathCensus
