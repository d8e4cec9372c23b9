import PathCensus.Proofs.Tree.Alike

/-!
# What reordering keeps

Trees that differ in the order of children have the same complete paths and the same nodes, but for
their order. Both are the induction on the tree that goes through the children of a node in any order.
-/

namespace PathCensus.Node

variable {V : Type} {a b : Node V}

/-- Items that match one by one, up to order, stand for the same in any order if each of them does. -/
theorem perm_flatMap_of_forall₂ {α β γ : Type} {R : α → β → Prop} {f : α → List γ} {g : β → List γ}
    {as : List α} {between bs : List β} (h : List.Forall₂ R as between) (hperm : between.Perm bs)
    (hfg : ∀ a ∈ as, ∀ b, R a b → (f a).Perm (g b)) : (as.flatMap f).Perm (bs.flatMap g) := by
  refine List.Perm.trans ?_ (hperm.flatMap_right g)
  clear hperm
  induction h with
  | nil => exact .refl []
  | @cons a b as bs hab _ ih =>
    rw [List.flatMap_cons, List.flatMap_cons]
    have hrest := ih fun a ha => hfg a (List.mem_cons_of_mem _ ha)
    exact (hfg a List.mem_cons_self b hab).append hrest

/-- A walk meets the children in some order. -/
theorem perm_visited (node : Node V) : node.visited.Perm node.children := by
  cases h : node.layout with
  | sequence => rw [visited, h, inOrder]
  | keyed =>
    rw [visited, h, inOrder]
    exact List.reverse_perm _

namespace Reordered

theorem refl (node : Node V) : node.Reordered node := by
  induction node using inductionOn with
  | step node ih => exact .intro rfl rfl rfl (List.forall₂_same.2 ih) (.refl _)

/-- The children of one node may come in any order. -/
theorem of_perm {node : Node V} {children : List (Node V)} (h : node.children.Perm children) :
    node.Reordered { node with children } :=
  .intro rfl rfl rfl (List.forall₂_same.2 fun c _ => refl c) h

theorem label_eq (h : a.Reordered b) : a.label = b.label := by
  cases h
  assumption

/-- What a walk meets below the children is the same in any order if it is for each child. -/
theorem perm_flatMap_visited (h : a.Reordered b) {γ : Type} {f : Node V → List γ}
    (hf : ∀ c ∈ a.children, ∀ d, c.Reordered d → (f c).Perm (f d)) :
    (a.visited.flatMap f).Perm (b.visited.flatMap f) := by
  cases h with
  | intro _ _ _ heach hperm =>
    have hchildren := perm_flatMap_of_forall₂ heach hperm hf
    exact (a.perm_visited.flatMap_right f).trans
      (hchildren.trans (b.perm_visited.flatMap_right f).symm)

/-- The children have the same labels. -/
theorem perm_labels (h : a.Reordered b) : (labels a.children).Perm (labels b.children) := by
  cases h with
  | intro _ _ _ heach hperm =>
    have hsingle := perm_flatMap_of_forall₂ (f := fun c => [c.label]) (g := fun c => [c.label]) heach
      hperm fun c _ d hcd => by rw [hcd.label_eq]
    simpa only [labels, List.map_eq_flatMap] using hsingle

/-- The ways to the leaves have the same labels. -/
theorem perm_leafRoutes (h : a.Reordered b) :
    (a.leafRoutes.map labels).Perm (b.leafRoutes.map labels) := by
  induction a using inductionOn generalizing b with
  | step a ih =>
    have hbelow := h.perm_flatMap_visited (f := fun c => c.leafRoutes.map labels)
      fun c hc d hcd => ih c hc hcd
    rw [leafRoutes_eq, leafRoutes_eq, isLeaf_eq_of_perm_labels h.perm_labels]
    split
    · rw [List.map_singleton, List.map_singleton, labels, labels, List.map_singleton,
        List.map_singleton, h.label_eq]
    · have hmap := hbelow.map (b.label :: ·)
      simp only [List.map_flatMap, List.map_map] at hmap ⊢
      simpa only [Function.comp_def, labels, List.map_cons, h.label_eq] using hmap

/-- The complete paths have the same labels. -/
theorem perm_completePaths (h : a.Reordered b) :
    (a.completePaths.map labels).Perm (b.completePaths.map labels) := by
  have hbelow := h.perm_flatMap_visited (f := fun c => c.leafRoutes.map labels)
    fun c _ d hcd => hcd.perm_leafRoutes
  simpa only [completePaths_eq, List.map_flatMap] using hbelow

end Reordered

/-- What does not depend on the order of children: the label of a node, the number of its children and
how many of them have each label. -/
def outline (node : Node V) : String × Nat × (String → Nat) :=
  (node.label, node.children.length, fun name => (labels node.children).count name)

namespace Reordered

theorem outline_eq (h : a.Reordered b) : a.outline = b.outline := by
  have hlength := h.perm_labels.length_eq
  rw [labels, labels, List.length_map, List.length_map] at hlength
  have hcount : ∀ name, (labels a.children).count name = (labels b.children).count name :=
    fun name => h.perm_labels.count_eq name
  simp only [outline, h.label_eq, hlength, hcount]

/-- The nodes at and below two nodes have the same outlines. -/
theorem perm_preorder (h : a.Reordered b) (depth : Nat) :
    ((a.preorder depth).map fun visit => visit.node.outline).Perm
      ((b.preorder depth).map fun visit => visit.node.outline) := by
  induction a using inductionOn generalizing b depth with
  | step a ih =>
    have hbelow := h.perm_flatMap_visited
      (f := fun c => (c.preorder (depth + 1)).map fun visit => visit.node.outline)
      fun c hc d hcd => ih c hc hcd (depth + 1)
    rw [preorder_eq, preorder_eq, List.map_cons, List.map_cons, h.outline_eq, List.map_flatMap,
      List.map_flatMap]
    exact hbelow.cons _

/-- Walks meet nodes with the same outlines. -/
theorem perm_walk (h : a.Reordered b) :
    (a.walk.map fun visit => visit.node.outline).Perm
      (b.walk.map fun visit => visit.node.outline) := by
  have hbelow := h.perm_flatMap_visited
    (f := fun c => (c.preorder 0).map fun visit => visit.node.outline)
    fun c _ d hcd => hcd.perm_preorder 0
  simpa only [walk_eq, List.map_flatMap] using hbelow

end Reordered

/-! ## Several trees -/

/-- What is there in one of two lists that are the same up to order is there in the other. -/
private theorem exists_mem_iff_of_perm {α β : Type} {f : Node V → List α} {g : α → β}
    {trees others : List (Node V)}
    (h : (trees.flatMap fun tree => (f tree).map g).Perm (others.flatMap fun tree => (f tree).map g))
    (P : β → Prop) :
    (∃ tree ∈ trees, ∃ item ∈ f tree, P (g item)) ↔ ∃ tree ∈ others, ∃ item ∈ f tree, P (g item) := by
  have hflat : ∀ forest : List (Node V), (∃ tree ∈ forest, ∃ item ∈ f tree, P (g item)) ↔
      ∃ image ∈ forest.flatMap fun tree => (f tree).map g, P image := by
    intro forest
    constructor
    · rintro ⟨tree, ht, item, hi, hp⟩
      exact ⟨g item, List.mem_flatMap.2 ⟨tree, ht, List.mem_map_of_mem hi⟩, hp⟩
    · rintro ⟨image, hm, hp⟩
      obtain ⟨tree, ht, hm⟩ := List.mem_flatMap.1 hm
      obtain ⟨item, hi, rfl⟩ := List.mem_map.1 hm
      exact ⟨tree, ht, item, hi, hp⟩
  simp only [hflat, h.mem_iff]

variable {trees between others : List (Node V)}

/-- Reordered trees in any order have complete paths with the same labels. -/
theorem exists_completePath_iff_of_reordered (heach : List.Forall₂ Reordered trees between)
    (hperm : between.Perm others) (P : List String → Prop) :
    (∃ tree ∈ trees, ∃ chain ∈ tree.completePaths, P (labels chain)) ↔
      ∃ tree ∈ others, ∃ chain ∈ tree.completePaths, P (labels chain) :=
  exists_mem_iff_of_perm
    (perm_flatMap_of_forall₂ heach hperm fun _ _ _ h => h.perm_completePaths) P

/-- Reordered trees in any order have nodes with the same outlines. -/
theorem exists_visit_iff_of_reordered (heach : List.Forall₂ Reordered trees between)
    (hperm : between.Perm others) (P : String × Nat × (String → Nat) → Prop) :
    (∃ tree ∈ trees, ∃ visit ∈ tree.walk, P visit.node.outline) ↔
      ∃ tree ∈ others, ∃ visit ∈ tree.walk, P visit.node.outline :=
  exists_mem_iff_of_perm (perm_flatMap_of_forall₂ heach hperm fun _ _ _ h => h.perm_walk) P

end PathCensus.Node
