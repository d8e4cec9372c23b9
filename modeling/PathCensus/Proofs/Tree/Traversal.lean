import Mathlib.Data.List.Forall2
import PathCensus.Proofs.Tree.Routes

/-!
# Walks and complete paths, visit by visit

A walk meets each of its starts before all that is below it, and so on down the tree. The buffer
for the chains holds at every visit the way from the start to the node that is met, one node longer
than the visit is deep. The ways that are handed out are those of the visits at leaves: one for
each, in the order of the visits.
-/

namespace PathCensus

variable {V : Type}

/-- The chain goes from the node of one visit down to the node of another, from parent to child, and
is as long as the second visit is deeper than the first. -/
structure LeadsTo (start visit : Visit V) (chain : List (Node V)) : Prop where
  first : chain.head? = some start.node
  steps : chain.IsChain fun parent child => child ∈ parent.children
  last : chain.getLast? = some visit.node
  length : chain.length + start.depth = visit.depth + 1

namespace LeadsTo

/-- A node alone leads to itself. -/
theorem refl (start : Visit V) : LeadsTo start start [start.node] where
  first := rfl
  steps := .singleton _
  last := rfl
  length := Nat.add_comm _ _

/-- A way from a child goes on from the parent, one step longer. -/
theorem below {node child : Node V} {depth : Nat} {visit : Visit V} {chain : List (Node V)}
    (hchild : child ∈ node.children) (h : LeadsTo ⟨depth + 1, child⟩ visit chain) :
    LeadsTo ⟨depth, node⟩ visit (node :: chain) := by
  obtain ⟨rest, rfl⟩ : ∃ rest, chain = child :: rest := List.head?_eq_some_iff.1 h.first
  constructor
  case first => rfl
  case steps => exact List.isChain_cons_cons.2 ⟨hchild, h.steps⟩
  case last => rw [List.getLast?_cons_cons, h.last]
  case length =>
    have hlen := h.length
    rw [List.length_cons]
    dsimp only at hlen ⊢
    omega

/-- The way ends at a leaf exactly if the visit is at one. -/
theorem endsAtLeaf_iff {start visit : Visit V} {chain : List (Node V)}
    (h : LeadsTo start visit chain) :
    visit.node.isLeaf = true ↔ Node.endsAtLeaf chain = true := by
  rw [Node.endsAtLeaf, h.last, Option.any_some]

end LeadsTo

namespace Node

/-- What holds item by item of the things that belong to each child holds of all of them. -/
private theorem forall₂_flatMap {α β : Type} {R : α → β → Prop} {f : Node V → List α}
    {g : Node V → List β} {nodes : List (Node V)} (h : ∀ c ∈ nodes, List.Forall₂ R (f c) (g c)) :
    List.Forall₂ R (nodes.flatMap f) (nodes.flatMap g) := by
  induction nodes with
  | nil => exact .nil
  | cons c rest ih =>
    rw [List.flatMap_cons, List.flatMap_cons]
    apply List.rel_append
    · exact h c List.mem_cons_self
    · exact ih fun d hd => h d (List.mem_cons_of_mem c hd)

/-- The routes from a node are the ways to the visits of its preorder, one by one. -/
theorem forall₂_preorder_routes (node : Node V) (depth : Nat) :
    List.Forall₂ (LeadsTo ⟨depth, node⟩) (node.preorder depth) node.routes := by
  induction node using inductionOn generalizing depth with
  | step node ih =>
    have hbelow : List.Forall₂ (LeadsTo ⟨depth, node⟩)
        (node.visited.flatMap fun c => c.preorder (depth + 1))
        (node.visited.flatMap fun c => c.routes.map (node :: ·)) := by
      apply forall₂_flatMap
      intro c hc
      have hchild : c ∈ node.children := mem_visited.1 hc
      rw [List.forall₂_map_right_iff]
      exact (ih c hchild (depth + 1)).imp fun _ _ h => h.below hchild
    rw [preorder_eq, routes_eq, List.map_flatMap]
    exact .cons (LeadsTo.refl ⟨depth, node⟩) hbelow

/-- The ways from a node to its leaves are the ways to the visits at leaves, one by one. -/
theorem forall₂_preorder_leafRoutes (node : Node V) (depth : Nat) :
    List.Forall₂ (LeadsTo ⟨depth, node⟩)
      ((node.preorder depth).filter fun visit => visit.node.isLeaf) node.leafRoutes := by
  unfold leafRoutes
  apply List.rel_filter
  · intro visit chain h
    exact h.endsAtLeaf_iff
  · exact forall₂_preorder_routes node depth

/-- **Walks with a stack are walks by recursion.** A walk from several nodes meets the preorders of
these nodes, from the last node to the first, where a node comes before its children, and these come
in the stored order from a sequence and in the reverse order from a keyed node, one deeper. The
complete paths are the ways to the leaves by the same recursion: there is one for each visit at a
leaf, in the order of the visits, and it leads from the node where the walk started down to the
leaf. -/
theorem traversals_recursive (seeds : List (Node V)) :
    walkFrom seeds = seeds.reverse.flatMap (fun seed => seed.preorder 0) ∧
      completePathsFrom seeds = seeds.reverse.flatMap leafRoutes ∧
      ∀ node : Node V,
        (node.visited = match node.layout with
          | .sequence => node.children
          | .keyed => node.children.reverse) ∧
        (∀ depth, node.preorder depth =
          ⟨depth, node⟩ :: node.visited.flatMap fun c => c.preorder (depth + 1)) ∧
        (node.leafRoutes =
          if node.isLeaf then [[node]] else (node.visited.flatMap leafRoutes).map (node :: ·)) ∧
        List.Forall₂ (LeadsTo ⟨0, node⟩)
          ((node.preorder 0).filter fun visit => visit.node.isLeaf) node.leafRoutes := by
  refine ⟨walkFrom_eq seeds, completePathsFrom_eq seeds, fun node => ⟨?_, ?_, ?_, ?_⟩⟩
  · cases h : node.layout <;> simp only [visited, inOrder, h]
  · intro depth
    exact preorder_eq node depth
  · exact leafRoutes_eq node
  · exact forall₂_preorder_leafRoutes node 0

end Node

end PathCensus
