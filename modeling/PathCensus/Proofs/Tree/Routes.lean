import PathCensus.Proofs.Tree.Children
import PathCensus.Tree.Paths

/-!
# Walks by recursion on the tree

A walk with a stack meets the nodes of a tree in preorder: a node first, then what is below each of
its children, in the stored order of a sequence and in the reverse order of a keyed node. The buffer
that a walk keeps for its chains always holds the way down to the node that is met, so the chains
are the routes from the start to all nodes.
-/

namespace PathCensus

variable {V : Type}

namespace Node

/-- Things that belong to children, from the stored order into the order of a walk. -/
def inOrder {α : Type} (layout : Layout) (items : List α) : List α :=
  match layout with
  | .sequence => items
  | .keyed => items.reverse

/-- The children in the order in which a walk meets them. -/
def visited (node : Node V) : List (Node V) :=
  inOrder node.layout node.children

mutual

/-- Put a tree together bottom-up from its nodes, the children in the order of a walk. -/
def fold {β : Type} (f : Node V → List β → β) : Node V → β
  | ⟨label, value, layout, children⟩ =>
    f ⟨label, value, layout, children⟩ (inOrder layout (foldEach f children))

/-- Put each of several trees together. -/
def foldEach {β : Type} (f : Node V → List β → β) : List (Node V) → List β
  | [] => []
  | child :: rest => fold f child :: foldEach f rest

end

/-- The visits of a node and of all that is below it, for a node at some depth. -/
def preorder (node : Node V) : Nat → List (Visit V) :=
  node.fold fun node below depth => ⟨depth, node⟩ :: below.flatMap fun visits => visits (depth + 1)

/-- The ways from a node down to itself and to all that is below it, the node first. -/
def routes (node : Node V) : List (List (Node V)) :=
  node.fold fun node below => [node] :: below.flatten.map (node :: ·)

/-- The ways from a node down to the leaves. -/
def leafRoutes (node : Node V) : List (List (Node V)) :=
  node.routes.filter endsAtLeaf

theorem inOrder_map {α β : Type} (layout : Layout) (g : α → β) (items : List α) :
    inOrder layout (items.map g) = (inOrder layout items).map g := by
  cases layout <;> simp [inOrder]

theorem mem_inOrder {α : Type} {layout : Layout} {items : List α} {a : α} :
    a ∈ inOrder layout items ↔ a ∈ items := by
  cases layout <;> simp [inOrder]

@[simp] theorem mem_visited {node c : Node V} : c ∈ node.visited ↔ c ∈ node.children :=
  mem_inOrder

/-- A walk takes the children from the top of its stack. -/
theorem reverse_adjacent (node : Node V) : node.adjacent.reverse = node.visited := by
  cases h : node.layout <;> simp [adjacent, visited, inOrder, h]

theorem sumBy_visited (f : Node V → Nat) (node : Node V) :
    sumBy f node.visited = sumBy f node.children := by
  cases h : node.layout <;> simp [visited, inOrder, h]

theorem visited_of_isLeaf {node : Node V} (h : node.isLeaf = true) : node.visited = [] := by
  have hnil : node.children = [] := List.isEmpty_iff.1 h
  cases hl : node.layout <;> simp [visited, inOrder, hl, hnil]

private theorem foldEach_eq {β : Type} (f : Node V → List β → β) (nodes : List (Node V)) :
    foldEach f nodes = nodes.map (fold f) := by
  induction nodes with
  | nil => rfl
  | cons node rest ih => rw [foldEach, ih, List.map_cons]

/-- A tree is put together from what its children give. -/
theorem fold_eq {β : Type} (f : Node V → List β → β) (node : Node V) :
    node.fold f = f node (node.visited.map (fold f)) := by
  cases node
  rw [fold, foldEach_eq, inOrder_map]
  rfl

theorem preorder_eq (node : Node V) (depth : Nat) :
    node.preorder depth =
      ⟨depth, node⟩ :: node.visited.flatMap fun c => c.preorder (depth + 1) := by
  rw [preorder, fold_eq, List.flatMap_map]
  rfl

theorem routes_eq (node : Node V) :
    node.routes = [node] :: (node.visited.flatMap routes).map (node :: ·) := by
  rw [routes, fold_eq]
  rfl

end Node

/-! ## Walks -/

namespace Visit

/-- From a node on top of the stack, a walk meets the preorder of the node. -/
theorem walk_cons (node : Node V) (depth : Nat) (stack : List (Visit V)) :
    walk (⟨depth, node⟩ :: stack) = node.preorder depth ++ walk stack := by
  induction node using Node.inductionOn generalizing depth stack with
  | step node ih =>
    have hforest : ∀ nodes : List (Node V), (∀ c ∈ nodes, c ∈ node.children) →
        walk (nodes.map (fun c => ⟨depth + 1, c⟩) ++ stack) =
          nodes.flatMap (fun c => c.preorder (depth + 1)) ++ walk stack := by
      intro nodes hall
      induction nodes with
      | nil => rfl
      | cons c rest ihr =>
        rw [List.map_cons, List.cons_append, ih c (hall c List.mem_cons_self),
          ihr fun d hd => hall d (List.mem_cons_of_mem c hd), List.flatMap_cons,
          List.append_assoc]
    rw [walk, next, Node.reverse_adjacent, hforest _ fun c hc => Node.mem_visited.1 hc,
      Node.preorder_eq, List.cons_append]

end Visit

namespace Node

/-- A walk from several nodes meets their preorders, the last node first. -/
theorem walkFrom_eq (seeds : List (Node V)) :
    walkFrom seeds = seeds.reverse.flatMap fun node => node.preorder 0 := by
  unfold walkFrom
  induction seeds.reverse with
  | nil => simp [Visit.walk]
  | cons node rest ih => rw [List.map_cons, Visit.walk_cons, ih, List.flatMap_cons]

theorem walk_eq (node : Node V) : node.walk = node.visited.flatMap fun c => c.preorder 0 := by
  rw [walk, walkFrom_eq, reverse_adjacent]

end Node

/-! ## Chains -/

namespace Visit

/-- While the buffer holds the way to its parent, the chains of a node's preorder are the routes from
the node behind this way; afterwards the buffer still holds it. -/
def Follows (node : Node V) : Prop :=
  ∀ above buffer : List (Node V), buffer.take above.length = above → ∀ visits : List (Visit V),
    ∃ after : List (Node V), after.take above.length = above ∧
      chains buffer (node.preorder above.length ++ visits) =
        node.routes.map (above ++ ·) ++ chains after visits

/-- The same holds of several nodes with one parent, one after another. -/
theorem chains_forest {nodes : List (Node V)} (h : ∀ c ∈ nodes, Follows c)
    {above buffer : List (Node V)} (hb : buffer.take above.length = above)
    (visits : List (Visit V)) :
    ∃ after : List (Node V), after.take above.length = above ∧
      chains buffer (nodes.flatMap (fun c => c.preorder above.length) ++ visits) =
        (nodes.flatMap Node.routes).map (above ++ ·) ++ chains after visits := by
  induction nodes generalizing buffer with
  | nil => exact ⟨buffer, hb, rfl⟩
  | cons c rest ih =>
    rw [List.forall_mem_cons] at h
    obtain ⟨middle, hmiddle, hc⟩ :=
      h.1 above buffer hb (rest.flatMap (fun d => d.preorder above.length) ++ visits)
    obtain ⟨after, hafter, hr⟩ := ih h.2 hmiddle
    refine ⟨after, hafter, ?_⟩
    rw [List.flatMap_cons, List.append_assoc, hc, hr, List.flatMap_cons, List.map_append,
      List.append_assoc]

/-- Every node follows the way to its parent. -/
theorem chains_preorder (node : Node V) : Follows node := by
  induction node using Node.inductionOn with
  | step node ih =>
    intro above buffer hb visits
    have hlength : (above ++ [node]).length = above.length + 1 := by
      rw [List.length_append, List.length_singleton]
    obtain ⟨after, hafter, hc⟩ := chains_forest
      (fun c hc => ih c (Node.mem_visited.1 hc)) (List.take_length (l := above ++ [node])) visits
    rw [hlength] at hafter hc
    refine ⟨after, ?_, ?_⟩
    · have h := congrArg (List.take above.length) hafter
      rwa [List.take_take, Nat.min_eq_left (Nat.le_succ _), List.take_left] at h
    · rw [Node.preorder_eq, List.cons_append, chains, hb, hc, Node.routes_eq, List.map_cons,
        List.map_map]
      simp [Function.comp_def]

end Visit

namespace Node

/-- The chains of a walk from several nodes are the routes from these nodes. -/
theorem chainsFrom_eq (seeds : List (Node V)) :
    chainsFrom seeds = seeds.reverse.flatMap routes := by
  have hstart : ([] : List (Node V)).take ([] : List (Node V)).length = [] := rfl
  obtain ⟨after, -, h⟩ := Visit.chains_forest
    (fun c (_ : c ∈ seeds.reverse) => Visit.chains_preorder c) hstart []
  have hend : Visit.chains after [] = [] := rfl
  rw [chainsFrom, walkFrom_eq]
  simpa [hend] using h

theorem chains_eq (node : Node V) : node.chains = node.visited.flatMap routes := by
  rw [chains, chainsFrom_eq, reverse_adjacent]

/-- The complete paths from several nodes are the ways from these nodes to the leaves. -/
theorem completePathsFrom_eq (seeds : List (Node V)) :
    completePathsFrom seeds = seeds.reverse.flatMap leafRoutes := by
  rw [completePathsFrom, chainsFrom_eq, List.filter_flatMap]
  rfl

theorem completePaths_eq (node : Node V) :
    node.completePaths = node.visited.flatMap leafRoutes := by
  rw [completePaths, completePathsFrom_eq, reverse_adjacent]

/-- The way to a leaf is the leaf alone, or goes on below a child. -/
theorem leafRoutes_eq (node : Node V) :
    node.leafRoutes =
      if node.isLeaf then [[node]] else (node.visited.flatMap leafRoutes).map (node :: ·) := by
  have htail : ∀ c ∈ node.visited, ∀ route ∈ c.routes,
      endsAtLeaf (node :: route) = endsAtLeaf route := by
    intro c _ route hr
    rw [routes_eq] at hr
    cases route with
    | nil => simp at hr
    | cons first rest => rw [endsAtLeaf, endsAtLeaf, List.getLast?_cons_cons]
  have hbelow : ((node.visited.flatMap routes).map (node :: ·)).filter endsAtLeaf =
      (node.visited.flatMap leafRoutes).map (node :: ·) := by
    rw [List.filter_map, List.filter_flatMap]
    congr 1
    refine List.flatMap_congr fun c hc => List.filter_congr fun route hr => ?_
    exact htail c hc route hr
  rw [leafRoutes, routes_eq, List.filter_cons, hbelow]
  by_cases hleaf : node.isLeaf = true
  · simp [endsAtLeaf, hleaf, visited_of_isLeaf hleaf]
  · simp [endsAtLeaf, hleaf]

end Node

end PathCensus
