import Mathlib.Data.List.Nodup
import PathCensus.Proofs.Tree.Reaching
import PathCensus.Proofs.Tree.Rebuilding

/-!
# Labels as addresses

In a tree that keeps one child per label throughout, a path of labels names at most one node: the
walk meets no two nodes with the same labels on the way, and the node that is looked up along a path
is the one that the walk meets there. In any tree, the places of the children on the way to that node
tell its path.
-/

namespace PathCensus.Node

variable {V : Type}

/-- A path leads where its end leads from where its beginning leads. -/
theorem descend?_append (node : Node V) (first second : List String) :
    node.descend? (first ++ second) = (node.descend? first).bind fun m => m.descend? second := by
  induction first generalizing node with
  | nil => rfl
  | cons name first ih =>
    rw [List.cons_append, descend?_cons, descend?_cons, Option.bind_assoc]
    exact congrArg _ (funext ih)

/-- The labels of a route start with the label of its start. -/
theorem head?_labels_of_mem_routes {node : Node V} {route : List (Node V)}
    (h : route ∈ node.routes) : (labels route).head? = some node.label := by
  obtain ⟨rest, rfl⟩ := exists_cons_of_mem_routes h
  rfl

/-- The routes from nodes with distinct labels have distinct labels, if those of each node have. -/
private theorem nodup_labels_flatMap_routes {nodes : List (Node V)}
    (hd : (nodes.map label).Nodup) (h : ∀ c ∈ nodes, (c.routes.map labels).Nodup) :
    ((nodes.flatMap routes).map labels).Nodup := by
  rw [List.map_flatMap, List.nodup_flatMap]
  refine ⟨h, (List.pairwise_map.1 hd).imp fun hne path ha hb => hne ?_⟩
  obtain ⟨first, hfirst, rfl⟩ := List.mem_map.1 ha
  obtain ⟨second, hsecond, he⟩ := List.mem_map.1 hb
  have hhead := (head?_labels_of_mem_routes hfirst).symm.trans
    (he ▸ head?_labels_of_mem_routes hsecond)
  exact Option.some.inj hhead

/-- Where one child is kept per label, no two routes have the same labels. -/
theorem Keyed.nodup_labels_routes {node : Node V} (hk : node.Keyed) :
    (node.routes.map labels).Nodup := by
  induction hk with
  | @intro node hp _ ih =>
    have hbelow : ((node.visited.flatMap routes).map labels).Nodup :=
      nodup_labels_flatMap_routes (nodup_labels_visited.2 hp.distinct)
        fun c hc => ih c (mem_visited.1 hc)
    have hmap : ((node.visited.flatMap routes).map (node :: ·)).map labels =
        ((node.visited.flatMap routes).map labels).map (node.label :: ·) := by
      rw [List.map_map, List.map_map]
      rfl
    rw [routes_eq, List.map_cons, hmap, List.nodup_cons]
    refine ⟨fun hmem => ?_, hbelow.map List.cons_injective⟩
    obtain ⟨path, hpath, he⟩ := List.mem_map.1 hmem
    obtain ⟨route, hr, rfl⟩ := List.mem_map.1 hpath
    obtain ⟨c, -, hc⟩ := List.mem_flatMap.1 hr
    have hnil := (List.cons.inj he).2
    have hhead := head?_labels_of_mem_routes hc
    rw [hnil] at hhead
    cases hhead

/-- Where one child is kept per label, no two chains have the same labels. -/
theorem Keyed.nodup_labels_chains {node : Node V} (hk : node.Keyed) :
    (node.chains.map labels).Nodup := by
  rw [chains_eq]
  exact nodup_labels_flatMap_routes (nodup_labels_visited.2 hk.here.distinct)
    fun c hc => Keyed.nodup_labels_routes (hk.child (mem_visited.1 hc))

/-- Where one child is kept per label, looking up a path finds the node that the walk meets at the
end of the chain with these labels. -/
theorem Keyed.descend?_eq_some_iff {node : Node V} (hk : node.Keyed) {path : List String}
    (hne : path ≠ []) {found : Node V} :
    node.descend? path = some found ↔
      ∃ chain ∈ node.chains, labels chain = path ∧ chain.getLast? = some found := by
  constructor
  · exact exists_chain_of_descend? hne
  · rintro ⟨chain, hc, rfl, hlast⟩
    rw [hk.descend?_of_mem_chains hc, hlast]

/-- Where one child is kept per label, the labels of the chains are the paths that lead below the
root. -/
theorem Keyed.mem_labels_chains_iff {node : Node V} (hk : node.Keyed) {path : List String} :
    path ∈ node.chains.map labels ↔ path ≠ [] ∧ (node.descend? path).isSome := by
  constructor
  · intro h
    obtain ⟨chain, hc, rfl⟩ := List.mem_map.1 h
    exact ⟨labels_ne_nil_of_mem_chains hc, hk.isSome_descend?_of_mem_chains hc⟩
  · rintro ⟨hne, hsome⟩
    obtain ⟨found, hfound⟩ := Option.isSome_iff_exists.1 hsome
    obtain ⟨chain, hc, hlabels, -⟩ := exists_chain_of_descend? hne hfound
    exact List.mem_map.2 ⟨chain, hc, hlabels⟩

/-- Where one child is kept per label, the labels of a chain lead to its last node. -/
theorem Keyed.descend?_of_append_mem_chains {root node : Node V} (hk : root.Keyed)
    {above : List (Node V)} (h : above ++ [node] ∈ root.chains) :
    root.descend? (labels (above ++ [node])) = some node := by
  rw [hk.descend?_of_mem_chains h, List.getLast?_concat]

/-! ## Places of children -/

/-- The address at which a path of labels ends: the places of the children that it goes through. -/
def address? (node : Node V) : List String → Option (List Nat)
  | [] => some []
  | label :: path =>
    (node.place? label).bind fun i =>
      (node.children[i]?.bind fun c => c.address? path).map (i :: ·)

/-- The child at the place of a label has the label. -/
theorem label_of_place? {node c : Node V} {name : String} {i : Nat}
    (hp : node.place? name = some i) (hc : node.children[i]? = some c) : c.label = name := by
  have hchild := child?_eq_bind_place? node name
  rw [hp, Option.bind_some, hc] at hchild
  exact (child?_eq_some hchild).1

/-- An address goes on below the child at its first place. -/
theorem address?_cons_eq_some_iff {node : Node V} {label : String} {path : List String}
    {address : List Nat} :
    node.address? (label :: path) = some address ↔ ∃ i c rest, node.place? label = some i ∧
      node.children[i]? = some c ∧ c.address? path = some rest ∧ address = i :: rest := by
  simp only [address?, Option.bind_eq_some_iff, Option.map_eq_some_iff]
  constructor
  · rintro ⟨i, hp, rest, ⟨c, hc, hrest⟩, rfl⟩
    exact ⟨i, c, rest, hp, hc, hrest, rfl⟩
  · rintro ⟨i, c, rest, hp, hc, hrest, rfl⟩
    exact ⟨i, hp, rest, ⟨c, hc, hrest⟩, rfl⟩

/-- What is found along a path is what stands at its address. -/
theorem descend?_eq_bind_at? (node : Node V) (path : List String) :
    node.descend? path = (node.address? path).bind node.at? := by
  induction path generalizing node with
  | nil => rfl
  | cons name path ih =>
    rw [descend?_cons, child?_eq_bind_place?, address?]
    cases node.place? name with
    | none => rfl
    | some i =>
      cases hc : node.children[i]? with
      | none => simp only [Option.bind_some, Option.bind_none, hc, Option.map_none]
      | some c =>
        simp only [Option.bind_some, hc, ih c]
        cases c.address? path with
        | none => rfl
        | some rest => simp only [Option.bind_some, Option.map_some, at?, hc]

/-- An address tells the labels of the path that ends there. -/
theorem address?_inj {node : Node V} {first second : List String} {address : List Nat}
    (hf : node.address? first = some address) (hs : node.address? second = some address) :
    first = second := by
  induction first generalizing node second address with
  | nil =>
    obtain rfl := Option.some.inj hf
    cases second with
    | nil => rfl
    | cons name second =>
      obtain ⟨i, c, rest, -, -, -, he⟩ := address?_cons_eq_some_iff.1 hs
      cases he
  | cons name first ih =>
    obtain ⟨i, c, rest, hp, hc, hrest, rfl⟩ := address?_cons_eq_some_iff.1 hf
    cases second with
    | nil => cases hs
    | cons other second =>
      obtain ⟨j, d, more, hq, hd, hmore, he⟩ := address?_cons_eq_some_iff.1 hs
      obtain ⟨rfl, rfl⟩ := List.cons.inj he
      obtain rfl := Option.some.inj (hc.symm.trans hd)
      rw [← label_of_place? hp hc, ← label_of_place? hq hc, ih hrest hmore]

end PathCensus.Node
