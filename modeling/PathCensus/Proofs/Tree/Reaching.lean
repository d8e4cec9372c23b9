import PathCensus.Proofs.Tree.Routes
import PathCensus.Tree.Topmost

/-!
# What walks and paths reach

A walk reaches every node below its start and nothing else. In a tree that keeps one child per label
throughout, the labels of a chain are a path that leads to the end of the chain, and every path that
leads somewhere is the labels of a chain.
-/

namespace PathCensus.Node

variable {V : Type}

/-- A route stops at its start or goes on below a child. -/
theorem mem_routes_iff {node : Node V} {route : List (Node V)} :
    route ∈ node.routes ↔
      route = [node] ∨ ∃ c ∈ node.children, ∃ rest ∈ c.routes, route = node :: rest := by
  rw [routes_eq]
  simp only [List.mem_cons, List.mem_map, List.mem_flatMap, mem_visited]
  refine or_congr Iff.rfl ?_
  constructor
  · rintro ⟨rest, ⟨c, hc, hr⟩, rfl⟩
    exact ⟨c, hc, rest, hr, rfl⟩
  · rintro ⟨c, hc, rest, hr, rfl⟩
    exact ⟨rest, ⟨c, hc, hr⟩, rfl⟩

theorem singleton_mem_routes (node : Node V) : [node] ∈ node.routes :=
  mem_routes_iff.2 (.inl rfl)

/-- The routes of a child go on from its parent. -/
theorem cons_mem_routes {node c : Node V} {route : List (Node V)} (hc : c ∈ node.children)
    (hr : route ∈ c.routes) : node :: route ∈ node.routes :=
  mem_routes_iff.2 (.inr ⟨c, hc, route, hr, rfl⟩)

/-- A route starts at its start. -/
theorem exists_cons_of_mem_routes {node : Node V} {route : List (Node V)}
    (h : route ∈ node.routes) : ∃ rest, route = node :: rest := by
  rcases mem_routes_iff.1 h with rfl | ⟨_, _, rest, _, rfl⟩
  · exact ⟨[], rfl⟩
  · exact ⟨rest, rfl⟩

/-- The chains below a node are the routes of its children. -/
theorem mem_chains_iff {node : Node V} {chain : List (Node V)} :
    chain ∈ node.chains ↔ ∃ c ∈ node.children, chain ∈ c.routes := by
  simp [chains_eq]

/-- The complete paths below a node are the chains that end at a leaf. -/
theorem mem_completePaths_iff {node : Node V} {chain : List (Node V)} :
    chain ∈ node.completePaths ↔ chain ∈ node.chains ∧ endsAtLeaf chain = true := by
  simp only [completePaths_eq, chains_eq, leafRoutes, List.mem_flatMap, List.mem_filter]
  constructor
  · rintro ⟨c, hc, hr, hl⟩
    exact ⟨⟨c, hc, hr⟩, hl⟩
  · rintro ⟨⟨c, hc, hr⟩, hl⟩
    exact ⟨c, hc, hr, hl⟩

theorem ne_nil_of_mem_chains {node : Node V} {chain : List (Node V)} (h : chain ∈ node.chains) :
    chain ≠ [] := by
  obtain ⟨c, -, hr⟩ := mem_chains_iff.1 h
  obtain ⟨rest, rfl⟩ := exists_cons_of_mem_routes hr
  exact List.cons_ne_nil _ _

theorem labels_ne_nil_of_mem_chains {node : Node V} {chain : List (Node V)}
    (h : chain ∈ node.chains) : labels chain ≠ [] := by
  simpa [labels] using ne_nil_of_mem_chains h

/-- A property of all that is at or below a node holds along its routes. -/
theorem Everywhere.of_mem_route {P : Node V → Prop} {node m : Node V} {route : List (Node V)}
    (h : Everywhere P node) (hr : route ∈ node.routes) (hm : m ∈ route) : Everywhere P m := by
  induction h generalizing route with
  | @intro node hp hall ih =>
    rcases mem_routes_iff.1 hr with rfl | ⟨c, hc, rest, hrest, rfl⟩
    · exact List.mem_singleton.1 hm ▸ .intro hp hall
    · rcases List.mem_cons.1 hm with rfl | hm
      · exact .intro hp hall
      · exact ih c hc hrest hm

/-- A property of all that is below a node holds along its chains. -/
theorem Everywhere.of_mem_chain {P : Node V → Prop} {node m : Node V} {chain : List (Node V)}
    (h : Everywhere P node) (hc : chain ∈ node.chains) (hm : m ∈ chain) : Everywhere P m := by
  obtain ⟨c, hmem, hr⟩ := mem_chains_iff.1 hc
  exact (h.child hmem).of_mem_route hr hm

/-- A route to a node goes on along the routes of that node. -/
theorem append_mem_routes {node m : Node V} {above route : List (Node V)}
    (h : above ++ [m] ∈ node.routes) (hr : route ∈ m.routes) : above ++ route ∈ node.routes := by
  induction above generalizing node with
  | nil =>
    obtain ⟨rest, he⟩ := exists_cons_of_mem_routes h
    rw [List.nil_append, List.cons.injEq] at he
    exact he.1 ▸ hr
  | cons a above ih =>
    rcases mem_routes_iff.1 h with he | ⟨c, hc, rest, hrest, he⟩
    · simp at he
    · rw [List.cons_append, List.cons.injEq] at he
      obtain ⟨rfl, rfl⟩ := he
      exact cons_mem_routes hc (ih hrest)

/-- A chain to a node goes on along the routes of that node. -/
theorem append_mem_chains {root m : Node V} {above route : List (Node V)}
    (h : above ++ [m] ∈ root.chains) (hr : route ∈ m.routes) : above ++ route ∈ root.chains := by
  obtain ⟨top, htop, hroute⟩ := mem_chains_iff.1 h
  exact mem_chains_iff.2 ⟨top, htop, append_mem_routes hroute hr⟩

/-- The chain to a child of the root. -/
theorem singleton_mem_chains {root c : Node V} (hc : c ∈ root.children) : [c] ∈ root.chains :=
  mem_chains_iff.2 ⟨c, hc, singleton_mem_routes c⟩

/-- A chain goes on to the children of its last node. -/
theorem child_mem_chains {root m c : Node V} {above : List (Node V)}
    (h : above ++ [m] ∈ root.chains) (hc : c ∈ m.children) : above ++ [m] ++ [c] ∈ root.chains := by
  rw [List.append_assoc]
  exact append_mem_chains h (cons_mem_routes hc (singleton_mem_routes c))

/-- A route that passes a node leads to it and goes on along one of its routes. -/
theorem mem_routes_of_append {node m : Node V} {above more : List (Node V)}
    (h : above ++ m :: more ∈ node.routes) : above ++ [m] ∈ node.routes ∧ m :: more ∈ m.routes := by
  induction above generalizing node with
  | nil =>
    obtain ⟨rest, he⟩ := exists_cons_of_mem_routes h
    obtain ⟨rfl, -⟩ := List.cons.inj he
    exact ⟨singleton_mem_routes m, h⟩
  | cons a above ih =>
    rcases mem_routes_iff.1 h with he | ⟨c, hc, rest, hrest, he⟩
    · simp at he
    · obtain ⟨rfl, rfl⟩ := List.cons.inj he
      obtain ⟨habove, hmore⟩ := ih hrest
      exact ⟨cons_mem_routes hc habove, hmore⟩

/-- A chain that passes a node leads to it and goes on along one of its routes. -/
theorem mem_chains_of_append {root m : Node V} {above more : List (Node V)}
    (h : above ++ m :: more ∈ root.chains) : above ++ [m] ∈ root.chains ∧ m :: more ∈ m.routes := by
  obtain ⟨top, htop, hroute⟩ := mem_chains_iff.1 h
  obtain ⟨habove, hmore⟩ := mem_routes_of_append hroute
  exact ⟨mem_chains_iff.2 ⟨top, htop, habove⟩, hmore⟩

/-- What holds at the ends of all chains holds below the root. -/
theorem everywhere_below_of_chains {P : Node V → Prop} {root : Node V}
    (h : ∀ above m, above ++ [m] ∈ root.chains → P m) : ∀ c ∈ root.children, Everywhere P c := by
  have hall : ∀ (m : Node V) (above : List (Node V)), above ++ [m] ∈ root.chains →
      Everywhere P m := by
    intro m
    induction m using inductionOn with
    | step m ih =>
      intro above hm
      exact .intro (h above m hm) fun c hc => ih c hc (above ++ [m]) (child_mem_chains hm hc)
  exact fun c hc => hall c [] (singleton_mem_chains hc)

/-- What holds of all labels below a node is what holds of the labels on its chains. -/
theorem everywhere_label_below_iff {P : String → Prop} {root : Node V} :
    (∀ c ∈ root.children, c.Everywhere fun m => P m.label) ↔
      ∀ path ∈ root.chains.map labels, ∀ label ∈ path, P label := by
  constructor
  · intro h path hp name hname
    obtain ⟨chain, hchain, rfl⟩ := List.mem_map.1 hp
    obtain ⟨m, hm, rfl⟩ := List.mem_map.1 hname
    obtain ⟨c, hc, hroute⟩ := mem_chains_iff.1 hchain
    exact ((h c hc).of_mem_route hroute hm).here
  · intro h
    refine everywhere_below_of_chains fun above m hm => ?_
    exact h _ (List.mem_map_of_mem hm) m.label (by simp [labels])

/-! ## Walks reach everything -/

private theorem everywhere_iff_preorder {P : Node V → Prop} (node : Node V) (depth : Nat) :
    Everywhere P node ↔ ∀ visit ∈ node.preorder depth, P visit.node := by
  induction node using inductionOn generalizing depth with
  | step node ih =>
    rw [preorder_eq]
    constructor
    · intro h visit hv
      rcases List.mem_cons.1 hv with rfl | hv
      · exact h.here
      · obtain ⟨c, hc, hv⟩ := List.mem_flatMap.1 hv
        rw [mem_visited] at hc
        exact (ih c hc (depth + 1)).1 (h.child hc) visit hv
    · intro h
      refine .intro (h ⟨depth, node⟩ List.mem_cons_self) fun c hc => ?_
      refine (ih c hc (depth + 1)).2 fun visit hv => h visit (List.mem_cons_of_mem _ ?_)
      exact List.mem_flatMap.2 ⟨c, mem_visited.2 hc, hv⟩

/-- What holds below a node is what holds at every visit of its walk. -/
theorem everywhere_below_iff_walk {P : Node V → Prop} {node : Node V} :
    (∀ c ∈ node.children, Everywhere P c) ↔ ∀ visit ∈ node.walk, P visit.node := by
  simp only [walk_eq, List.mem_flatMap, mem_visited]
  constructor
  · rintro h visit ⟨c, hc, hv⟩
    exact (everywhere_iff_preorder c 0).1 (h c hc) visit hv
  · intro h c hc
    exact (everywhere_iff_preorder c 0).2 fun visit hv => h visit ⟨c, hc, hv⟩

/-- What a walk meets are the ends of chains. -/
theorem exists_walk_iff_chain (P : Node V → Prop) {node : Node V} :
    (∃ visit ∈ node.walk, P visit.node) ↔ ∃ above m, above ++ [m] ∈ node.chains ∧ P m := by
  have hnone : (∀ visit ∈ node.walk, ¬P visit.node) ↔
      ∀ above m, above ++ [m] ∈ node.chains → ¬P m := by
    refine (everywhere_below_iff_walk (P := fun m => ¬P m)).symm.trans
      ⟨fun h above m hm => ?_, everywhere_below_of_chains⟩
    obtain ⟨c, hc, hr⟩ := mem_chains_iff.1 hm
    exact ((h c hc).of_mem_route hr (List.mem_append_right above List.mem_cons_self)).here
  have hsome := not_congr hnone
  push Not at hsome
  exact hsome

/-- What the children have and every child inherits, the topmost nodes with a label have. -/
theorem of_mem_topmost {P : Node V → Prop} (hinherit : ∀ node, P node → ∀ c ∈ node.children, P c)
    {node m : Node V} {label : String} (h : ∀ c ∈ node.children, P c)
    (hm : m ∈ node.topmost label) : P m := by
  have hall : ∀ stack : List (Node V), (∀ n ∈ stack, P n) → ∀ m ∈ topmostFrom label stack, P m := by
    intro stack
    fun_induction topmostFrom label stack with
    | case1 => simp
    | case2 node stack hl ih =>
      intro hs m hm
      rcases List.mem_cons.1 hm with rfl | hm
      · exact hs m List.mem_cons_self
      · exact ih (fun n hn => hs n (List.mem_cons_of_mem _ hn)) m hm
    | case3 node stack hl ih =>
      intro hs m hm
      refine ih (fun n hn => ?_) m hm
      rcases List.mem_append.1 hn with hn | hn
      · rw [reverse_adjacent, mem_visited] at hn
        exact hinherit node (hs node List.mem_cons_self) n hn
      · exact hs n (List.mem_cons_of_mem _ hn)
  refine hall _ (fun c hc => h c ?_) m hm
  rwa [reverse_adjacent, mem_visited] at hc

/-- What holds everywhere below a node holds everywhere at its topmost nodes with a label. -/
theorem everywhere_of_mem_topmost {P : Node V → Prop} {node m : Node V} {label : String}
    (h : ∀ c ∈ node.children, c.Everywhere P) (hm : m ∈ node.topmost label) : m.Everywhere P :=
  of_mem_topmost (fun _ hall _ hc => hall.child hc) h hm

/-! ## Paths and chains -/

/-- A path that leads somewhere is the labels of a route behind its first node. -/
theorem exists_route_of_descend? {node found : Node V} {path : List String}
    (h : node.descend? path = some found) :
    ∃ route ∈ node.routes, labels route = node.label :: path ∧ route.getLast? = some found := by
  induction path generalizing node with
  | nil =>
    rw [descend?_nil, Option.some.injEq] at h
    subst h
    exact ⟨[node], singleton_mem_routes node, rfl, rfl⟩
  | cons name path ih =>
    rw [descend?_cons, Option.bind_eq_some_iff] at h
    obtain ⟨c, hc, h⟩ := h
    obtain ⟨hl, hmem⟩ := child?_eq_some hc
    obtain ⟨route, hr, hlabels, hlast⟩ := ih h
    refine ⟨node :: route, cons_mem_routes hmem hr, ?_, ?_⟩
    · rw [labels, List.map_cons, ← labels, hlabels, hl]
    · obtain ⟨rest, rfl⟩ := exists_cons_of_mem_routes hr
      rwa [List.getLast?_cons_cons]

/-- Where one child is kept per label, the labels of a route lead to its end. -/
theorem Keyed.descend?_of_mem_routes {node : Node V} (hk : node.Keyed) {route : List (Node V)}
    (hr : route ∈ node.routes) : node.descend? (labels route).tail = route.getLast? := by
  induction hk generalizing route with
  | @intro node hp hall ih =>
    rcases mem_routes_iff.1 hr with rfl | ⟨c, hc, rest, hrest, rfl⟩
    · rfl
    · obtain ⟨rest, rfl⟩ := exists_cons_of_mem_routes hrest
      have hfind := child?_of_mem hp.distinct hc
      rw [List.getLast?_cons_cons, ← ih c hc hrest]
      simp only [labels, List.map_cons, List.tail_cons, descend?_cons, hfind, Option.bind_some]

/-- Where one child is kept per label, the labels of a chain lead to its end. -/
theorem Keyed.descend?_of_mem_chains {node : Node V} (hk : node.Keyed) {chain : List (Node V)}
    (hc : chain ∈ node.chains) : node.descend? (labels chain) = chain.getLast? := by
  obtain ⟨c, hmem, hr⟩ := mem_chains_iff.1 hc
  have h := hk.descend?_of_mem_routes (cons_mem_routes hmem hr)
  obtain ⟨rest, rfl⟩ := exists_cons_of_mem_routes hr
  rwa [List.getLast?_cons_cons] at h

/-- Where one child is kept per label, the labels of a chain lead somewhere. -/
theorem Keyed.isSome_descend?_of_mem_chains {node : Node V} (hk : node.Keyed)
    {chain : List (Node V)} (hc : chain ∈ node.chains) :
    (node.descend? (labels chain)).isSome := by
  rw [hk.descend?_of_mem_chains hc, List.getLast?_isSome]
  exact ne_nil_of_mem_chains hc

/-- Every path that leads below a node is the labels of a chain to where it leads. -/
theorem exists_chain_of_descend? {node found : Node V} {path : List String} (hne : path ≠ [])
    (h : node.descend? path = some found) :
    ∃ chain ∈ node.chains, labels chain = path ∧ chain.getLast? = some found := by
  cases path with
  | nil => exact absurd rfl hne
  | cons name path =>
    rw [descend?_cons, Option.bind_eq_some_iff] at h
    obtain ⟨c, hc, h⟩ := h
    obtain ⟨hl, hmem⟩ := child?_eq_some hc
    obtain ⟨route, hr, hlabels, hlast⟩ := exists_route_of_descend? h
    exact ⟨route, mem_chains_iff.2 ⟨c, hmem, hr⟩, by rw [hlabels, hl], hlast⟩

end PathCensus.Node
