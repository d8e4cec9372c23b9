import PathCensus.Proofs.Tree.Rebuilding

/-!
# The walk of a tree that is built

What a builder of sequences has taken in can be read off it at any time: first what is closed below
the root, then the open nodes from the outermost one on, each with what is closed below it. Closing a
node does not change this list and a node that is attached comes to its end, so the walk of the tree
that is built lists the nodes as they came. Where nodes are translated one by one, the walk lists their
translations.
-/

namespace PathCensus

variable {V : Type}

/-- What a walk shows of a node: its depth, its label and its value. -/
def Visit.listed (visit : Visit V) : Nat × String × V :=
  (visit.depth, visit.node.label, visit.node.value)

namespace Node

/-- The node and all that is below it keep their children in order. -/
abbrev Sequential : Node V → Prop :=
  Everywhere fun node => node.layout = .sequence

/-- What a walk shows of all that is below a node whose children lie at some depth. -/
def listedBelow (node : Node V) (depth : Nat) : List (Nat × String × V) :=
  (node.visited.flatMap fun child => child.preorder depth).map Visit.listed

theorem map_listed_walk (node : Node V) : node.walk.map Visit.listed = node.listedBelow 0 := by
  rw [walk_eq]
  rfl

theorem map_listed_preorder (node : Node V) (depth : Nat) :
    (node.preorder depth).map Visit.listed =
      (depth, node.label, node.value) :: node.listedBelow (depth + 1) := by
  rw [preorder_eq]
  rfl

/-- A child that is added to a sequence is walked last. -/
theorem listedBelow_push {node child : Node V} (h : node.layout = .sequence) (depth : Nat) :
    (node.push child).listedBelow depth =
      node.listedBelow depth ++ (child.preorder depth).map Visit.listed := by
  simp [listedBelow, push, visited, inOrder, h]

theorem Sequential.push {node child : Node V} (h : node.Sequential) (hc : child.Sequential) :
    (node.push child).Sequential := by
  have hl := h.here
  have he : node.push child = { node with children := node.children ++ [child] } := by
    simp [Node.push, hl]
  rw [he]
  refine .intro hl fun d hd => ?_
  rcases List.mem_append.1 hd with hd | hd
  · exact h.child hd
  · exact List.mem_singleton.1 hd ▸ hc

/-! ## Nodes translated one by one -/

/-- A function translates a node: it goes through the children, leaves their order as it is and
changes what a walk shows of the node. -/
structure Translates {W : Type} (f : Node V → Node W) (change : String × V → String × W)
    (node : Node V) : Prop where
  /-- The children are kept as before. -/
  layout : (f node).layout = node.layout
  /-- The function goes through the children. -/
  children : (f node).children = node.children.map f
  /-- The label and the value are changed. -/
  shown : ((f node).label, (f node).value) = change (node.label, node.value)

section Translates

variable {W : Type} {f : Node V → Node W} {change : String × V → String × W}

private theorem listedBelow_of_map {node : Node V} {after : Node W}
    (hlayout : after.layout = node.layout) (hchildren : after.children = node.children.map f)
    (h : ∀ c ∈ node.children, ∀ depth, ((f c).preorder depth).map Visit.listed =
      ((c.preorder depth).map Visit.listed).map (Prod.map id change)) (depth : Nat) :
    after.listedBelow depth = (node.listedBelow depth).map (Prod.map id change) := by
  have hvisited : after.visited = node.visited.map f := by
    rw [visited, visited, hlayout, hchildren, inOrder_map]
  rw [listedBelow, listedBelow, hvisited, List.flatMap_map, List.map_flatMap, List.map_flatMap,
    List.map_flatMap]
  exact List.flatMap_congr fun c hc => h c (mem_visited.1 hc) depth

/-- A walk shows the changes in the order in which it showed the nodes. -/
theorem Everywhere.map_listed_preorder {node : Node V} (h : node.Everywhere (Translates f change))
    (depth : Nat) :
    ((f node).preorder depth).map Visit.listed =
      ((node.preorder depth).map Visit.listed).map (Prod.map id change) := by
  induction h generalizing depth with
  | @intro node ht _ ih =>
    rw [Node.map_listed_preorder, Node.map_listed_preorder, List.map_cons,
      listedBelow_of_map ht.layout ht.children ih]
    exact congrArg (fun shown => (depth, shown) :: _) ht.shown

/-- The same for what is below a root, whatever becomes of the root. -/
theorem map_listed_walk_of_translates {node : Node V} {after : Node W}
    (hlayout : after.layout = node.layout) (hchildren : after.children = node.children.map f)
    (h : ∀ c ∈ node.children, c.Everywhere (Translates f change)) :
    after.walk.map Visit.listed = (node.walk.map Visit.listed).map (Prod.map id change) := by
  rw [map_listed_walk, map_listed_walk]
  exact listedBelow_of_map hlayout hchildren (fun c hc => (h c hc).map_listed_preorder) 0

end Translates

mutual

/-- The tree with changed values. -/
def mapValues {W : Type} (g : V → W) : Node V → Node W
  | ⟨label, value, layout, children⟩ => ⟨label, g value, layout, mapValuesEach g children⟩

/-- Several trees with changed values. -/
def mapValuesEach {W : Type} (g : V → W) : List (Node V) → List (Node W)
  | [] => []
  | node :: rest => node.mapValues g :: mapValuesEach g rest

end

theorem mapValues_eq {W : Type} (g : V → W) (node : Node V) :
    node.mapValues g =
      ⟨node.label, g node.value, node.layout, node.children.map (mapValues g)⟩ := by
  have heach : ∀ nodes : List (Node V), mapValuesEach g nodes = nodes.map (mapValues g) := by
    intro nodes
    induction nodes with
    | nil => rfl
    | cons node rest ih => rw [mapValuesEach, ih, List.map_cons]
  cases node
  rw [mapValues, heach]

/-- A tree whose values do not change stays as it is. -/
theorem Everywhere.mapValues_eq_self {g : V → V} {node : Node V}
    (h : node.Everywhere fun n => g n.value = n.value) : node.mapValues g = node := by
  induction h with
  | @intro node hvalue _ ih =>
    rw [mapValues_eq, hvalue, List.map_congr_left ih, List.map_id']
    cases node
    rfl

theorem mapValues_id (node : Node V) : node.mapValues id = node :=
  (Everywhere.of_forall (fun _ => rfl) node).mapValues_eq_self

/-- A walk shows the changed values under the old labels. -/
theorem map_listed_walk_mapValues {W : Type} (g : V → W) (node : Node V) :
    (node.mapValues g).walk.map Visit.listed =
      (node.walk.map Visit.listed).map (Prod.map id (Prod.map id g)) := by
  have htranslates : ∀ node : Node V, Translates (mapValues g) (Prod.map id g) node := by
    intro node
    constructor <;> rw [mapValues_eq]
    rfl
  refine map_listed_walk_of_translates (htranslates node).layout (htranslates node).children ?_
  exact fun c _ => .of_forall htranslates c

/-- Sequences that are rebuilt change their values only. -/
theorem Sequential.rebuilt {W : Type} {node : Node V} (h : node.Sequential) (g : V → W) :
    node.rebuilt .sequence g = node.mapValues g := by
  induction h with
  | @intro node hl _ ih =>
    have hvisited : node.visited = node.children := by simp [visited, inOrder, hl]
    rw [rebuilt_eq, mapValues_eq, hvisited, hl, List.map_congr_left ih]

theorem sequential_leaf (label : String) (value : V) : (leaf label value .sequence).Sequential :=
  .intro rfl nofun

end Node

namespace Builder

/-- What a walk shows of the open nodes below the root, the innermost of which comes first, with all
that is closed below them. -/
def opened : List (Node V) → List (Nat × String × V)
  | [] => []
  | node :: above => opened above ++ (node.preorder above.length).map Visit.listed

/-- What the builder has taken in, in the order of a walk. -/
def listed (builder : Builder V) : List (Nat × String × V) :=
  builder.root.listedBelow 0 ++ opened builder.branch

/-- The leaves that stand for listed nodes, with their depths. -/
def leaves (layout : Layout) (items : List (Nat × String × V)) : List (Nat × Node V) :=
  items.map fun item => (item.1, .leaf item.2.1 item.2.2 layout)

variable {builder : Builder V}

/-! ## One node -/

theorem listed_closeOne (h : builder.All Node.Sequential) :
    builder.closeOne.listed = builder.listed := by
  obtain ⟨root, _ | ⟨node, _ | ⟨parent, above⟩⟩, accepted⟩ := builder
  · rfl
  · simp only [listed, Builder.closeOne, opened, Node.listedBelow_push h.root.here, List.length_nil,
      List.nil_append, List.append_nil]
  · have hparent := h.branch parent (by simp)
    simp only [listed, Builder.closeOne, opened, Node.map_listed_preorder, push_label, push_value,
      Node.listedBelow_push hparent.here, List.length_cons, List.append_assoc, List.cons_append]

theorem listed_close (h : builder.All Node.Sequential) (n : Nat) :
    (builder.close n).listed = builder.listed := by
  induction n generalizing builder with
  | zero => rfl
  | succ n ih => rw [close, ih (h.closeOne Node.Sequential.push), listed_closeOne h]

/-- A leaf that is attached comes to the end of the list. -/
theorem listed_attach (h : builder.All Node.Sequential) {depth : Nat}
    (hd : depth ≤ builder.branch.length) (label : String) (value : V) :
    (builder.attach depth (.leaf label value .sequence)).listed =
      builder.listed ++ [(depth, label, value)] := by
  have hclosed : (builder.closeTo depth).listed = builder.listed := listed_close h _
  have hlen : (builder.closeTo depth).branch.length = depth := length_branch_closeTo hd
  have hleaf : ((Node.leaf label value .sequence).preorder depth).map Visit.listed =
      [(depth, label, value)] := by
    rw [Node.map_listed_preorder]
    rfl
  rw [← hclosed, listed, attach]
  simp only [opened, hlen, hleaf, listed, List.append_assoc]

/-- When all is closed, the walk of the tree lists what was taken in. -/
theorem map_listed_walk_finish (h : builder.All Node.Sequential) :
    builder.finish.walk.map Visit.listed = builder.listed := by
  have hbranch : (builder.close builder.branch.length).branch = [] := by
    rw [← List.length_eq_zero_iff, length_branch_close, Nat.sub_self]
  rw [Node.map_listed_walk, finish, ← listed_close h builder.branch.length, listed, hbranch, opened,
    List.append_nil]

/-- The root keeps its label and its value, whatever is attached below it. -/
theorem root_finish_attachAll (builder : Builder V) (nodes : List (Nat × Node V)) :
    (builder.attachAll nodes).finish.label = builder.root.label ∧
      (builder.attachAll nodes).finish.value = builder.root.value := by
  induction nodes generalizing builder with
  | nil => exact root_close _ builder
  | cons node rest ih =>
    obtain ⟨hlabel, hvalue⟩ := ih (builder.attach node.1 node.2)
    obtain ⟨hlabel', hvalue'⟩ := root_close (builder.branch.length - node.1) builder
    exact ⟨hlabel.trans hlabel', hvalue.trans hvalue'⟩

/-- A tree of sequences is built from what its walk lists. -/
theorem finish_attachAll_listed {tree : Node V} (h : tree.Sequential) :
    ((start (.leaf tree.label tree.value .sequence)).attachAll
      (leaves .sequence (tree.walk.map Visit.listed))).finish = tree := by
  have hleaves : leaves .sequence (tree.walk.map Visit.listed) =
      entriesOf .sequence id tree.walk := by
    rw [leaves, List.map_map]
    rfl
  have happart : tree.Everywhere (·.Apart .sequence) := h.mono fun _ _ => .inl rfl
  rw [hleaves, finish_attachAll_walk happart]
  calc
    (⟨tree.label, tree.value, .sequence, tree.visited.map (Node.rebuilt .sequence id)⟩ : Node V) =
        tree.rebuilt .sequence id := (Node.rebuilt_eq .sequence id tree).symm
    _ = tree.mapValues id := h.rebuilt id
    _ = tree := tree.mapValues_id

/-- The depth of the node that was attached is the last one. -/
theorem lastDepth?_attach {depth : Nat} (hd : depth ≤ builder.branch.length) (node : Node V) :
    (builder.attach depth node).lastDepth? = some depth := by
  have hlen : (builder.closeTo depth).branch.length = depth := length_branch_closeTo hd
  exact congrArg some hlen

/-- As many nodes are open as the last depth says. -/
theorem length_branch_eq (builder : Builder V) :
    builder.branch.length = builder.lastDepth?.elim 0 (· + 1) := by
  rw [lastDepth?]
  cases builder.branch <;> rfl

/-! ## Nodes that fit one after another -/

/-- One more depth fits if it is at most one above the last. -/
theorem fits_append_singleton {limit depth : Nat} {depths : List Nat} :
    Fits limit (depths ++ [depth]) ↔
      Fits limit depths ∧ depth ≤ depths.getLast?.elim limit (· + 1) := by
  induction depths generalizing limit with
  | nil => simp [Fits]
  | cons first rest ih =>
    have hlast : (first :: rest).getLast?.elim limit (· + 1) =
        rest.getLast?.elim (first + 1) (· + 1) := by
      cases rest <;> rfl
    rw [List.cons_append, Fits, ih, Fits, hlast, and_assoc]

/-- Depths fit exactly if the first is within the limit and each is at most one above the one
before it. -/
theorem fits_iff {limit : Nat} {depths : List Nat} :
    Fits limit depths ↔
      (∀ first ∈ depths.head?, first ≤ limit) ∧
        depths.IsChain fun before after => after ≤ before + 1 := by
  induction depths generalizing limit with
  | nil => simp [Fits]
  | cons first rest ih =>
    rw [Fits, ih]
    cases rest <;> simp

/-- The last of nodes that fit gives the last depth. -/
theorem lastDepth?_attachAll {nodes : List (Nat × Node V)}
    (hfits : Fits builder.branch.length (nodes.map Prod.fst)) :
    (builder.attachAll nodes).lastDepth? =
      (nodes.map Prod.fst).getLast?.or builder.lastDepth? := by
  induction nodes generalizing builder with
  | nil => rfl
  | cons n rest ih =>
    obtain ⟨hd, hrest⟩ := hfits
    rw [← length_branch_attach hd n.2] at hrest
    refine (ih hrest).trans ?_
    rw [lastDepth?_attach hd, List.map_cons, List.getLast?_cons]
    cases (rest.map Prod.fst).getLast? <;> rfl

theorem map_fst_leaves (layout : Layout) (items : List (Nat × String × V)) :
    (leaves layout items).map Prod.fst = items.map Prod.fst := by
  rw [leaves, List.map_map]
  rfl

/-- What fits is listed as it came. -/
theorem attachAll_leaves {items : List (Nat × String × V)} (h : builder.All Node.Sequential)
    (hfits : Fits builder.branch.length (items.map Prod.fst)) :
    (builder.attachAll (leaves .sequence items)).All Node.Sequential ∧
      (builder.attachAll (leaves .sequence items)).listed = builder.listed ++ items := by
  induction items generalizing builder with
  | nil => exact ⟨h, (List.append_nil _).symm⟩
  | cons item rest ih =>
    obtain ⟨depth, label, value⟩ := item
    obtain ⟨hd, hrest⟩ := hfits
    have hnext := h.attach Node.Sequential.push depth (Node.sequential_leaf label value)
    rw [← length_branch_attach hd (.leaf label value .sequence)] at hrest
    obtain ⟨hall, hlisted⟩ := ih hnext hrest
    refine ⟨hall, hlisted.trans ?_⟩
    rw [listed_attach h hd, List.append_assoc, List.singleton_append]

end Builder

end PathCensus
