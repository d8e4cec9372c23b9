import PathCensus.Proofs.Tree.Replacing
import PathCensus.Proofs.Tree.Routes
import PathCensus.Tree.Builder

/-!
# Building a tree from its walk

A node that fits closes all open nodes at its depth or deeper and becomes the innermost one. When
the preorder of a node has come in and what is deeper than the node's parent is closed, the parent
has one child more: the node with its children in the order of the walk. So building from the walk
of a tree gives the tree back, up to the layout of the nodes and the order of the children.
-/

namespace PathCensus

variable {V W : Type}

namespace Node

/-- The tree that is built from the walk of a tree: all nodes have one layout, the children come in
the order of the walk, and `g` changes the values. -/
def rebuilt (layout : Layout) (g : V → W) (node : Node V) : Node W :=
  node.fold fun node below => ⟨node.label, g node.value, layout, below⟩

theorem rebuilt_eq (layout : Layout) (g : V → W) (node : Node V) :
    node.rebuilt layout g =
      ⟨node.label, g node.value, layout, node.visited.map (rebuilt layout g)⟩ := by
  rw [rebuilt, fold_eq]
  rfl

@[simp] theorem rebuilt_label (layout : Layout) (g : V → W) (node : Node V) :
    (node.rebuilt layout g).label = node.label := by
  rw [rebuilt_eq]

@[simp] theorem rebuilt_value (layout : Layout) (g : V → W) (node : Node V) :
    (node.rebuilt layout g).value = g node.value := by
  rw [rebuilt_eq]

theorem nodup_labels_visited {node : Node V} :
    (node.visited.map label).Nodup ↔ (node.children.map label).Nodup := by
  cases h : node.layout <;> simp [visited, inOrder, h, List.nodup_reverse]

/-- Among distinct labels the order of the children makes no difference. -/
theorem find?_visited {node : Node V} (hd : (node.children.map label).Nodup)
    (name : String) : node.visited.find? (fun c => c.label = name) = node.child? name := by
  cases hf : node.child? name with
  | none =>
    refine List.find?_eq_none.2 fun c hc => ?_
    simpa using child?_eq_none_iff.1 hf c (mem_visited.1 hc)
  | some c =>
    obtain ⟨rfl, hc⟩ := child?_eq_some hf
    have hfind : ({ node with children := node.visited } : Node V).child? c.label = some c :=
      child?_of_mem (nodup_labels_visited.2 hd) (mem_visited.2 hc)
    exact hfind

/-- Where one child is kept per label, paths lead in the rebuilt tree to what they led to before,
rebuilt. -/
theorem Keyed.descend?_rebuilt {node : Node V} (hk : node.Keyed) (layout : Layout) (g : V → W)
    (path : List String) :
    (node.rebuilt layout g).descend? path = (node.descend? path).map (rebuilt layout g) := by
  induction path generalizing node with
  | nil => rfl
  | cons name path ih =>
    have hchild : (node.rebuilt layout g).child? name =
        (node.child? name).map (rebuilt layout g) := by
      have hlabel : (fun c : Node W => decide (c.label = name)) ∘ rebuilt layout g =
          fun c => decide (c.label = name) := by
        ext c
        rw [Function.comp_apply, rebuilt_label]
      rw [← find?_visited hk.here.distinct, rebuilt_eq, child?, List.find?_map, hlabel]
    rw [descend?_cons, descend?_cons, hchild]
    cases hf : node.child? name with
    | none => rfl
    | some c => exact ih (hk.child (child?_eq_some hf).2)

/-- The values at the ends of paths change as the rebuilding says. -/
theorem Keyed.valueAt?_rebuilt {node : Node V} (hk : node.Keyed) (layout : Layout) (g : V → W)
    (path : List String) :
    (node.rebuilt layout g).valueAt? path = (node.valueAt? path).map g := by
  rw [valueAt?, valueAt?, hk.descend?_rebuilt]
  cases node.descend? path with
  | none => rfl
  | some m => simp

/-- What the rebuilding makes of a property of nodes holds everywhere in the rebuilt tree. -/
theorem Everywhere.rebuilt {P : Node V → Prop} {Q : Node W → Prop} {layout : Layout} {g : V → W}
    {node : Node V} (h : node.Everywhere P) (hstep : ∀ n, P n → Q (n.rebuilt layout g)) :
    (node.rebuilt layout g).Everywhere Q := by
  induction h with
  | @intro node hp hall ih =>
    refine .intro (hstep node hp) fun c hc => ?_
    rw [rebuilt_eq] at hc
    obtain ⟨d, hd, rfl⟩ := List.mem_map.1 hc
    exact ih d (mem_visited.1 hd)

theorem map_label_children_rebuilt (layout : Layout) (g : V → W) (node : Node V) :
    (node.rebuilt layout g).children.map label = node.visited.map label := by
  simp [rebuilt_eq layout g node, Function.comp_def]

/-- Rebuilding as keyed nodes keeps one child per label. -/
theorem Keyed.rebuilt {node : Node V} (hk : node.Keyed) (g : V → W) :
    (node.rebuilt .keyed g).Keyed := by
  refine Everywhere.rebuilt hk fun n hn => ⟨by rw [rebuilt_eq], ?_⟩
  rw [map_label_children_rebuilt]
  exact nodup_labels_visited.2 hn.distinct

/-- Keyed nodes that are rebuilt twice are what they were. -/
theorem Keyed.rebuilt_rebuilt {node : Node V} (hk : node.Keyed) :
    (node.rebuilt .keyed id).rebuilt .keyed id = node := by
  induction hk with
  | @intro node hp hall ih =>
    obtain ⟨label, value, layout, children⟩ := node
    obtain rfl : layout = .keyed := hp.layout
    have hback : (children.map (Node.rebuilt .keyed id)).map (Node.rebuilt .keyed id) = children := by
      rw [List.map_map]
      exact (List.map_congr_left ih).trans (List.map_id _)
    rw [rebuilt_eq, rebuilt_eq]
    simp only [visited, inOrder, id, List.map_reverse, List.reverse_reverse, hback]

/-- Children that a layout keeps apart: any in a sequence, those with distinct labels else. -/
def Apart (layout : Layout) (node : Node V) : Prop :=
  layout = .sequence ∨ (node.children.map label).Nodup

/-- Keyed nodes keep their children apart in any layout. -/
theorem IsKeyed.apart {node : Node V} (h : node.IsKeyed) (layout : Layout) : node.Apart layout :=
  .inr h.distinct

/-- Added one after another, children that are kept apart all come to the end. -/
theorem foldl_push (node : Node V) {added : List (Node V)}
    (h : node.layout = .sequence ∨ ((node.children ++ added).map label).Nodup) :
    added.foldl push node = { node with children := node.children ++ added } := by
  induction added generalizing node with
  | nil =>
    rw [List.foldl_nil, List.append_nil]
    cases node
    rfl
  | cons c rest ih =>
    have hpush : node.push c = { node with children := node.children ++ [c] } := by
      rcases h with hl | hd
      · simp [push, hl]
      · refine push_of_new (child?_eq_none_iff.2 fun d hd' he => ?_)
        rw [List.map_append, List.nodup_append] at hd
        exact hd.2.2 _ (List.mem_map_of_mem hd') _ (List.mem_map_of_mem List.mem_cons_self) he
    rw [List.foldl_cons, hpush, ih _ (by simpa using h)]
    simp

/-- Added one after another, the rebuilt children of a node that keeps them apart are all there. -/
theorem Apart.foldl_push_visited {layout : Layout} {node : Node V} (h : node.Apart layout)
    (g : V → W) (name : String) (value : W) :
    (node.visited.map (rebuilt layout g)).foldl Node.push (.leaf name value layout) =
      ⟨name, value, layout, node.visited.map (rebuilt layout g)⟩ := by
  rw [foldl_push]
  · rfl
  · rcases h with hseq | hdist
    · exact .inl hseq
    · apply Or.inr
      simpa [leaf, Function.comp_def] using nodup_labels_visited.2 hdist

/-- Added one after another to a keyed node without children, each label has its first place and its
last child. -/
theorem foldl_push_keyed (label : String) (value : V) (added : List (Node V)) :
    added.foldl push (.leaf label value .keyed) =
      ⟨label, value, .keyed, Replacing.ofList Node.label added⟩ := by
  induction added using List.reverseRecOn with
  | nil => rfl
  | append_singleton rest child ih =>
    rw [List.foldl_append, ih, Replacing.ofList_concat]
    rfl

/-- Adding a child with one child per label to such a node leaves one child per label. -/
theorem Keyed.push {node child : Node V} (h : node.Keyed) (hc : child.Keyed) :
    (node.push child).Keyed := by
  have hl := h.here.layout
  have hpush : node.push child =
      { node with children := Replacing.put label node.children child } := by
    unfold Node.push
    rw [hl]
  rw [hpush]
  refine .intro ⟨hl, Replacing.nodup_put h.here.distinct child⟩ fun d hd => ?_
  rcases Replacing.mem_put hd with hd | rfl
  · exact h.child hd
  · exact hc

end Node

namespace Builder

/-- Close all nodes that are `depth` or deeper. -/
def closeTo (builder : Builder V) (depth : Nat) : Builder V :=
  builder.close (builder.branch.length - depth)

/-- Take a node that fits as the innermost one. -/
def attach (builder : Builder V) (depth : Nat) (node : Node V) : Builder V :=
  let closed := builder.closeTo depth
  { closed with branch := node :: closed.branch, accepted := closed.accepted + 1 }

/-- Take nodes that fit one after another. -/
def attachAll (builder : Builder V) (nodes : List (Nat × Node V)) : Builder V :=
  nodes.foldl (fun builder n => builder.attach n.1 n.2) builder

/-- Change the innermost open node, which is the root if no other is open, after `count` nodes were
accepted. -/
def grow (f : Node V → Node V) (count : Nat) (builder : Builder V) : Builder V :=
  match builder.branch with
  | [] => { builder with root := f builder.root, accepted := builder.accepted + count }
  | node :: above =>
    { builder with branch := f node :: above, accepted := builder.accepted + count }

/-- Depths that fit one after another when `limit` nodes are open. -/
def Fits : Nat → List Nat → Prop
  | _, [] => True
  | limit, depth :: depths => depth ≤ limit ∧ Fits (depth + 1) depths

/-- A node is accepted exactly if it is not too deep. -/
theorem pushAt_eq (builder : Builder V) (position depth : Nat) (node : Node V) :
    builder.pushAt position depth node =
      if depth ≤ builder.branch.length then .ok (builder.attach depth node)
      else .error ⟨position, depth, builder.lastDepth?⟩ := rfl

theorem attachAll_append (builder : Builder V) (first second : List (Nat × Node V)) :
    builder.attachAll (first ++ second) = (builder.attachAll first).attachAll second :=
  List.foldl_append

/-! ## Closing -/

/-- Closing a node adds it to the one above. -/
theorem closeOne_cons (root node : Node V) (above : List (Node V)) (accepted : Nat) :
    (⟨root, node :: above, accepted⟩ : Builder V).closeOne =
      (⟨root, above, accepted⟩ : Builder V).grow (·.push node) 0 := by
  cases above <;> rfl

theorem length_branch_closeOne (builder : Builder V) :
    builder.closeOne.branch.length = builder.branch.length - 1 := by
  rcases hb : builder.branch with _ | ⟨node, _ | ⟨parent, above⟩⟩ <;> simp [closeOne, hb]

theorem length_branch_close (n : Nat) (builder : Builder V) :
    (builder.close n).branch.length = builder.branch.length - n := by
  induction n generalizing builder with
  | zero => rfl
  | succ n ih =>
    rw [close, ih, length_branch_closeOne]
    omega

theorem close_add (m n : Nat) (builder : Builder V) :
    builder.close (m + n) = (builder.close m).close n := by
  induction m generalizing builder with
  | zero => rw [Nat.zero_add, close]
  | succ m ih => rw [Nat.add_right_comm, close, ih, close]

theorem length_branch_closeTo {builder : Builder V} {depth : Nat}
    (h : depth ≤ builder.branch.length) : (builder.closeTo depth).branch.length = depth := by
  rw [closeTo, length_branch_close]
  omega

theorem closeTo_self {builder : Builder V} {depth : Nat} (h : builder.branch.length = depth) :
    builder.closeTo depth = builder := by
  rw [closeTo, h, Nat.sub_self, close]

/-- Closing further in two steps. -/
theorem closeTo_closeTo {builder : Builder V} {depth inner : Nat}
    (hle : depth ≤ inner) (h : inner ≤ builder.branch.length) :
    (builder.closeTo inner).closeTo depth = builder.closeTo depth := by
  rw [closeTo, length_branch_closeTo h, closeTo, ← close_add, closeTo]
  congr 1
  omega

theorem closeTo_succ {builder : Builder V} {depth : Nat} (h : depth + 1 ≤ builder.branch.length) :
    builder.closeTo depth = (builder.closeTo (depth + 1)).closeOne := by
  rw [← closeTo_closeTo (Nat.le_succ depth) h, closeTo, length_branch_closeTo h,
    Nat.add_sub_cancel_left, close, close]

theorem length_branch_attach {builder : Builder V} {depth : Nat}
    (h : depth ≤ builder.branch.length) (node : Node V) :
    (builder.attach depth node).branch.length = depth + 1 := by
  rw [attach, List.length_cons, length_branch_closeTo h]

/-! ## The preorder of a node -/

/-- What a walk hands to the builder. -/
def entriesOf (layout : Layout) (g : V → W) (visits : List (Visit V)) : List (Nat × Node W) :=
  visits.map fun visit => (visit.depth, .leaf visit.node.label (g visit.node.value) layout)

private theorem grow_grow (f h : Node V → Node V) (m n : Nat) (builder : Builder V) :
    (builder.grow f m).grow h n = builder.grow (h ∘ f) (m + n) := by
  cases hb : builder.branch <;> simp [grow, hb, Nat.add_assoc]

private theorem grow_self (builder : Builder V) : builder.grow id 0 = builder := by
  obtain ⟨root, branch, accepted⟩ := builder
  cases branch <;> rfl

/-- Where its preorder fits, a node stays open and leaves what is above it as it was, but for one
more child: once all below its parent is closed, the parent has the rebuilt node. -/
def ComesIn (layout : Layout) (g : V → W) (node : Node V) : Prop :=
  ∀ (builder : Builder W) (depth : Nat), depth ≤ builder.branch.length →
    depth + 1 ≤ (builder.attachAll (entriesOf layout g (node.preorder depth))).branch.length ∧
      (builder.attachAll (entriesOf layout g (node.preorder depth))).closeTo depth =
        (builder.closeTo depth).grow (·.push (node.rebuilt layout g)) node.size

variable {layout : Layout} {g : V → W}

/-- Nodes that come in one after another at one depth become children of one node, which stays
open. -/
theorem closeTo_attachAll_forest {nodes : List (Node V)} (h : ∀ c ∈ nodes, ComesIn layout g c)
    {builder : Builder W} {depth : Nat} (hd : depth ≤ builder.branch.length) :
    depth ≤ (builder.attachAll
        (entriesOf layout g (nodes.flatMap fun c => c.preorder depth))).branch.length ∧
      (builder.attachAll
          (entriesOf layout g (nodes.flatMap fun c => c.preorder depth))).closeTo depth =
        (builder.closeTo depth).grow
          (fun top => (nodes.map (Node.rebuilt layout g)).foldl Node.push top)
          (sumBy Node.size nodes) := by
  induction nodes generalizing builder with
  | nil => exact ⟨hd, (grow_self _).symm⟩
  | cons c rest ih =>
    rw [List.forall_mem_cons] at h
    obtain ⟨hlen, hc⟩ := h.1 builder depth hd
    obtain ⟨hlen', hr⟩ := ih h.2 (Nat.le_of_succ_le hlen)
    rw [List.flatMap_cons, entriesOf, List.map_append, attachAll_append]
    refine ⟨hlen', hr.trans ?_⟩
    rw [hc, grow_grow]
    rfl

/-- When the preorder of a node has come in and all below its parent is closed, the parent has the
rebuilt node as one more child. -/
theorem closeTo_attachAll_preorder {node : Node V} (ha : node.Everywhere (·.Apart layout)) :
    ComesIn layout g node := by
  induction ha with
  | @intro node hp _ ih =>
    intro builder depth hd
    have hq : (builder.attach depth (.leaf node.label (g node.value) layout)).branch.length =
        depth + 1 := length_branch_attach hd _
    obtain ⟨hlen, hclosed⟩ := closeTo_attachAll_forest
      (fun c hc => ih c (Node.mem_visited.1 hc)) (Nat.le_of_eq hq.symm)
    rw [Node.preorder_eq]
    refine ⟨hlen, (closeTo_succ hlen).trans ?_⟩
    rw [hclosed, closeTo_self hq, attach, grow]
    simp only [hp.foldl_push_visited, ← Node.rebuilt_eq, closeOne_cons, Node.sumBy_visited,
      Node.size_eq node]
    cases hb : (builder.closeTo depth).branch with
    | nil =>
      simp only [grow, hb]
      congr 1
      omega
    | cons parent above =>
      simp only [grow, hb]
      congr 1
      omega

/-! ## Whole walks -/

/-- With more open nodes, depths still fit. -/
theorem Fits.mono {m n : Nat} {depths : List Nat} (h : Fits m depths) (hle : m ≤ n) :
    Fits n depths := by
  cases depths with
  | nil => trivial
  | cons depth depths => exact ⟨Nat.le_trans h.1 hle, h.2⟩

/-- The depths of a preorder fit where the depth of its node does. -/
theorem fits_preorder (node : Node V) {limit depth : Nat} (hd : depth ≤ limit)
    {depths : List Nat} (h : Fits (depth + 1) depths) :
    Fits limit ((node.preorder depth).map Visit.depth ++ depths) := by
  induction node using Node.inductionOn generalizing limit depth depths with
  | step node ih =>
    have hforest : ∀ nodes : List (Node V), (∀ c ∈ nodes, c ∈ node.children) →
        Fits (depth + 1)
          ((nodes.flatMap fun c => c.preorder (depth + 1)).map Visit.depth ++ depths) := by
      intro nodes hnodes
      induction nodes with
      | nil => exact h
      | cons c rest ihr =>
        rw [List.flatMap_cons, List.map_append, List.append_assoc]
        refine ih c (hnodes c List.mem_cons_self) (Nat.le_refl _) (Fits.mono ?_ (Nat.le_succ _))
        exact ihr fun d hd => hnodes d (List.mem_cons_of_mem c hd)
    rw [Node.preorder_eq]
    exact ⟨hd, hforest node.visited fun c hc => Node.mem_visited.1 hc⟩

/-- The depths of a walk fit from the start. -/
theorem fits_walk (node : Node V) : Fits 0 (node.walk.map Visit.depth) := by
  rw [Node.walk_eq]
  induction node.visited with
  | nil => trivial
  | cons c rest ih =>
    rw [List.flatMap_cons, List.map_append]
    exact fits_preorder c (Nat.le_refl 0) (ih.mono (Nat.zero_le 1))

/-- Building from the walk of a tree gives the tree, rebuilt below the given root. -/
theorem finish_attachAll_walk {layout : Layout} {g : V → W} {node : Node V}
    (ha : node.Everywhere (·.Apart layout)) (label : String) (value : W) :
    ((start (.leaf label value layout)).attachAll (entriesOf layout g node.walk)).finish =
      ⟨label, value, layout, node.visited.map (Node.rebuilt layout g)⟩ := by
  have hcome : ∀ c ∈ node.visited, ComesIn layout g c := fun c hc =>
    closeTo_attachAll_preorder (ha.child (Node.mem_visited.1 hc))
  obtain ⟨-, hclosed⟩ := closeTo_attachAll_forest hcome
    (Nat.zero_le (start (.leaf label value layout)).branch.length)
  rw [Node.walk_eq]
  exact (congrArg Builder.root hclosed).trans (ha.here.foldl_push_visited g label value)

/-! ## Builders of nodes with a property -/

/-- The root has a property, and so have the open nodes below it. -/
structure All (P : Node V → Prop) (builder : Builder V) : Prop where
  /-- The root has the property. -/
  root : P builder.root
  /-- The other open nodes have it. -/
  branch : ∀ node ∈ builder.branch, P node

section

variable {P : Node V → Prop} {builder : Builder V}

theorem All.closeOne (h : builder.All P)
    (hpush : ∀ {node child : Node V}, P node → P child → P (node.push child)) :
    builder.closeOne.All P := by
  obtain ⟨root, _ | ⟨node, _ | ⟨parent, above⟩⟩, accepted⟩ := builder
  · exact h
  · exact ⟨hpush h.root (h.branch node (by simp)), by simp [Builder.closeOne]⟩
  · have hnode := h.branch node (by simp)
    have hparent := h.branch parent (by simp)
    refine ⟨h.root, fun n hn => ?_⟩
    rcases List.mem_cons.1 hn with rfl | hn
    · exact hpush hparent hnode
    · exact h.branch n (by simp [hn])

theorem All.close (h : builder.All P)
    (hpush : ∀ {node child : Node V}, P node → P child → P (node.push child)) (n : Nat) :
    (builder.close n).All P := by
  induction n generalizing builder with
  | zero => exact h
  | succ n ih => exact ih (h.closeOne hpush)

theorem All.finish (h : builder.All P)
    (hpush : ∀ {node child : Node V}, P node → P child → P (node.push child)) :
    P builder.finish :=
  (h.close hpush builder.branch.length).root

theorem All.attach (h : builder.All P)
    (hpush : ∀ {node child : Node V}, P node → P child → P (node.push child))
    (depth : Nat) {node : Node V} (hn : P node) : (builder.attach depth node).All P := by
  have hc := h.close hpush (builder.branch.length - depth)
  refine ⟨hc.root, fun m hm => ?_⟩
  rcases List.mem_cons.1 hm with rfl | hm
  · exact hn
  · exact hc.branch m hm

end

theorem push_label (node child : Node V) : (node.push child).label = node.label := by
  cases h : node.layout <;> simp [Node.push, h]

theorem push_value (node child : Node V) : (node.push child).value = node.value := by
  cases h : node.layout <;> simp [Node.push, h]

/-- Closing keeps the label and the value of the root. -/
theorem root_close (n : Nat) (builder : Builder V) :
    (builder.close n).root.label = builder.root.label ∧
      (builder.close n).root.value = builder.root.value := by
  induction n generalizing builder with
  | zero => exact ⟨rfl, rfl⟩
  | succ n ih =>
    rw [close, (ih _).1, (ih _).2]
    obtain ⟨root, _ | ⟨node, _ | ⟨parent, above⟩⟩, accepted⟩ := builder
    · exact ⟨rfl, rfl⟩
    · exact ⟨push_label root node, push_value root node⟩
    · exact ⟨rfl, rfl⟩

/-! ## Builders of keyed nodes -/

/-- The open nodes keep one child per label throughout, below a root with the given label and
value. -/
structure KeepsKeyed (label : String) (value : V) (builder : Builder V) : Prop where
  /-- The root keeps its label. -/
  root_label : builder.root.label = label
  /-- The root keeps its value. -/
  root_value : builder.root.value = value
  /-- The root keeps one child per label. -/
  root_keyed : builder.root.Keyed
  /-- The other open nodes keep one child per label. -/
  branch_keyed : ∀ node ∈ builder.branch, node.Keyed

variable {label : String} {value : V}

theorem KeepsKeyed.all {builder : Builder V} (h : builder.KeepsKeyed label value) :
    builder.All Node.Keyed :=
  ⟨h.root_keyed, h.branch_keyed⟩

theorem KeepsKeyed.close {builder : Builder V} (h : builder.KeepsKeyed label value) (n : Nat) :
    (builder.close n).KeepsKeyed label value := by
  obtain ⟨hlabel, hvalue⟩ := root_close n builder
  have hall := h.all.close Node.Keyed.push n
  exact ⟨hlabel.trans h.root_label, hvalue.trans h.root_value, hall.root, hall.branch⟩

theorem KeepsKeyed.attach {builder : Builder V} (h : builder.KeepsKeyed label value)
    (depth : Nat) {node : Node V} (hn : node.Keyed) :
    (builder.attach depth node).KeepsKeyed label value := by
  have hc := h.close (builder.branch.length - depth)
  have hall := h.all.attach Node.Keyed.push depth hn
  exact ⟨hc.root_label, hc.root_value, hall.root, hall.branch⟩

/-- A fresh keyed node keeps one child per label. -/
theorem keyed_leaf (name : String) (v : V) : (Node.leaf name v .keyed).Keyed :=
  .intro ⟨rfl, List.nodup_nil⟩ nofun

theorem keepsKeyed_start (name : String) (v : V) :
    (start (.leaf name v .keyed)).KeepsKeyed name v :=
  ⟨rfl, rfl, keyed_leaf name v, nofun⟩

end Builder

end PathCensus
