import Mathlib.Logic.Relation
import PathCensus.Proofs.Tree.Normalizing

/-!
# The search for literals

Literals are searched with a stack of nodes. The children of the node on top are renamed, and those
that are left come on top of the stack. Nodes on the stack do not lie below each other, so when one is
taken off, nothing below it has changed. By then all that came above it on the stack is normalized,
and nothing else has changed.
-/

namespace PathCensus

/-! ## Addresses -/

namespace Node

variable {V : Type} {f g : Node V → Node V}

theorem at?_append (tree : Node V) (first second : List Nat) :
    tree.at? (first ++ second) = (tree.at? first).bind fun node => node.at? second := by
  induction first generalizing tree with
  | nil => rfl
  | cons i first ih =>
    rw [List.cons_append, at?, at?, Option.bind_assoc]
    exact congrArg _ (funext fun c => ih c)

theorem modifyAt_append (tree : Node V) (first second : List Nat) :
    modifyAt f (first ++ second) tree = modifyAt (modifyAt f second) first tree := by
  induction first generalizing tree with
  | nil => rfl
  | cons i first ih =>
    rw [List.cons_append, modifyAt, modifyAt]
    exact congrArg (fun change => { tree with children := tree.children.modify i change })
      (funext ih)

theorem modifyAt_id (tree : Node V) (address : List Nat) : modifyAt id address tree = tree := by
  induction address generalizing tree with
  | nil => rfl
  | cons i address ih =>
    have hid : modifyAt (V := V) id address = id := funext ih
    rw [modifyAt, hid, List.modify_id]
    cases tree
    rfl

/-- A change is seen at its address. -/
theorem at?_modifyAt (tree : Node V) (address : List Nat) :
    (modifyAt f address tree).at? address = (tree.at? address).map f := by
  induction address generalizing tree with
  | nil => rfl
  | cons i address ih =>
    rw [modifyAt, at?, at?, List.getElem?_modify_eq]
    cases tree.children[i]? with
    | none => rfl
    | some c => exact ih c

/-- A later change at an address works on the earlier one. -/
theorem modifyAt_modifyAt (tree : Node V) (address : List Nat) :
    modifyAt g address (modifyAt f address tree) = modifyAt (g ∘ f) address tree := by
  induction address generalizing tree with
  | nil => rfl
  | cons i address ih =>
    have hcomp : modifyAt g address ∘ modifyAt f address = modifyAt (g ∘ f) address := funext ih
    rw [modifyAt, modifyAt, modifyAt, List.modify_modify_eq, hcomp]

/-- Only what a change makes of the node at the address matters. -/
theorem modifyAt_congr {tree node : Node V} {address : List Nat}
    (h : tree.at? address = some node) (hfg : f node = g node) :
    modifyAt f address tree = modifyAt g address tree := by
  induction address generalizing tree with
  | nil =>
    obtain rfl := Option.some.inj h
    exact hfg
  | cons i address ih =>
    obtain ⟨c, hc, hat⟩ := Option.bind_eq_some_iff.1 h
    have hmodify : tree.children.modify i (modifyAt f address) =
        tree.children.modify i (modifyAt g address) := by
      refine List.ext_getElem? fun j => ?_
      rw [List.getElem?_modify, List.getElem?_modify]
      by_cases hij : i = j
      · subst hij
        simp only [hc, if_true, Option.map_eq_map, Option.map_some, ih hat]
      · simp only [if_neg hij]
    rw [modifyAt, modifyAt, hmodify]

/-- The tree with other children at an address. -/
def withChildrenAt (address : List Nat) (children : List (Node V)) (tree : Node V) : Node V :=
  modifyAt (fun node => { node with children }) address tree

variable {tree node : Node V} {address : List Nat}

theorem at?_withChildrenAt (h : tree.at? address = some node) (children : List (Node V)) :
    (withChildrenAt address children tree).at? address = some { node with children } := by
  rw [withChildrenAt, at?_modifyAt, h, Option.map_some]

/-- The children that were put there last stay. -/
theorem withChildrenAt_withChildrenAt (first second : List (Node V)) :
    withChildrenAt address second (withChildrenAt address first tree) =
      withChildrenAt address second tree :=
  modifyAt_modifyAt tree address

theorem withChildrenAt_self (h : tree.at? address = some node) :
    withChildrenAt address node.children tree = tree := by
  refine (modifyAt_congr h ?_).trans (modifyAt_id tree address)
  cases node
  rfl

/-- Other children of a child are another child of the node. -/
theorem withChildrenAt_child (h : tree.at? address = some node) {before after : List (Node V)}
    {c : Node V} (hchildren : node.children = before ++ c :: after) (children : List (Node V)) :
    withChildrenAt (address ++ [before.length]) children tree =
      withChildrenAt address (before ++ { c with children } :: after) tree := by
  rw [withChildrenAt, modifyAt_append]
  refine modifyAt_congr h ?_
  rw [modifyAt, hchildren, modify_junction]
  rfl

end Node

namespace Literals

/-- A search for literals: how many were renamed, the tree by now, and the addresses of the nodes
whose children are still to be looked at, the next one first. -/
structure Search where
  /-- The number of renamed nodes. -/
  count : Nat
  /-- The tree with the nodes that were renamed. -/
  tree : Tree
  /-- The addresses of the nodes to be looked at. -/
  stack : List (List Nat)

/-- The addresses of children, as they are put on a stack: the last of them comes first. -/
def childAddresses (address : List Nat) (children : List Tree) : List (List Nat) :=
  ((List.range children.length).map fun i => address ++ [i]).reverse

/-- The children of the next node are renamed and counted, and those that are left are put on the
stack. -/
inductive Search.Step : Search → Search → Prop where
  /-- The node is in the tree. -/
  | look {count : Nat} {tree node : Tree} {address : List Nat} {stack : List (List Nat)} :
      tree.at? address = some node →
      Step ⟨count, tree, address :: stack⟩
        ⟨count + countQuoted node.children, Node.withChildrenAt address (survivors node) tree,
          childAddresses address (survivors node) ++ stack⟩

/-- What a search comes to after any number of nodes. -/
abbrev Search.Runs : Search → Search → Prop :=
  Relation.ReflTransGen Search.Step

/-- A search with the node on the stack comes to have all below it normalized and counted. -/
def Done (node : Tree) : Prop :=
  ∀ count tree address stack, tree.at? address = some node →
    Search.Runs ⟨count, tree, address :: stack⟩
      ⟨count + (normalize node).1, Node.withChildrenAt address (normalize node).2.children tree, stack⟩

/-- If each child is done by itself, all are done one after another, from the last to the first. -/
theorem runs_children {children : List Tree} (h : ∀ c ∈ children, Done c) {tree node : Tree}
    {address : List Nat} (hat : tree.at? address = some node) {behind : List Tree}
    (hchildren : node.children = children ++ behind) (count : Nat) (stack : List (List Nat)) :
    Search.Runs ⟨count, tree, childAddresses address children ++ stack⟩
      ⟨count + sumBy (fun c => (normalize c).1) children,
        Node.withChildrenAt address (children.map (fun c => (normalize c).2) ++ behind) tree,
        stack⟩ := by
  induction children using List.reverseRecOn generalizing tree node behind count with
  | nil =>
    rw [List.nil_append] at hchildren
    rw [List.map_nil, List.nil_append, ← hchildren, Node.withChildrenAt_self hat]
    exact .refl
  | append_singleton front c ih =>
    rw [List.append_assoc, List.singleton_append] at hchildren
    have hc : tree.at? (address ++ [front.length]) = some c := by
      rw [Node.at?_append, hat, Option.bind_some, Node.at?, hchildren,
        List.getElem?_append_right (Nat.le_refl _), Nat.sub_self]
      rfl
    have haddresses : childAddresses address (front ++ [c]) =
        (address ++ [front.length]) :: childAddresses address front := by
      simp [childAddresses, List.range_succ]
    have hlast := h c (by simp) count tree (address ++ [front.length])
      (childAddresses address front ++ stack) hc
    rw [Node.withChildrenAt_child hat hchildren, normalize_with_children] at hlast
    have hrest := ih (fun d hd => h d (List.mem_append_left _ hd))
      (Node.at?_withChildrenAt hat (front ++ (normalize c).2 :: behind)) rfl (count + (normalize c).1)
    rw [Node.withChildrenAt_withChildrenAt] at hrest
    have hcount : count + sumBy (fun c => (normalize c).1) (front ++ [c]) =
        count + (normalize c).1 + sumBy (fun c => (normalize c).1) front := by
      rw [sumBy_append, sumBy_cons, sumBy_nil]
      omega
    rw [haddresses, hcount, List.map_append, List.append_assoc]
    exact hlast.trans hrest

/-- Renaming leaves a node as large as it was. -/
theorem size_rename (node : Tree) : (rename node).size = node.size := by
  rw [Node.size_eq, Node.size_eq, children_rename]

/-- All below a node is normalized, whatever else is on the stack. -/
theorem done (node : Tree) : Done node := by
  induction hs : node.size using Nat.strongRecOn generalizing node with
  | ind size ih =>
    intro count tree address stack hat
    have hchildren : ∀ c ∈ survivors node, Done c := by
      intro c hc
      obtain ⟨child, hchild, rfl⟩ := exists_of_mem_survivors hc
      refine ih _ ?_ _ rfl
      rw [size_rename, ← hs]
      exact Node.size_lt_of_mem hchild
    obtain ⟨hcount, hafter⟩ := normalize_eq node
    have hruns := runs_children hchildren (Node.at?_withChildrenAt hat (survivors node))
      (List.append_nil _).symm (count + countQuoted node.children) stack
    rw [Node.withChildrenAt_withChildrenAt, List.append_nil, ← hafter, Nat.add_assoc, ← hcount]
      at hruns
    exact .head (.look hat) hruns

/-- A search goes on in one way only. -/
theorem Search.Step.unique {search first second : Search} (h : search.Step first)
    (h' : search.Step second) : first = second := by
  cases h with
  | look hat =>
    cases h' with
    | look hat' =>
      obtain rfl := Option.some.inj (hat.symm.trans hat')
      rfl

/-- The search that starts with the root comes to an end with the normalized tree and its count, and
to no other. -/
theorem runs_iff {tree after : Tree} {count : Nat} :
    Search.Runs ⟨0, tree, [[]]⟩ ⟨count, after, []⟩ ↔ (count, after) = normalize tree := by
  have hruns : Search.Runs ⟨0, tree, [[]]⟩ ⟨(normalize tree).1, (normalize tree).2, []⟩ := by
    have h := done tree 0 tree [] [] rfl
    rwa [Nat.zero_add, Node.withChildrenAt, Node.modifyAt, normalize_with_children] at h
  have hend : ∀ {count : Nat} {after : Tree} {search : Search},
      Search.Runs ⟨count, after, []⟩ search → search = ⟨count, after, []⟩ := by
    intro count after search h
    rcases Relation.ReflTransGen.cases_head h with rfl | ⟨_, hstep, _⟩
    · rfl
    · cases hstep
  constructor
  · intro h
    have hsame : (⟨count, after, []⟩ : Search) = ⟨(normalize tree).1, (normalize tree).2, []⟩ := by
      have hunique : Relator.RightUnique Search.Step := fun _ _ _ => Search.Step.unique
      rcases Relation.ReflTransGen.total_of_right_unique hunique h hruns with hmore | hmore
      · exact (hend hmore).symm
      · exact hend hmore
    obtain ⟨rfl, rfl, -⟩ := Search.mk.inj hsame
    rfl
  · intro h
    obtain ⟨rfl, rfl⟩ := Prod.mk.inj h
    exact hruns

/-- Normalizing leaves the root as it is, and no quoted label and no repeated label of children under
a keyed node below it; a second time it finds nothing. Of sequences every node stays in its place,
and all literals are renamed and counted. In any tree the children of each node are renamed first, and
only those that are left are searched further: this is what the search with a stack comes to. The
index of a keyed node is the one of its normalized children. -/
theorem normalize_complete (tree : Tree) :
    ((normalize tree).2.label = tree.label ∧ (normalize tree).2.value = tree.value ∧
        (normalize tree).2.layout = tree.layout) ∧
      (∀ visit ∈ (normalize tree).2.walk, ¬ IsQuoted visit.node.label) ∧
      (normalize tree).2.Everywhere Distinct ∧
      normalize (normalize tree).2 = (0, (normalize tree).2) ∧
      (tree.Sequential → (normalize tree).2.Sequential ∧
        List.Forall₂ Relabels tree.walk (normalize tree).2.walk ∧
        (normalize tree).1 = tree.walk.countP fun visit => IsQuoted visit.node.label) ∧
      (∀ node : Tree,
        (normalize node).1 = (node.children.countP fun c => IsQuoted c.label) +
            sumBy (fun c => (normalize c).1) (survivors node) ∧
          (normalize node).2.children = (survivors node).map fun c => (normalize c).2) ∧
      (∀ count after, Search.Runs ⟨0, tree, [[]]⟩ ⟨count, after, []⟩ ↔
        (count, after) = normalize tree) ∧
      (∀ node : Tree,
        (IsQuoted node.label → ∃ text : String, Unquotes node.label.toList text.toList ∧
          rename node = { node with label := literalLabel, value := some text }) ∧
        (¬ IsQuoted node.label → rename node = node)) ∧
      ∀ (node : Tree) index, node.layout = .keyed → node.IndexedBy index →
        (relabelled node index).items = survivors node ∧
          (normalize node).2.IndexedBy (relabelled node index).index := by
  have hbelow := unquoted_below tree
  refine ⟨⟨label_normalize tree, value_normalize tree, layout_normalize tree⟩, fun visit hv => ?_,
    everywhere_distinct tree, normalize_of_unquoted (everywhere_distinct tree) hbelow,
    fun h => ⟨h.normalize, relabels_walk h, count_of_sequential h⟩, fun node => ?_,
    fun _ _ => runs_iff,
    fun node => ⟨exists_rename_eq, fun hq => rename_eq_self (unquote?_eq_none_iff.2 hq)⟩,
    fun node index => relabelled_indexedBy⟩
  · exact unquote?_eq_none_iff.1 (Node.everywhere_below_iff_walk.1 hbelow visit hv)
  · rw [← countQuoted_eq]
    exact normalize_eq node

/-- A node with two literals and a name between them. -/
def printNode (layout : Layout) : Tree :=
  ⟨"Print", none, layout, [.leaf "'a'" none layout, .leaf "Name" none layout,
    ⟨"'b", none, layout, [.leaf "c'" none layout]⟩]⟩

/-- In a sequence all three literals are renamed. In a keyed node the second takes the place of the
first, with what is below it. -/
theorem normalize_complete_print :
    ((normalize (printNode .sequence)).1 = 3 ∧
        (normalize (printNode .sequence)).2.walk.map Visit.listed =
          [(0, "ValueStr", some "a"), (0, "Name", none), (0, "ValueStr", some "b"),
            (1, "ValueStr", some "c")]) ∧
      ((normalize (printNode .keyed)).1 = 3 ∧
        (normalize (printNode .keyed)).2.children =
          [⟨"ValueStr", some "b", .keyed, [.leaf "ValueStr" (some "c") .keyed]⟩,
            .leaf "Name" none .keyed]) ∧
      List.Forall₂ Relabels (printNode .sequence).walk (normalize (printNode .sequence)).2.walk ∧
      ∃ index, (printNode .keyed).IndexedBy index ∧
        (normalize (printNode .keyed)).2.IndexedBy (relabelled (printNode .keyed) index).index := by
  have hsequential : (printNode .sequence).Sequential := by
    refine .intro rfl ?_
    simp only [printNode, List.forall_mem_cons]
    refine ⟨.intro rfl nofun, .intro rfl nofun, .intro rfl ?_, nofun⟩
    exact List.forall_mem_singleton.2 (.intro rfl nofun)
  obtain ⟨index, hindex⟩ := Node.exists_index_iff.2
    (show ((printNode .keyed).children.map Node.label).Nodup by decide)
  obtain ⟨-, -, -, -, hplaces, -, -, -, hindexed⟩ := normalize_complete (printNode .sequence)
  exact ⟨by decide +kernel, by decide +kernel, (hplaces hsequential).2.1, index, hindex,
    (hindexed (printNode .keyed) index rfl hindex).2⟩

end Literals

end PathCensus
