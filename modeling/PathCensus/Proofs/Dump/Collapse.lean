import PathCensus.Proofs.Dump.Rereading
import PathCensus.Proofs.Tree.Replacing

/-!
# Reading into keyed nodes

Which lines are refused does not depend on how nodes keep their children. A builder adds a node to the
one above when it closes it, and all below the node is closed by then. So collapsing the open nodes,
where a later child takes the place of an earlier one with its label, commutes with each step of a
builder of sequences, and reading into keyed nodes gives what reading into sequences gives, collapsed.
-/

namespace PathCensus

variable {V : Type}

namespace Node

mutual

/-- The tree with one child per label at every node: bottom-up, a later child takes the place of an
earlier one with its label. -/
def collapse : Node V → Node V
  | ⟨label, value, _, children⟩ =>
    ⟨label, value, .keyed, Replacing.ofList Node.label (collapseEach children)⟩

/-- Several trees, each of them collapsed. -/
def collapseEach : List (Node V) → List (Node V)
  | [] => []
  | node :: rest => node.collapse :: collapseEach rest

end

theorem collapse_eq (node : Node V) :
    node.collapse =
      ⟨node.label, node.value, .keyed, Replacing.ofList label (node.children.map collapse)⟩ := by
  have heach : ∀ nodes : List (Node V), collapseEach nodes = nodes.map collapse := by
    intro nodes
    induction nodes with
    | nil => rfl
    | cons node rest ih => rw [collapseEach, ih, List.map_cons]
  cases node
  rw [collapse, heach]

@[simp] theorem collapse_label (node : Node V) : node.collapse.label = node.label := by
  rw [collapse_eq]

theorem collapse_leaf (label : String) (value : V) (layout : Layout) :
    (leaf label value layout).collapse = leaf label value .keyed := by
  rw [collapse_eq]
  rfl

/-- A child that is added to a sequence is collapsed and added to the collapsed node. -/
theorem collapse_push {node : Node V} (h : node.layout = .sequence) (child : Node V) :
    (node.push child).collapse = node.collapse.push child.collapse := by
  have hpush : node.push child = { node with children := node.children ++ [child] } := by
    unfold push
    rw [h]
  rw [hpush, collapse_eq, collapse_eq node, push, List.map_append, List.map_singleton,
    Replacing.ofList_concat]

/-- A collapsed node is made by adding its collapsed children one after another. -/
theorem collapse_eq_foldl_push (node : Node V) :
    node.collapse =
      (node.children.map collapse).foldl push (.leaf node.label node.value .keyed) := by
  rw [foldl_push_keyed, collapse_eq]

/-- The children of a collapsed node: each label in its first place with the last child that has it,
collapsed. -/
theorem children_collapse (node : Node V) :
    node.collapse.children =
      (node.children.map label).eraseDups.filterMap fun name =>
        (node.children.reverse.find? fun child => child.label = name).map collapse := by
  have hlabels : (node.children.map collapse).map label = node.children.map label := by
    simp [Function.comp_def]
  have hfind : ∀ name, (node.children.map collapse).reverse.find? (fun child => child.label = name) =
      (node.children.reverse.find? fun child => child.label = name).map collapse := by
    intro name
    rw [← List.map_reverse, List.find?_map]
    simp only [Function.comp_def, collapse_label]
  rw [collapse_eq, Replacing.ofList_eq, hlabels]
  simp only [hfind]

end Node

namespace Builder

variable {builder : Builder V}

/-- The builder with all its open nodes collapsed. -/
def collapse (builder : Builder V) : Builder V :=
  ⟨builder.root.collapse, builder.branch.map Node.collapse, builder.accepted⟩

/-- A sequence that is added to stays a sequence. -/
private theorem layout_push {node child : Node V} (h : node.layout = .sequence)
    (_ : child.layout = .sequence) : (node.push child).layout = .sequence := by
  unfold Node.push
  rw [h]

theorem collapse_closeOne (h : builder.All (·.layout = .sequence)) :
    builder.collapse.closeOne = builder.closeOne.collapse := by
  obtain ⟨root, _ | ⟨node, _ | ⟨parent, above⟩⟩, accepted⟩ := builder
  · rfl
  · simp only [collapse, closeOne, List.map_cons, List.map_nil, Node.collapse_push h.root]
  · have hparent := h.branch parent (by simp)
    simp only [collapse, closeOne, List.map_cons, Node.collapse_push hparent]

theorem collapse_close (h : builder.All (·.layout = .sequence)) (n : Nat) :
    builder.collapse.close n = (builder.close n).collapse := by
  induction n generalizing builder with
  | zero => rfl
  | succ n ih => rw [close, collapse_closeOne h, ih (h.closeOne layout_push), close]

theorem collapse_finish (h : builder.All (·.layout = .sequence)) :
    builder.collapse.finish = builder.finish.collapse := by
  have hlength : builder.collapse.branch.length = builder.branch.length := List.length_map _
  rw [finish, hlength, collapse_close h, finish]
  rfl

/-- A leaf that is attached is collapsed into a keyed leaf. -/
theorem collapse_attach (h : builder.All (·.layout = .sequence)) (depth : Nat) (label : String)
    (value : V) :
    builder.collapse.attach depth (.leaf label value .keyed) =
      (builder.attach depth (.leaf label value .sequence)).collapse := by
  have hlength : builder.collapse.branch.length = builder.branch.length := List.length_map _
  rw [attach, closeTo, hlength, collapse_close h, attach, closeTo]
  simp only [collapse, List.map_cons, Node.collapse_leaf]

end Builder

namespace Dump

/-- Entries are built into keyed nodes as they are into sequences, up to the collapse. -/
theorem build_collapse {builder : Builder V} (h : builder.All (·.layout = .sequence))
    (items : List (Except ReadFault (Entry V))) :
    build .keyed builder.collapse items = (build .sequence builder items).map Node.collapse := by
  induction items generalizing builder with
  | nil => exact congrArg Except.ok (Builder.collapse_finish h)
  | cons item rest ih =>
    cases item with
    | error fault => rfl
    | ok entry =>
      have hlength : builder.collapse.branch.length = builder.branch.length := List.length_map _
      have hlast : builder.collapse.lastDepth? = builder.lastDepth? := by
        rw [Builder.lastDepth?, Builder.lastDepth?]
        obtain ⟨root, _ | ⟨node, above⟩, accepted⟩ := builder
        · rfl
        · exact congrArg some (List.length_map _)
      rw [build, build, Builder.pushAt_eq, Builder.pushAt_eq, hlength]
      by_cases hd : entry.depth ≤ builder.branch.length
      · simp only [if_pos hd]
        rw [Builder.collapse_attach h]
        apply ih
        exact h.attach Builder.layout_push entry.depth rfl
      · simp only [if_neg hd, hlast]
        rfl

variable [Payload V]

theorem readLines_keyed (read : Nat) (lines : List RawLine) :
    (readLines .keyed read lines : Except ReadFault (Node V)) =
      (readLines .sequence read lines).map Node.collapse := by
  have hstart : (Builder.start (.root Payload.blank .sequence) : Builder V).All
      (·.layout = .sequence) := ⟨rfl, nofun⟩
  have hroot : (Builder.start (.root Payload.blank .keyed) : Builder V) =
      (Builder.start (.root Payload.blank .sequence)).collapse := by
    unfold Builder.collapse Builder.start Node.root
    rw [Node.collapse_leaf]
    rfl
  rw [readLines, hroot, build_collapse hstart, readLines]

/-- Whatever values the lines of a dump carry, it is refused for keyed nodes exactly if it is refused
for sequences, and for the same fault; otherwise the keyed tree is the collapse of the tree of
sequences. A node is collapsed by adding its collapsed children one after another to a keyed node,
where one takes the place of an earlier one with its label. So at every node each label keeps its
first place and the last child that has it, with all that is below this child. -/
theorem keyed_reading_collapses (bytes : List UInt8) (text : String) :
    (readBytes .keyed bytes : Except ReadFault (Node V)) =
        (readBytes .sequence bytes).map Node.collapse ∧
      (readText .keyed text : Except ReadFault (Node V)) =
        (readText .sequence text).map Node.collapse ∧
      ∀ node : Node V,
        node.collapse =
            (node.children.map Node.collapse).foldl Node.push
              (.leaf node.label node.value .keyed) ∧
          node.collapse.children =
            (node.children.map Node.label).eraseDups.filterMap fun name =>
              (node.children.reverse.find? fun child => child.label = name).map Node.collapse :=
  ⟨readLines_keyed 0 _, readLines_keyed 0 _,
    fun node => ⟨node.collapse_eq_foldl_push, node.children_collapse⟩⟩

/-- What is below the first `A` is lost, but its place is kept. -/
example : (readText .keyed "A\n| B\nC\nA\n| D\n" : Except ReadFault Tree).map
      (fun tree => tree.children.map fun c => (c.label, c.children.map Node.label)) =
    .ok [("A", ["D"]), ("C", [])] := by
  decide +kernel

end Dump

end PathCensus
