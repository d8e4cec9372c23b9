import PathCensus.Proofs.Tree.Bounds
import PathCensus.Proofs.Tree.Reordering

/-!
# Bounds of reordered and of joined lists of trees

There is one table only that is exact for given numbers. Trees with other orders of children, in any
order, show the same numbers, and a list of trees shows the numbers of its parts: so the bounds of
the first are the same and the bounds of the second are the hulls of those of the parts.
-/

namespace PathCensus.Bounds

variable {V : Type} {trees others : List (Node V)}

theorem isSome_find?_edgesOf {parent : String} :
    ((edgesOf trees).find? parent).isSome ↔
      ∃ tree ∈ trees, ∃ visit ∈ tree.walk, visit.node.label = parent := by
  rw [← mem_keys_edgesOf, SortedTable.mem_keys_iff]

/-- Tables under the same labels, each exact for the same numbers, are the same. -/
theorem edgesOf_eq_of_iff
    (hparent : ∀ parent, ((edgesOf trees).find? parent).isSome ↔ ((edgesOf others).find? parent).isSome)
    (hunder : ∀ parent child n, UnderNode trees parent child n ↔ UnderNode others parent child n) :
    edgesOf trees = edgesOf others := by
  refine SortedTable.ext_find? fun parent => ?_
  have htable := ((exactFor_edgesOf trees parent).congr (hunder parent)).unique
    (exactFor_edgesOf others parent)
  have hsome := hparent parent
  cases ht : (edgesOf trees).find? parent <;> cases ho : (edgesOf others).find? parent <;>
    simp_all

/-- All bounds are the same for reordered trees in any order. -/
theorem eq_of_reordered {between : List (Node V)} (heach : List.Forall₂ Node.Reordered trees between)
    (hperm : between.Perm others) :
    pathsOf trees = pathsOf others ∧ childrenOf trees = childrenOf others ∧
      edgesOf trees = edgesOf others := by
  have hpath : ∀ label n, OnPath trees label n ↔ OnPath others label n := fun label n =>
    Node.exists_completePath_iff_of_reordered heach hperm fun labels =>
      label ∈ labels ∧ n = labels.count label
  have hnode : ∀ label n, AtNode trees label n ↔ AtNode others label n := fun label n =>
    Node.exists_visit_iff_of_reordered heach hperm fun outline =>
      outline.1 = label ∧ n = outline.2.1
  have hunder : ∀ parent child n, UnderNode trees parent child n ↔ UnderNode others parent child n := by
    intro parent child n
    simp only [UnderNode, ← List.count_pos_iff]
    exact Node.exists_visit_iff_of_reordered heach hperm fun outline =>
      outline.1 = parent ∧ 0 < outline.2.2 child ∧ n = outline.2.2 child
  refine ⟨((exactFor_pathsOf trees).congr hpath).unique (exactFor_pathsOf others),
    ((exactFor_childrenOf trees).congr hnode).unique (exactFor_childrenOf others),
    edgesOf_eq_of_iff (fun parent => ?_) hunder⟩
  rw [isSome_find?_edgesOf, isSome_find?_edgesOf]
  exact Node.exists_visit_iff_of_reordered heach hperm fun outline => outline.1 = parent

/-- The least and the greatest number of occurrences on paths, of children, and of children with a
label are exact, and there are bounds for the labels only for which there are numbers. The order of
the trees and of the children of any node does not matter. More trees widen the bounds to those of
both. -/
theorem bounds_exact (trees : List (Node V)) :
    ExactFor (pathsOf trees) (OnPath trees) ∧ ExactFor (childrenOf trees) (AtNode trees) ∧
      (∀ parent, ((edgesOf trees).find? parent).isSome ↔
        ∃ tree ∈ trees, ∃ visit ∈ tree.walk, visit.node.label = parent) ∧
      (∀ parent, ExactFor (((edgesOf trees).find? parent).getD ∅) (UnderNode trees parent)) ∧
      (∀ between others, List.Forall₂ Node.Reordered trees between → between.Perm others →
        pathsOf trees = pathsOf others ∧ childrenOf trees = childrenOf others ∧
          edgesOf trees = edgesOf others) ∧
      ∀ more label,
        (pathsOf (trees ++ more)).find? label =
            Option.merge hull ((pathsOf trees).find? label) ((pathsOf more).find? label) ∧
          (childrenOf (trees ++ more)).find? label =
            Option.merge hull ((childrenOf trees).find? label) ((childrenOf more).find? label) ∧
          (((edgesOf (trees ++ more)).find? label).isSome ↔
            ((edgesOf trees).find? label).isSome ∨ ((edgesOf more).find? label).isSome) ∧
          ∀ child, (((edgesOf (trees ++ more)).find? label).getD ∅).find? child =
            Option.merge hull ((((edgesOf trees).find? label).getD ∅).find? child)
              ((((edgesOf more).find? label).getD ∅).find? child) := by
  refine ⟨exactFor_pathsOf trees, exactFor_childrenOf trees, fun parent => isSome_find?_edgesOf,
    exactFor_edgesOf trees, fun between others => eq_of_reordered,
    fun more label => ⟨?_, ?_, ?_, fun child => ?_⟩⟩
  · refine (exactFor_pathsOf trees).find?_eq_merge (exactFor_pathsOf more) ?_ label
    refine (exactFor_pathsOf (trees ++ more)).congr fun name n => ?_
    simp only [OnPath, List.mem_append, or_and_right, exists_or]
  · refine (exactFor_childrenOf trees).find?_eq_merge (exactFor_childrenOf more) ?_ label
    refine (exactFor_childrenOf (trees ++ more)).congr fun name n => ?_
    simp only [AtNode, List.mem_append, or_and_right, exists_or]
  · simp only [isSome_find?_edgesOf, List.mem_append, or_and_right, exists_or]
  · refine (exactFor_edgesOf trees label).find?_eq_merge (exactFor_edgesOf more label) ?_ child
    refine (exactFor_edgesOf (trees ++ more) label).congr fun name n => ?_
    simp only [UnderNode, List.mem_append, or_and_right, exists_or]

/-- A tree whose A has children in some order. -/
def spreadTree (children : List Tree) : Tree :=
  ⟨Node.rootLabel, none, .sequence, [⟨"A", none, .sequence, children⟩]⟩

/-- Two trees, an A with two B and a C between them, and an A alone. -/
def forkedTrees : List Tree :=
  [spreadTree [.leaf "B" none .sequence, .leaf "C" none .sequence, .leaf "B" none .sequence],
    spreadTree []]

/-- The same trees in the other order, with two children exchanged. -/
def swappedTrees : List Tree :=
  [spreadTree [],
    spreadTree [.leaf "C" none .sequence, .leaf "B" none .sequence, .leaf "B" none .sequence]]

/-- The bounds of the trees in both orders are the same, and the two B below A are the least and the
greatest number of them. -/
theorem bounds_exact_swapped :
    (pathsOf forkedTrees = pathsOf swappedTrees ∧ childrenOf forkedTrees = childrenOf swappedTrees ∧
        edgesOf forkedTrees = edgesOf swappedTrees) ∧
      (childrenOf forkedTrees).find? "A" = some ⟨0, 3⟩ ∧
      (((edgesOf forkedTrees).find? "A").getD ∅).find? "B" = some ⟨2, 2⟩ := by
  have hbelow : Node.Reordered
      (⟨"A", none, .sequence, [.leaf "B" none .sequence, .leaf "C" none .sequence,
        .leaf "B" none .sequence]⟩ : Tree)
      ⟨"A", none, .sequence, [.leaf "C" none .sequence, .leaf "B" none .sequence,
        .leaf "B" none .sequence]⟩ := .of_perm (.swap _ _ _)
  have htree := Node.Reordered.intro (a := forkedTrees[0]) (b := swappedTrees[1]) rfl rfl rfl
    (.cons hbelow .nil) (.refl _)
  obtain ⟨-, -, -, -, horder, -⟩ := bounds_exact forkedTrees
  exact ⟨horder _ _ (.cons htree (.cons (.refl _) .nil)) (.swap _ _ []), by decide +kernel,
    by decide +kernel⟩

end PathCensus.Bounds
