import PathCensus.Proofs.Tables
import PathCensus.Tree.Bounds

/-!
# Bounds are least and greatest

Bounds are exact for a set of numbers if both belong to it and enclose it. One more number keeps them
exact, so a table is exact for all that it observed. The labels with bounds are therefore those on
complete paths, those of the nodes that walks meet, and under the label of a parent those of its
children.
-/

namespace PathCensus.Bounds

variable {V : Type} {trees : List (Node V)} {label parent child : String} {seen seen' : Nat → Prop}
  {numbers numbers' : String → Nat → Prop}

/-- The least bounds around two. -/
def hull (a b : Bounds) : Bounds :=
  ⟨min a.least b.least, max a.greatest b.greatest⟩

/-- Bounds are exact for the numbers that are seen. -/
inductive Exact (seen : Nat → Prop) : Option Bounds → Prop where
  /-- There are no bounds if there is no number. -/
  | none : (∀ n, ¬ seen n) → Exact seen none
  /-- Both bounds are seen, and no number is outside. -/
  | some {bounds : Bounds} : seen bounds.least → seen bounds.greatest →
      (∀ n, seen n → bounds.least ≤ n ∧ n ≤ bounds.greatest) → Exact seen (some bounds)

namespace Exact

variable {entry entry' : Option Bounds}

/-- The numbers are all that matters. -/
theorem congr (h : Exact seen entry) (hiff : ∀ n, seen n ↔ seen' n) : Exact seen' entry := by
  have he : seen = seen' := funext fun n => propext (hiff n)
  rwa [← he]

/-- One number is its own bounds. -/
theorem single (count : Nat) : Exact (· = count) (Option.some ⟨count, count⟩) :=
  .some rfl rfl fun _ hn => hn ▸ ⟨Nat.le_refl _, Nat.le_refl _⟩

/-- Numbers have one least and one greatest. -/
theorem unique (h : Exact seen entry) (h' : Exact seen entry') : entry = entry' := by
  cases h with
  | none hnone =>
    cases h' with
    | none _ => rfl
    | some hleast _ _ => exact absurd hleast (hnone _)
  | @some bounds hleast hgreatest hall =>
    cases h' with
    | none hnone => exact absurd hleast (hnone _)
    | @some bounds' hleast' hgreatest' hall' =>
      have hl : bounds.least = bounds'.least :=
        Nat.le_antisymm (hall _ hleast').1 (hall' _ hleast).1
      have hg : bounds.greatest = bounds'.greatest :=
        Nat.le_antisymm (hall' _ hgreatest).2 (hall _ hgreatest').2
      cases bounds
      cases bounds'
      simp only at hl hg
      rw [hl, hg]

/-- There are bounds exactly if there are numbers. -/
theorem isSome_iff (h : Exact seen entry) : entry.isSome ↔ ∃ n, seen n := by
  cases h with
  | none hnone => simpa using hnone
  | some hleast _ _ => exact iff_of_true rfl ⟨_, hleast⟩

/-- The hull is exact for the numbers of both. -/
theorem merge (h : Exact seen entry) (h' : Exact seen' entry') :
    Exact (fun n => seen n ∨ seen' n) (Option.merge hull entry entry') := by
  cases h with
  | none hnone =>
    rw [Option.merge_none_left]
    exact h'.congr fun n => (or_iff_right (hnone n)).symm
  | @some bounds hleast hgreatest hall =>
    cases h' with
    | none hnone' =>
      rw [Option.merge_none_right]
      exact (Exact.some hleast hgreatest hall).congr fun n => (or_iff_left (hnone' n)).symm
    | @some bounds' hleast' hgreatest' hall' =>
      rw [Option.merge_some_some]
      refine .some ?_ ?_ ?_
      · rcases Nat.le_total bounds.least bounds'.least with hle | hle
        · simpa only [hull, Nat.min_eq_left hle] using .inl hleast
        · simpa only [hull, Nat.min_eq_right hle] using .inr hleast'
      · rcases Nat.le_total bounds.greatest bounds'.greatest with hle | hle
        · simpa only [hull, Nat.max_eq_right hle] using .inr hgreatest'
        · simpa only [hull, Nat.max_eq_left hle] using .inl hgreatest
      · rintro n (hn | hn)
        · have hbounds := hall n hn
          simp only [hull]
          omega
        · have hbounds := hall' n hn
          simp only [hull]
          omega

end Exact

/-- Widening takes one more number into the hull. -/
theorem some_widen (count : Nat) (old : Option Bounds) :
    some (widen count old) = Option.merge hull old (some ⟨count, count⟩) := by
  cases old <;> rfl

/-! ## Tables -/

/-- A table is exact for the numbers of each label. -/
def ExactFor (table : Table) (numbers : String → Nat → Prop) : Prop :=
  ∀ label, Exact (numbers label) (table.find? label)

theorem ExactFor.congr {table : Table} (h : ExactFor table numbers)
    (hiff : ∀ label n, numbers label n ↔ numbers' label n) : ExactFor table numbers' :=
  fun label => (h label).congr (hiff label)

/-- There is one exact table. -/
theorem ExactFor.unique {table table' : Table} (h : ExactFor table numbers)
    (h' : ExactFor table' numbers) : table = table' :=
  SortedTable.ext_find? fun label => (h label).unique (h' label)

theorem exactFor_empty : ExactFor ∅ fun _ _ => False :=
  fun _ => .none fun _ => id

/-- One more number is taken in under its label. -/
theorem ExactFor.alter {table : Table} (h : ExactFor table numbers) (label : String) (count : Nat) :
    ExactFor (table.alter label (widen count)) fun name n =>
      numbers name n ∨ (name, n) = (label, count) := by
  intro name
  by_cases hname : name = label
  · subst hname
    rw [SortedTable.find?_alter_self, some_widen]
    exact ((h name).merge (.single count)).congr fun n => by simp only [Prod.mk.injEq, true_and]
  · rw [SortedTable.find?_alter_of_ne _ hname]
    exact (h name).congr fun n => by simp only [Prod.mk.injEq, hname, false_and, or_false]

/-- What is observed is taken in. -/
theorem ExactFor.observe {table : Table} (h : ExactFor table numbers) (seen : List (String × Nat)) :
    ExactFor (observe table seen) fun name n => numbers name n ∨ (name, n) ∈ seen := by
  induction seen generalizing table numbers with
  | nil => exact h.congr fun name n => by rw [List.mem_nil_iff, or_false]
  | cons s rest ih =>
    obtain ⟨label, count⟩ := s
    refine (ih (h.alter label count)).congr fun name n => ?_
    rw [List.mem_cons, or_assoc]

/-- What is observed at first is all there is. -/
theorem exactFor_observe (seen : List (String × Nat)) :
    ExactFor (observe ∅ seen) fun name n => (name, n) ∈ seen :=
  (exactFor_empty.observe seen).congr fun _ _ => iff_of_eq (false_or _)

/-- The bounds of all numbers in two tables are the hulls of both. -/
theorem ExactFor.find?_eq_merge {table table' both : Table} (h : ExactFor table numbers)
    (h' : ExactFor table' numbers')
    (hboth : ExactFor both fun label n => numbers label n ∨ numbers' label n) (label : String) :
    both.find? label = Option.merge hull (table.find? label) (table'.find? label) :=
  (hboth label).unique ((h label).merge (h' label))

/-! ## What is observed of trees -/

/-- A number of occurrences of a label on a complete path that has it. -/
def OnPath (trees : List (Node V)) (label : String) (n : Nat) : Prop :=
  ∃ tree ∈ trees, ∃ chain ∈ tree.completePaths,
    label ∈ Node.labels chain ∧ n = (Node.labels chain).count label

/-- A number of children of a node with a label. -/
def AtNode (trees : List (Node V)) (label : String) (n : Nat) : Prop :=
  ∃ tree ∈ trees, ∃ visit ∈ tree.walk,
    visit.node.label = label ∧ n = visit.node.children.length

/-- A number of children with one label of a node with another, if it has any. -/
def UnderNode (trees : List (Node V)) (parent child : String) (n : Nat) : Prop :=
  ∃ tree ∈ trees, ∃ visit ∈ tree.walk,
    visit.node.label = parent ∧ child ∈ Node.labels visit.node.children ∧
      n = (Node.labels visit.node.children).count child

/-- The occurrences are the labels with their numbers. -/
theorem mem_occurrences {labels : List String} {label : String} {n : Nat} :
    (label, n) ∈ occurrences labels ↔ label ∈ labels ∧ n = labels.count label := by
  simp only [occurrences, List.mem_map, List.mem_eraseDups, Prod.mk.injEq]
  constructor
  · rintro ⟨_, hmem, rfl, rfl⟩
    exact ⟨hmem, rfl⟩
  · rintro ⟨hmem, rfl⟩
    exact ⟨label, hmem, rfl, rfl⟩

theorem exactFor_pathsOf (trees : List (Node V)) : ExactFor (pathsOf trees) (OnPath trees) :=
  (exactFor_observe _).congr fun label n => by
    simp only [List.mem_flatMap, mem_occurrences, OnPath]

theorem exactFor_childrenOf (trees : List (Node V)) :
    ExactFor (childrenOf trees) (AtNode trees) :=
  (exactFor_observe _).congr fun label n => by
    simp only [List.mem_flatMap, List.mem_map, Prod.mk.injEq, AtNode, eq_comm (a := n)]

/-- The tables under all labels, with the children of one more node observed. -/
def withEdges (edges : SortedTable String Table) (visit : Visit V) : SortedTable String Table :=
  edges.alter visit.node.label fun table =>
    observe (table.getD ∅) (occurrences (Node.labels visit.node.children))

/-- Each node takes in its children under its label, and leaves the other labels alone. -/
theorem exactFor_withEdges {edges : SortedTable String Table} {numbers : String → String → Nat → Prop}
    (h : ∀ parent, ExactFor ((edges.find? parent).getD ∅) (numbers parent)) (visit : Visit V)
    (parent : String) :
    ExactFor (((withEdges edges visit).find? parent).getD ∅) fun child n =>
      numbers parent child n ∨ visit.node.label = parent ∧
        (child, n) ∈ occurrences (Node.labels visit.node.children) := by
  rw [withEdges]
  by_cases hname : visit.node.label = parent
  · subst hname
    rw [SortedTable.find?_alter_self, Option.getD_some]
    exact ((h _).observe _).congr fun child n => by simp only [true_and]
  · rw [SortedTable.find?_alter_of_ne _ (Ne.symm hname)]
    exact (h parent).congr fun child n => by simp only [hname, false_and, or_false]

/-- The tables under all labels are exact after a list of nodes. -/
theorem exactFor_foldl_withEdges (visits : List (Visit V)) {edges : SortedTable String Table}
    {numbers : String → String → Nat → Prop}
    (h : ∀ parent, ExactFor ((edges.find? parent).getD ∅) (numbers parent)) (parent : String) :
    ExactFor (((visits.foldl withEdges edges).find? parent).getD ∅) fun child n =>
      numbers parent child n ∨ ∃ visit ∈ visits, visit.node.label = parent ∧
        (child, n) ∈ occurrences (Node.labels visit.node.children) := by
  induction visits generalizing edges numbers with
  | nil => exact (h parent).congr fun child n => by simp
  | cons visit rest ih =>
    refine (ih (exactFor_withEdges h visit)).congr fun child n => ?_
    simp only [List.mem_cons, exists_eq_or_imp, or_assoc]

theorem exactFor_edgesOf (trees : List (Node V)) (parent : String) :
    ExactFor (((edgesOf trees).find? parent).getD ∅) (UnderNode trees parent) := by
  have hempty : ∀ parent, ExactFor (((∅ : SortedTable String Table).find? parent).getD ∅)
      fun _ _ => False := fun _ => exactFor_empty
  refine (exactFor_foldl_withEdges (trees.flatMap Node.walk) hempty parent).congr fun child n => ?_
  simp only [false_or, mem_occurrences, UnderNode, List.mem_flatMap]
  constructor
  · rintro ⟨visit, ⟨tree, ht, hv⟩, hvisit⟩
    exact ⟨tree, ht, visit, hv, hvisit⟩
  · rintro ⟨tree, ht, visit, hv, hvisit⟩
    exact ⟨visit, ⟨tree, ht, hv⟩, hvisit⟩

/-! ## Which labels have bounds -/

theorem ExactFor.mem_keys_iff {table : Table} (h : ExactFor table numbers) :
    label ∈ table.keys ↔ ∃ n, numbers label n := by
  rw [SortedTable.mem_keys_iff]
  exact (h label).isSome_iff

/-- Bounds per path are there for the labels on complete paths. -/
theorem mem_keys_pathsOf :
    label ∈ (pathsOf trees).keys ↔
      ∃ tree ∈ trees, ∃ chain ∈ tree.completePaths, label ∈ Node.labels chain := by
  rw [(exactFor_pathsOf trees).mem_keys_iff]
  constructor
  · rintro ⟨_, tree, ht, chain, hc, hlabel, -⟩
    exact ⟨tree, ht, chain, hc, hlabel⟩
  · rintro ⟨tree, ht, chain, hc, hlabel⟩
    exact ⟨_, tree, ht, chain, hc, hlabel, rfl⟩

/-- Bounds for the number of children are there for the labels of the nodes that walks meet. -/
theorem mem_keys_childrenOf :
    label ∈ (childrenOf trees).keys ↔
      ∃ tree ∈ trees, ∃ visit ∈ tree.walk, visit.node.label = label := by
  rw [(exactFor_childrenOf trees).mem_keys_iff]
  constructor
  · rintro ⟨_, tree, ht, visit, hv, hlabel, -⟩
    exact ⟨tree, ht, visit, hv, hlabel⟩
  · rintro ⟨tree, ht, visit, hv, hlabel⟩
    exact ⟨_, tree, ht, visit, hv, hlabel, rfl⟩

/-- A label has a table of children if walks meet a node with this label. -/
theorem mem_keys_edgesOf :
    parent ∈ (edgesOf trees).keys ↔
      ∃ tree ∈ trees, ∃ visit ∈ tree.walk, visit.node.label = parent := by
  have hnode : ∀ edges (visit : Visit V), parent ∈ (withEdges edges visit).keys ↔
      parent ∈ edges.keys ∨ visit.node.label = parent := by
    intro edges visit
    rw [withEdges, SortedTable.mem_keys_alter, or_comm, eq_comm]
  have hwalks : edgesOf trees = (trees.flatMap Node.walk).foldl withEdges ∅ := rfl
  rw [hwalks, List.foldl_flatMap, foldl_iff (parent ∈ SortedTable.keys ·)
    fun edges (tree : Node V) => foldl_iff (parent ∈ SortedTable.keys ·) hnode tree.walk edges]
  exact or_iff_right List.not_mem_nil

/-- The table under a label has the labels of the children of all nodes with it. -/
theorem mem_keys_find?_edgesOf :
    child ∈ (((edgesOf trees).find? parent).getD ∅).keys ↔
      ∃ tree ∈ trees, ∃ visit ∈ tree.walk,
        visit.node.label = parent ∧ child ∈ Node.labels visit.node.children := by
  rw [(exactFor_edgesOf trees parent).mem_keys_iff]
  constructor
  · rintro ⟨_, tree, ht, visit, hv, hlabel, hchild, -⟩
    exact ⟨tree, ht, visit, hv, hlabel, hchild⟩
  · rintro ⟨tree, ht, visit, hv, hlabel, hchild⟩
    exact ⟨_, tree, ht, visit, hv, hlabel, hchild, rfl⟩

end PathCensus.Bounds
