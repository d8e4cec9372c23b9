import PathCensus.Proofs.Census.Reachable

/-!
# Adding trees

A tree adds, under its id, at the end of every sequence of labels the number of its canonical paths
that begin with these labels. Nothing is added where no canonical path passes.
-/

namespace PathCensus

/-- The number of canonical paths of a tree that begin with the given labels. -/
def Node.prefixCount {V : Type} (tree : Node V) (labels : List String) : Nat :=
  tree.canonicalPaths.countP fun path => labels <+: path

/-- No canonical path begins with the labels exactly if their number is 0. -/
theorem Node.prefixCount_eq_zero_iff {V : Type} {tree : Node V} {labels : List String} :
    tree.prefixCount labels = 0 ↔ ¬∃ path ∈ tree.canonicalPaths, labels <+: path := by
  simp [prefixCount, List.countP_eq_zero]

theorem Node.prefixCount_le {V : Type} (tree : Node V) (labels : List String) :
    tree.prefixCount labels ≤ tree.canonicalPaths.length :=
  List.countP_le_length

/-- The counts of one tree, missing if there is nothing to count. -/
def tally (tree count : Nat) : Option Counts :=
  if count = 0 then none else some (Counts.empty.add tree count)

@[simp] theorem tally_zero (tree : Nat) : tally tree 0 = none := rfl

/-- The entries of the counts of one tree. -/
theorem Counts.count?_empty_add (tree count other : Nat) :
    (empty.add tree count).count? other = if other = tree then some count else none := by
  split
  · next h =>
    subst h
    exact count?_add_self ∅ other count
  · next h => exact count?_add_of_ne ∅ h count

theorem bind_count?_tally (tree count other : Nat) :
    (tally tree count).bind (·.count? other) =
      if other = tree ∧ count ≠ 0 then some count else none := by
  unfold tally
  by_cases hzero : count = 0
  · simp [hzero]
  · simp [hzero, Counts.count?_empty_add]

/-- A place is counted for a tree if one of its canonical paths passes it. -/
theorem isSome_tally {V : Type} (id : Nat) (tree : Node V) (labels : List String) :
    (tally id (tree.prefixCount labels)).isSome ↔ ∃ path ∈ tree.canonicalPaths, labels <+: path := by
  rw [← not_iff_not, ← Node.prefixCount_eq_zero_iff, tally]
  by_cases hzero : tree.prefixCount labels = 0 <;> simp [hzero]

/-- Counts of one tree add up. -/
theorem tally_succ (tree count : Nat) :
    join? (some (Counts.single tree)) (tally tree count) = tally tree (count + 1) := by
  rw [tally, tally, if_neg (Nat.succ_ne_zero count)]
  by_cases hzero : count = 0
  · subst hzero
    rfl
  · rw [if_neg hzero]
    refine congrArg some (Counts.ext_count? fun other => ?_)
    rw [Counts.count?_union, Counts.count?_single, Counts.count?_empty_add,
      Counts.count?_empty_add]
    split
    · exact congrArg some (Nat.add_comm 1 count)
    · rfl

namespace Census

/-- The entry of a tree at the end of a path, missing if the path leads nowhere or the tree is not
counted there. -/
def entryAt? (census : Census) (labels : List String) (tree : Nat) : Option Nat :=
  (census.find? labels).bind fun node => node.value.count? tree

theorem entryAt?_eq (census : Census) (labels : List String) (tree : Nat) :
    census.entryAt? labels tree = (census.countsAt? labels).bind (·.count? tree) := by
  rw [entryAt?, countsAt?_eq, Option.bind_map]
  rfl

/-- Ids that were not given out are counted nowhere. -/
theorem WellFormed.entryAt?_eq_none {census : Census} (h : census.WellFormed) {tree : Nat}
    (ht : census.treeCount ≤ tree) (labels : List String) : census.entryAt? labels tree = none := by
  unfold entryAt?
  cases hf : census.find? labels with
  | none => rfl
  | some node =>
    rw [Option.bind_some, Option.eq_none_iff_forall_ne_some]
    intro count he
    have hlt := (h.ids.descend? hf).here tree count he
    omega

/-- The part of an occurrence that goes to the end of labels. -/
theorem share_onceAlong {labels : List String} (hne : labels ≠ []) (tree : Nat)
    (path : List String) :
    share labels (onceAlong tree path) =
      if labels <+: path then some (Counts.single tree) else none := by
  induction path generalizing labels with
  | nil =>
    cases labels with
    | nil => exact absurd rfl hne
    | cons label labels => simp [onceAlong, share]
  | cons name path ih =>
    cases labels with
    | nil => exact absurd rfl hne
    | cons label labels =>
      have hrest : onceAlong tree (name :: path) =
          (name, Counts.single tree) :: onceAlong tree path := rfl
      rw [hrest, share]
      by_cases hname : name = label
      · by_cases hlast : labels = []
        · simp [hname, hlast]
        · simp [hname, hlast, ih hlast]
      · simp [hname, Ne.symm hname]

/-- The parts of many occurrences that go to the end of labels. -/
theorem shares_onceAlong {labels : List String} (hne : labels ≠ []) (tree : Nat)
    (paths : List (List String)) :
    shares labels (paths.map (onceAlong tree)) =
      tally tree (paths.countP fun path => labels <+: path) := by
  induction paths with
  | nil => rfl
  | cons path rest ih =>
    rw [List.map_cons, shares_cons, ih, share_onceAlong hne, List.countP_cons]
    by_cases hp : labels <+: path
    · simp only [hp, if_true, decide_true]
      exact tally_succ tree _
    · simp [hp]

/-- A tree adds the number of its canonical paths at the end of their beginnings. -/
theorem countsAt?_addTree {V : Type} (census : Census) (tree : Node V) {labels : List String}
    (hne : labels ≠ []) :
    (census.addTree tree).2.countsAt? labels =
      join? (census.countsAt? labels) (tally census.treeCount (tree.prefixCount labels)) := by
  rw [addTree_eq, countsAt?_foldl_put _ _ hne, shares_onceAlong hne]
  rfl

/-- A path leads somewhere after a tree was added if it did before or begins a canonical path. -/
theorem isSome_find?_addTree {V : Type} (census : Census) (tree : Node V)
    {labels : List String} (hne : labels ≠ []) :
    ((census.addTree tree).2.find? labels).isSome ↔
      (census.find? labels).isSome ∨ ∃ path ∈ tree.canonicalPaths, labels <+: path := by
  rw [← isSome_countsAt?, countsAt?_addTree census tree hne, isSome_join?, isSome_countsAt?,
    isSome_tally]

theorem treeCount_addTree {V : Type} (census : Census) (tree : Node V) :
    (census.addTree tree).2.treeCount = census.treeCount + 1 := by
  rw [addTree_eq, treeCount_foldl_put]

/-- A tree gets the next id and, wherever a path leads, an entry that counts its canonical paths
with this beginning, and none if there are none. The entries of the other trees stay. A path leads
somewhere afterwards if it did before or begins a canonical path of the tree. -/
theorem addTree_exact {sources : Sources} {census : Census} (h : Reachable sources census)
    {V : Type} (tree : Node V) :
    (census.addTree tree).1 = census.treeCount ∧
      (census.addTree tree).2.treeCount = census.treeCount + 1 ∧
      ∀ labels, labels ≠ [] →
        (census.addTree tree).2.entryAt? labels census.treeCount =
            (if tree.prefixCount labels = 0 then none else some (tree.prefixCount labels)) ∧
          (∀ other, other ≠ census.treeCount →
            (census.addTree tree).2.entryAt? labels other = census.entryAt? labels other) ∧
          (((census.addTree tree).2.find? labels).isSome ↔
            (census.find? labels).isSome ∨ ∃ path ∈ tree.canonicalPaths, labels <+: path) := by
  refine ⟨rfl, treeCount_addTree census tree, fun labels hne => ?_⟩
  have hafter := countsAt?_addTree census tree hne
  have hentry : ∀ other, (census.addTree tree).2.entryAt? labels other =
      Counts.plus? (census.entryAt? labels other)
        ((tally census.treeCount (tree.prefixCount labels)).bind (·.count? other)) := by
    intro other
    rw [entryAt?_eq, hafter, entryAt?_eq]
    cases census.countsAt? labels <;>
      cases tally census.treeCount (tree.prefixCount labels) <;> simp
  constructor
  · rw [hentry, h.wellFormed.entryAt?_eq_none (Nat.le_refl _), bind_count?_tally]
    by_cases hzero : tree.prefixCount labels = 0 <;> simp [hzero]
  constructor
  · intro other ho
    rw [hentry, bind_count?_tally, if_neg fun hand => ho hand.1]
    exact Counts.plus?_none _
  · rw [← isSome_countsAt?, hafter, ← isSome_countsAt?, tally]
    by_cases hzero : tree.prefixCount labels = 0
    · have hnone := Node.prefixCount_eq_zero_iff.1 hzero
      simp only [hzero, if_true, hnone, or_false, join?_none]
    · have hsome : ∃ path ∈ tree.canonicalPaths, labels <+: path := by
        by_contra hno
        exact hzero (Node.prefixCount_eq_zero_iff.2 hno)
      simp only [if_neg hzero, hsome, or_true, iff_true]
      cases census.countsAt? labels <;> simp

/-- A tree in which A and B follow each other twice: its canonical paths are A, B, A and A, B. -/
def loopTree : Tree :=
  ⟨Node.rootLabel, none, .sequence, [⟨"A", none, .sequence, [⟨"B", none, .sequence,
    [⟨"A", none, .sequence, [.leaf "B" none .sequence]⟩]⟩]⟩]⟩

/-- Added to a census that has counted it before, the tree is counted for itself. -/
theorem addTree_exact_loop :
    Reachable .all (empty.addTree loopTree).2 ∧
      ((empty.addTree loopTree).2.addTree loopTree).1 = 1 ∧
      ((empty.addTree loopTree).2.addTree loopTree).2.entryAt? ["A"] 1 = some 2 ∧
      ((empty.addTree loopTree).2.addTree loopTree).2.entryAt? ["A"] 0 = some 2 ∧
      ((empty.addTree loopTree).2.addTree loopTree).2.entryAt? ["A", "B", "A"] 1 = some 1 ∧
      ((empty.addTree loopTree).2.addTree loopTree).2.entryAt? ["A", "B", "A", "B"] 1 = none := by
  have hempty : Reachable .all empty := .ofTreeCount 0
  have hreach : Reachable .all (empty.addTree loopTree).2 := .addTree loopTree hempty
  obtain ⟨hid, -, hcounts⟩ := addTree_exact hreach loopTree
  have hcount : (empty.addTree loopTree).2.treeCount = 1 := treeCount_addTree _ _
  rw [hcount] at hid hcounts
  have hone : loopTree.prefixCount ["A"] = 2 := by decide +kernel
  have hthree : loopTree.prefixCount ["A", "B", "A"] = 1 := by decide +kernel
  have hfour : loopTree.prefixCount ["A", "B", "A", "B"] = 0 := by decide +kernel
  have hold : (empty.addTree loopTree).2.entryAt? ["A"] 0 = some 2 := by decide +kernel
  have hA := (hcounts ["A"] (by decide)).1
  have hother := (hcounts ["A"] (by decide)).2.1 0 (by decide)
  have hABA := (hcounts ["A", "B", "A"] (by decide)).1
  have hABAB := (hcounts ["A", "B", "A", "B"] (by decide)).1
  rw [hone] at hA
  rw [hthree] at hABA
  rw [hfour] at hABAB
  exact ⟨hreach, hid, hA, hother.trans hold, hABA, hABAB⟩

end Census

end PathCensus
