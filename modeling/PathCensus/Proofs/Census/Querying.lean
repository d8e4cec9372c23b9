import PathCensus.Census.Query
import PathCensus.Proofs.Census.Adding

/-!
# What a query counts

The vectors of a census depend only on the number of trees and on the counts at the ends of paths.
For trees that were added in turn, the vector of a tree has its own canonical paths counted, so a
query counts the trees that pass the test.
-/

namespace PathCensus

/-- How often a tree is counted at the end of a path: its canonical paths that begin with the path,
and 0 for the empty path, which ends at the root. -/
def Node.occurrences {V : Type} (tree : Node V) (path : List String) : Nat :=
  if path = [] then 0 else tree.prefixCount path

/-- The counts of trees whose ids follow one another from `first` on. -/
def tallies {V : Type} (labels : List String) : Nat → List (Node V) → Option Counts
  | _, [] => none
  | first, tree :: rest =>
    join? (tally first (tree.prefixCount labels)) (tallies labels (first + 1) rest)

/-- The count of a tree, 0 at a place that is missing. -/
def countIn (counts : Option Counts) (tree : Nat) : Nat :=
  counts.elim 0 (·.get tree)

@[simp] theorem countIn_none (tree : Nat) : countIn none tree = 0 := rfl

@[simp] theorem countIn_some (counts : Counts) (tree : Nat) :
    countIn (some counts) tree = counts.get tree := rfl

/-- Counts of joined places add up. -/
@[simp] theorem countIn_join (a b : Option Counts) (tree : Nat) :
    countIn (join? a b) tree = countIn a tree + countIn b tree := by
  cases a <;> cases b <;> simp

/-- Counts of several joined places add up. -/
theorem countIn_foldr_join? (places : List (Option Counts)) (tree : Nat) :
    countIn (places.foldr join? none) tree = sumBy (fun place => countIn place tree) places := by
  induction places with
  | nil => rfl
  | cons place rest ih => rw [List.foldr_cons, countIn_join, ih, sumBy_cons]

theorem countIn_tally (tree count other : Nat) :
    countIn (tally tree count) other = if other = tree then count else 0 := by
  unfold tally
  by_cases hzero : count = 0
  · simp [hzero]
  · rw [if_neg hzero, countIn_some, Counts.get_eq, Counts.count?_empty_add]
    by_cases ht : other = tree <;> simp [ht]

/-- Ids that were given out before are not counted. -/
theorem countIn_tallies_of_lt {V : Type} (labels : List String) {first id : Nat} (h : id < first)
    (trees : List (Node V)) : countIn (tallies labels first trees) id = 0 := by
  induction trees generalizing first with
  | nil => rfl
  | cons tree rest ih => rw [tallies, countIn_join, countIn_tally, if_neg (by omega), ih (by omega)]

/-- Each of the trees has the count of its own canonical paths. -/
theorem countIn_tallies {V : Type} (labels : List String) (first : Nat) (trees : List (Node V))
    (i : Nat) :
    countIn (tallies labels first trees) (first + i) =
      trees[i]?.elim 0 fun tree => tree.prefixCount labels := by
  induction trees generalizing first i with
  | nil => simp [tallies]
  | cons tree rest ih =>
    rw [tallies, countIn_join, countIn_tally]
    cases i with
    | zero => simp [countIn_tallies_of_lt]
    | succ i =>
      have hid : first + (i + 1) = first + 1 + i := by omega
      rw [if_neg (by omega), hid, ih, Nat.zero_add, List.getElem?_cons_succ]

namespace Census

/-- Two censuses have the same trees and the same counts at the ends of all paths. -/
structure Agrees (a b : Census) : Prop where
  /-- The same ids were given out. -/
  treeCount : a.treeCount = b.treeCount
  /-- The same paths lead somewhere, with the same counts at their ends. -/
  countsAt : ∀ labels, labels ≠ [] → a.countsAt? labels = b.countsAt? labels

theorem Agrees.refl (census : Census) : census.Agrees census :=
  ⟨rfl, fun _ _ => rfl⟩

theorem Agrees.trans {a b c : Census} (hab : a.Agrees b) (hbc : b.Agrees c) : a.Agrees c :=
  ⟨hab.treeCount.trans hbc.treeCount,
    fun labels hne => (hab.countsAt labels hne).trans (hbc.countsAt labels hne)⟩

theorem Agrees.symm {a b : Census} (h : a.Agrees b) : b.Agrees a :=
  ⟨h.treeCount.symm, fun labels hne => (h.countsAt labels hne).symm⟩

/-- Ids that were not given out count 0 everywhere. -/
theorem WellFormed.countIn_countsAt?_of_le {census : Census} (h : census.WellFormed) {tree : Nat}
    (ht : census.treeCount ≤ tree) (labels : List String) :
    countIn (census.countsAt? labels) tree = 0 := by
  have hnone := h.entryAt?_eq_none ht labels
  rw [entryAt?_eq] at hnone
  cases hc : census.countsAt? labels with
  | none => rfl
  | some counts =>
    rw [hc, Option.bind_some] at hnone
    rw [countIn_some, Counts.get_eq, hnone, Option.getD_none]

/-- Censuses that agree and are well-formed have the same counts at the ends of all paths, the empty
path included. -/
theorem Agrees.map_value_find? {a b : Census} (h : a.Agrees b) (ha : a.WellFormed)
    (hb : b.WellFormed) (labels : List String) :
    (a.find? labels).map Node.value = (b.find? labels).map Node.value := by
  by_cases hempty : labels = []
  · subst hempty
    rw [find?, find?, Node.descend?_nil, Node.descend?_nil, Option.map_some, Option.map_some,
      ha.root_value, hb.root_value]
  · exact h.countsAt labels hempty

theorem treeCount_addTrees {V : Type} (census : Census) (trees : List (Node V)) :
    (census.addTrees trees).treeCount = census.treeCount + trees.length := by
  induction trees generalizing census with
  | nil => rfl
  | cons tree rest ih =>
    have hstep : census.addTrees (tree :: rest) = (census.addTree tree).2.addTrees rest := rfl
    rw [hstep, ih, treeCount_addTree, List.length_cons]
    omega

/-- Trees that are added in turn add their counts at the end of every path. -/
theorem countsAt?_addTrees {V : Type} (census : Census) (trees : List (Node V))
    {labels : List String} (hne : labels ≠ []) :
    (census.addTrees trees).countsAt? labels =
      join? (census.countsAt? labels) (tallies labels census.treeCount trees) := by
  induction trees generalizing census with
  | nil => exact (join?_none _).symm
  | cons tree rest ih =>
    have hstep : census.addTrees (tree :: rest) = (census.addTree tree).2.addTrees rest := rfl
    rw [hstep, ih, treeCount_addTree, countsAt?_addTree census tree hne]
    exact Std.Associative.assoc _ _ _

/-- The counts of trees that were added to a census without counts. -/
theorem countsAt?_ofTreeCount_addTrees {V : Type} (first : Nat) (trees : List (Node V))
    {labels : List String} (hne : labels ≠ []) :
    ((ofTreeCount first).addTrees trees).countsAt? labels = tallies labels first trees := by
  rw [countsAt?_addTrees _ trees hne, countsAt?_ofTreeCount first hne, none_join?]
  rfl

/-- The counts of trees that were added to an empty census. -/
theorem countsAt?_empty_addTrees {V : Type} (trees : List (Node V)) {labels : List String}
    (hne : labels ≠ []) :
    (empty.addTrees trees).countsAt? labels = tallies labels 0 trees :=
  countsAt?_ofTreeCount_addTrees 0 trees hne

theorem reachable_addTrees {sources : Sources} {V : Type} {census : Census}
    (h : Reachable sources census) (trees : List (Node V)) :
    Reachable sources (census.addTrees trees) := by
  induction trees generalizing census with
  | nil => exact h
  | cons tree rest ih => exact ih (.addTree tree h)

/-- Vectors are made of the counts at the ends of the paths that are not empty. -/
theorem WellFormed.vectors_eq {census : Census} (h : census.WellFormed)
    (paths : List (List String)) :
    census.vectors paths = (List.range census.treeCount).map fun tree =>
      paths.map fun path => if path = [] then 0 else countIn (census.countsAt? path) tree := by
  refine List.map_congr_left fun tree _ => ?_
  rw [List.map_map]
  refine List.map_congr_left fun path _ => ?_
  rw [Function.comp_apply]
  by_cases hp : path = []
  · subst hp
    rw [if_pos rfl, find?, Node.descend?_nil, Option.elim_some, h.root_value]
    rfl
  · rw [if_neg hp, countsAt?_eq]
    cases census.find? path <;> rfl

/-- Censuses that agree answer every query alike. -/
theorem Agrees.query_eq {a b : Census} (h : a.Agrees b) (ha : a.WellFormed) (hb : b.WellFormed)
    (paths : List (List String)) (test : List Nat → Bool) :
    a.query paths test = b.query paths test := by
  rw [query, query, ha.vectors_eq, hb.vectors_eq, h.treeCount]
  congr 2
  funext tree
  refine List.map_congr_left fun path _ => ?_
  by_cases hp : path = []
  · rw [if_pos hp, if_pos hp]
  · rw [if_neg hp, if_neg hp, h.countsAt path hp]

/-- The vectors of trees that were added to an empty census. -/
theorem vectors_addTrees {V : Type} (trees : List (Node V)) (paths : List (List String)) :
    (empty.addTrees trees).vectors paths = trees.map fun tree => paths.map tree.occurrences := by
  have hempty : Reachable .trees empty := .ofTreeCount 0
  have hwell := (reachable_addTrees hempty trees).wellFormed
  have hcount : (empty.addTrees trees).treeCount = trees.length := by
    rw [treeCount_addTrees]
    exact Nat.zero_add _
  rw [hwell.vectors_eq, hcount]
  apply List.ext_getElem
  · rw [List.length_map, List.length_range, List.length_map]
  · intro i hi hi'
    rw [List.length_map] at hi'
    rw [List.getElem_map, List.getElem_map, List.getElem_range]
    refine List.map_congr_left fun path _ => ?_
    unfold Node.occurrences
    by_cases hp : path = []
    · rw [if_pos hp, if_pos hp]
    · have hcounts := countIn_tallies path 0 trees i
      rw [Nat.zero_add, List.getElem?_eq_getElem hi', Option.elim_some] at hcounts
      rw [if_neg hp, if_neg hp, ← hcounts]
      exact congrArg (countIn · i) (countsAt?_empty_addTrees trees hp)

/-- A query counts the trees that were added and pass the test. -/
theorem query_addTrees {V : Type} (trees : List (Node V)) (paths : List (List String))
    (test : List Nat → Bool) :
    (empty.addTrees trees).query paths test =
      trees.countP fun tree => test (paths.map tree.occurrences) := by
  rw [query, vectors_addTrees, List.countP_map]
  rfl

/-- A query to a census of trees that were added in turn counts the trees whose own numbers of
canonical paths pass the test, so the order of the trees makes no difference. -/
theorem query_of_added_trees {V : Type} (trees : List (Node V)) (paths : List (List String))
    (test : List Nat → Bool) :
    (empty.addTrees trees).query paths test =
        trees.countP (fun tree => test (paths.map tree.occurrences)) ∧
      ∀ other : List (Node V), other.Perm trees →
        (empty.addTrees other).query paths test = (empty.addTrees trees).query paths test := by
  refine ⟨query_addTrees trees paths test, fun other hperm => ?_⟩
  rw [query_addTrees, query_addTrees]
  exact hperm.countP_eq _

/-- Two trees in either order; A begins two canonical paths of one of them. -/
theorem query_of_added_trees_swapped :
    (empty.addTrees [loopTree, .leaf "head" none .keyed]).query [["A"], []] (· == [2, 0]) = 1 ∧
      (empty.addTrees [.leaf "head" none .keyed, loopTree]).query [["A"], []] (· == [2, 0]) = 1 := by
  obtain ⟨hcount, hperm⟩ :=
    query_of_added_trees [loopTree, .leaf "head" none .keyed] [["A"], []] (· == [2, 0])
  have hone : [loopTree, .leaf "head" none .keyed].countP (fun tree =>
      [["A"], []].map tree.occurrences == [2, 0]) = 1 := by decide +kernel
  have hfirst := hcount.trans hone
  exact ⟨hfirst, (hperm _ (List.Perm.swap _ _ _)).trans hfirst⟩

end Census

end PathCensus
