import PathCensus.Census.Dump
import PathCensus.Proofs.Census.Counters
import PathCensus.Proofs.Census.Merging
import PathCensus.Proofs.Tree.Addressing
import PathCensus.Proofs.Tree.Leaves

/-!
# Counts weighed by leaves

The complete paths of a tree pass every node once for each leaf at or below it. What is added along
all of them is therefore, at the end of every path, the counts there times the number of leaves at or
below. Adding a census in this way is a sum over places again, so the order of such sums makes no
difference, and it is the same as merging exactly if what is counted lies above one leaf each. With
counters of 64 bits this holds where the sums have room.
-/

namespace PathCensus

@[simp] theorem isSome_repeated {times : Nat} {counts : Counts} :
    (repeated times counts).isSome ↔ times ≠ 0 := by
  cases times with
  | zero => simp
  | succ times => cases hr : repeated times counts <;> simp [repeated_succ, hr]

/-- Counts are multiplied. -/
@[simp] theorem countIn_repeated (times : Nat) (counts : Counts) (tree : Nat) :
    countIn (repeated times counts) tree = times * counts.get tree := by
  induction times with
  | zero => simp
  | succ times ih => rw [repeated_succ, countIn_join, ih, countIn_some, Nat.succ_mul, Nat.add_comm]

/-- Entries that are all 0 do not change when they are added to each other. -/
theorem Counts.union_self_of_get_eq_zero {counts : Counts} (h : ∀ tree, counts.get tree = 0) :
    counts ∪ counts = counts := by
  refine ext_count? fun tree => ?_
  have hzero := h tree
  rw [get_eq] at hzero
  rw [count?_union]
  cases he : counts.count? tree with
  | none => rfl
  | some count =>
    rw [he, Option.getD_some] at hzero
    subst hzero
    rfl

/-- Counts stay the same when they are added more than once only if nothing is counted. -/
theorem repeated_eq_some_self_iff {times : Nat} (hpos : 0 < times) {counts : Counts} :
    repeated times counts = some counts ↔ times = 1 ∨ ∀ tree, counts.get tree = 0 := by
  constructor
  · intro h
    by_contra hno
    obtain ⟨hone, hall⟩ := not_or.1 hno
    refine hall fun tree => ?_
    have hcount := congrArg (countIn · tree) h
    simp only [countIn_repeated, countIn_some] at hcount
    obtain ⟨more, rfl⟩ : ∃ more, times = more + 2 := ⟨times - 2, by omega⟩
    rw [Nat.succ_mul, Nat.succ_mul] at hcount
    omega
  · rintro (rfl | hzero)
    · rfl
    · obtain ⟨more, rfl⟩ : ∃ more, times = more + 1 := ⟨times - 1, by omega⟩
      clear hpos
      induction more with
      | zero => rfl
      | succ more ih =>
        rw [repeated_succ, ih, some_join?_some, Counts.union_self_of_get_eq_zero hzero]

namespace Node

/-- What a node adds at the end of a path, once for every leaf at or below the node there. -/
def weightAt? (node : Node Counts) (path : List String) : Option Counts :=
  (node.descend? path).bind fun found => repeated found.leafCount found.value

theorem weightAt?_append (node : Node Counts) (first second : List String) :
    node.weightAt? (first ++ second) = (node.descend? first).bind (·.weightAt? second) := by
  rw [weightAt?, descend?_append, Option.bind_assoc]
  rfl

theorem weightAt?_cons (node : Node Counts) (name : String) (path : List String) :
    node.weightAt? (name :: path) = (node.child? name).bind (·.weightAt? path) := by
  rw [weightAt?, descend?_cons, Option.bind_assoc]
  rfl

/-- There is something to add wherever a path leads. -/
theorem isSome_weightAt? {node : Node Counts} {path : List String} :
    (node.weightAt? path).isSome ↔ (node.descend? path).isSome := by
  rw [weightAt?]
  cases node.descend? path with
  | none => rfl
  | some found => simp [Nat.ne_of_gt found.leafCount_pos]

theorem countIn_weightAt? (node : Node Counts) (path : List String) (tree : Nat) :
    countIn (node.weightAt? path) tree =
      (node.descend? path).elim 0 fun found => found.leafCount * found.value.get tree := by
  rw [weightAt?]
  cases node.descend? path with
  | none => rfl
  | some found => exact countIn_repeated _ _ _

/-- The ways from a node to its leaves add the counts of every node at or below it, once for every
leaf at or below that node. -/
theorem Keyed.shares_leafRoutes {node : Node Counts} (hk : node.Keyed) (name : String)
    (path : List String) :
    shares (name :: path) (node.leafRoutes.map Census.countsAlong) =
      if node.label = name then node.weightAt? path else none := by
  induction hk generalizing name path with
  | @intro node hp hall ih =>
    have hbelow : node.leafRoutes.map Census.countsAlong =
        (node.leafRoutesBelow.map Census.countsAlong).map ((node.label, node.value) :: ·) := by
      rw [leafRoutes_eq_map, List.map_map, List.map_map]
      rfl
    rw [hbelow, shares_map_cons, List.length_map, length_leafRoutesBelow]
    cases path with
    | nil => rfl
    | cons next path =>
      rw [if_neg (List.cons_ne_nil next path), weightAt?_cons, leafRoutesBelow]
      by_cases hleaf : node.isLeaf = true
      · have hnone : node.child? next = none := by
          rw [child?_eq_none_iff, List.isEmpty_iff.1 hleaf]
          exact fun c hc => absurd hc List.not_mem_nil
        rw [if_pos hleaf, hnone]
        rfl
      · rw [if_neg hleaf, List.map_flatMap, hp.shares_visited fun c hc => ih c hc next path]

end Node

namespace Census

/-- The complete paths of a census add its counts at the end of every path, once for every leaf at
or below. -/
theorem shares_completePaths {census : Census} (hk : census.root.Keyed) {labels : List String}
    (hne : labels ≠ []) :
    shares labels (census.root.completePaths.map countsAlong) = census.root.weightAt? labels := by
  obtain ⟨name, path, rfl⟩ := List.exists_cons_of_ne_nil hne
  have hshares := hk.here.shares_visited fun c hc =>
    Node.Keyed.shares_leafRoutes (hk.child hc) name path
  rwa [← Node.weightAt?_cons, ← List.map_flatMap, ← Node.completePaths_eq] at hshares

/-- Adding a census along its complete paths adds its counts at the end of every path, once for every
leaf at or below. -/
theorem countsAt?_addCounts (census : Census) {other : Census} (hk : other.root.Keyed)
    {labels : List String} (hne : labels ≠ []) :
    (census.addCounts other).countsAt? labels =
      join? (census.countsAt? labels) (other.root.weightAt? labels) := by
  rw [addCounts_eq, countsAt?_foldl_put _ _ hne, shares_completePaths hk hne]
  rfl

theorem treeCount_addCounts (census other : Census) :
    (census.addCounts other).treeCount = max census.treeCount other.treeCount := rfl

/-- A path leads somewhere in a sum if it leads somewhere in one of the parts. -/
theorem isSome_find?_addCounts (census : Census) {other : Census} (hk : other.root.Keyed)
    (labels : List String) :
    ((census.addCounts other).find? labels).isSome ↔
      (census.find? labels).isSome ∨ (other.find? labels).isSome := by
  by_cases hempty : labels = []
  · subst hempty
    simp [find?]
  · have hweight : (other.root.weightAt? labels).isSome ↔ (other.find? labels).isSome :=
      Node.isSome_weightAt?
    rw [← isSome_countsAt?, countsAt?_addCounts census hk hempty, isSome_join?, isSome_countsAt?,
      hweight]

/-- Sums do not depend on the order of what is added. -/
theorem addCounts_addCounts_agrees (census : Census) {other third : Census}
    (ho : other.root.Keyed) (ht : third.root.Keyed) :
    ((census.addCounts other).addCounts third).Agrees
      ((census.addCounts third).addCounts other) := by
  constructor
  · simp only [treeCount_addCounts]
    omega
  · intro labels hne
    rw [countsAt?_addCounts _ ht hne, countsAt?_addCounts _ ho hne, countsAt?_addCounts _ ho hne,
      countsAt?_addCounts _ ht hne]
    exact join?_right_comm _ _ _

/-- Every counted node below the root has one leaf at or below it. -/
def CountsLeaves (census : Census) : Prop :=
  ∀ labels node, labels ≠ [] → census.find? labels = some node →
    (∃ tree, node.value.get tree ≠ 0) → node.leafCount = 1

/-- Adding along complete paths and merging come to the same exactly if what is counted has one leaf
at or below it. -/
theorem addCounts_agrees_merge_iff (census : Census) {other : Census} (hk : other.root.Keyed) :
    (census.addCounts other).Agrees (census.merge other) ↔ other.CountsLeaves := by
  constructor
  · rintro hagrees labels node hne hfind ⟨tree, hcount⟩
    have hsame := congrArg (countIn · tree) (hagrees.countsAt labels hne)
    simp only [countsAt?_addCounts census hk hne, countsAt?_merge census hk hne, countIn_join,
      countsAt?_eq other, Node.countIn_weightAt?] at hsame
    rw [← find?, hfind, Option.elim_some, Option.map_some, countIn_some] at hsame
    exact Nat.eq_of_mul_eq_mul_right (Nat.pos_of_ne_zero hcount)
      ((Nat.add_left_cancel hsame).trans (Nat.one_mul _).symm)
  · intro hleaves
    refine ⟨rfl, fun labels hne => ?_⟩
    rw [countsAt?_addCounts census hk hne, countsAt?_merge census hk hne]
    congr 1
    rw [Node.weightAt?, countsAt?_eq, ← find?]
    cases hfind : other.find? labels with
    | none => rfl
    | some node =>
      refine (repeated_eq_some_self_iff node.leafCount_pos).2 ?_
      by_cases hzero : ∀ tree, node.value.get tree = 0
      · exact .inr hzero
      · exact .inl (hleaves labels node hne hfind (not_forall.1 hzero))

/-! ## Counters of 64 bits -/

/-- What a tree counts at the end of a path when another census is added along its complete paths:
its count, and for each leaf of the other census at or below its count there. -/
def weighedCount (census other : Census) (labels : List String) (tree : Nat) : Nat :=
  countIn (census.countsAt? labels) tree +
    (other.find? labels).elim 0 Node.leafCount * countIn (other.countsAt? labels) tree

theorem countIn_weightAt?_eq (other : Census) (labels : List String) (tree : Nat) :
    countIn (other.root.weightAt? labels) tree =
      (other.find? labels).elim 0 Node.leafCount * countIn (other.countsAt? labels) tree := by
  rw [Node.countIn_weightAt?, countsAt?_eq, ← find?]
  cases other.find? labels <;> simp

theorem countIn_countsAt?_addCounts (census : Census) {other : Census} (hk : other.root.Keyed)
    {labels : List String} (hne : labels ≠ []) (tree : Nat) :
    countIn ((census.addCounts other).countsAt? labels) tree =
      census.weighedCount other labels tree := by
  rw [countsAt?_addCounts census hk hne, countIn_join, countIn_weightAt?_eq]
  rfl

/-- Merging adds no more than adding along complete paths. -/
theorem countIn_add_le_weighedCount (census other : Census) (labels : List String) (tree : Nat) :
    countIn (census.countsAt? labels) tree + countIn (other.countsAt? labels) tree ≤
      census.weighedCount other labels tree := by
  refine Nat.add_le_add_left ?_ _
  rw [countsAt?_eq]
  cases other.find? labels with
  | none => exact Nat.le_refl 0
  | some node => exact Nat.le_mul_of_pos_left _ node.leafCount_pos

/-- No sum along the complete paths of another census goes beyond 64 bits. -/
def FitsWith (census other : Census) : Prop :=
  ∀ labels, labels ≠ [] → ∀ tree, census.weighedCount other labels tree < counterLimit

/-- Sums that fit are made by counters of 64 bits. -/
theorem FitsWith.addCountsWith?_eq_some {census other : Census} (h : census.FitsWith other)
    (hk : other.root.Keyed) (counters : Counters) :
    census.addCountsWith? counters other = some (census.addCounts other) := by
  have hroom : census.HasRoomFor (other.root.completePaths.map countsAlong) := by
    intro labels hne tree _
    rw [shares_completePaths hk hne, countIn_weightAt?_eq]
    exact h labels hne tree
  rw [addCountsWith?, absorbWith?_eq, foldlM_putWith?_of_hasRoomFor hroom, ← absorb_eq]
  rfl

theorem FitsWith.mergeWith?_eq_some {census other : Census} (h : census.FitsWith other)
    (hk : other.root.Keyed) (counters : Counters) :
    census.mergeWith? counters other = some (census.merge other) := by
  have hroom : census.HasRoomFor (other.root.chains.map lastOnly) := by
    intro labels hne tree _
    rw [shares_chains hk hne]
    exact Nat.lt_of_le_of_lt (countIn_add_le_weighedCount census other labels tree) (h labels hne tree)
  rw [mergeWith?_eq, foldlM_putWith?_of_hasRoomFor hroom, Option.map_some, foldl_put_treeCount,
    ← merge_eq]

/-- Where all counts fit, checked counters make a sum exactly if it fits. -/
theorem isSome_addCountsWith?_checked {census other : Census} (hk : other.root.Keyed)
    (h : ∀ labels, labels ≠ [] → ∀ tree, countIn (census.countsAt? labels) tree < counterLimit) :
    (census.addCountsWith? .checked other).isSome ↔ census.FitsWith other := by
  rw [addCountsWith?, absorbWith?_eq, Option.isSome_map, isSome_foldlM_putWith?_checked]
  refine forall_congr' fun labels => forall_congr' fun hne => ?_
  rw [hasRoom_iff (h labels hne)]
  refine forall_congr' fun tree => ?_
  rw [shares_completePaths hk hne, countIn_weightAt?_eq]
  rfl

/-- Wrapping counters hold the remainders of the sums. -/
theorem addCountsWith?_wrapping (census other : Census) :
    census.wrapped.addCountsWith? .wrapping other = some (census.addCounts other).wrapped := by
  rw [addCountsWith?, absorbWith?_eq, foldlM_putWith?_wrapping, ← absorb_eq]
  rfl

/-- A tree in which B and C follow A. -/
def branchTree : Tree :=
  ⟨Node.rootLabel, none, .sequence, [⟨"A", none, .sequence,
    [.leaf "B" none .sequence, .leaf "C" none .sequence]⟩]⟩

/-- A census that counts A as often as 64 bits allow. -/
def fullCensus : Census :=
  ⟨⟨Node.rootLabel, ∅, .keyed, [.leaf "A" (.ofList [(0, 18446744073709551615)]) .keyed]⟩, 1⟩

/-- A census that counts A half as often as does not fit, above three leaves that are not counted. -/
def halfCensus : Census :=
  ⟨⟨Node.rootLabel, ∅, .keyed, [⟨"A", .ofList [(0, 9223372036854775808)], .keyed,
    [.leaf "B" ∅ .keyed, .leaf "C" ∅ .keyed, .leaf "D" ∅ .keyed]⟩]⟩, 1⟩

end Census

end PathCensus
