import PathCensus.Counts
import PathCensus.Proofs.Tables

/-!
# Counts by tree

Counts are determined by their entries, and the entries of a sum are the sums of the entries. An
entry of 0 is kept apart from no entry, so sums are taken of entries and not of counts.
-/

namespace PathCensus.Counts

/-- The entry of a tree, which is missing if the tree is not counted. -/
def count? (counts : Counts) (tree : Nat) : Option Nat :=
  counts.table.find? tree

/-- The sum of two entries, either of which may be missing. -/
abbrev plus? : Option Nat → Option Nat → Option Nat :=
  Option.merge (· + ·)

/-- Every counted tree is below `bound`. -/
def IdsBelow (bound : Nat) (counts : Counts) : Prop :=
  ∀ tree count, counts.count? tree = some count → tree < bound

theorem plus?_none (count : Option Nat) : plus? count none = count :=
  Option.merge_none_right

theorem get_eq (counts : Counts) (tree : Nat) : counts.get tree = (counts.count? tree).getD 0 :=
  rfl

/-- The entries are the listed pairs. -/
theorem count?_eq_some_iff {counts : Counts} {tree count : Nat} :
    counts.count? tree = some count ↔ (tree, count) ∈ counts.toList :=
  SortedTable.find?_eq_some_iff

/-- Counts with the same entries are equal. -/
theorem ext_count? {a b : Counts} (h : ∀ tree, a.count? tree = b.count? tree) : a = b := by
  have ht : a.table = b.table := SortedTable.ext_find? h
  cases a
  cases b
  simpa only [Counts.mk.injEq] using ht

@[simp] theorem count?_empty (tree : Nat) : (∅ : Counts).count? tree = none := rfl

/-- Counting a tree adds to its entry. -/
@[simp] theorem count?_add_self (counts : Counts) (tree count : Nat) :
    (counts.add tree count).count? tree = plus? (counts.count? tree) (some count) := by
  rw [count?, count?, add, SortedTable.find?_alter_self]
  cases counts.table.find? tree <;> simp

/-- Counting a tree leaves the other trees alone. -/
theorem count?_add_of_ne (counts : Counts) {tree other : Nat} (h : other ≠ tree) (count : Nat) :
    (counts.add tree count).count? other = counts.count? other :=
  counts.table.find?_alter_of_ne h _

/-- A single occurrence is an entry of 1 for its tree. -/
theorem count?_single (tree other : Nat) :
    (single tree).count? other = if other = tree then some 1 else none := by
  split
  · next h =>
    subst h
    exact (count?_add_self ∅ other 1).trans rfl
  · next h => exact (count?_add_of_ne ∅ h 1).trans rfl

/-- What pairs count for a tree together. -/
def tally (pairs : List (Nat × Nat)) (tree : Nat) : Nat :=
  sumBy Prod.snd (pairs.filter (·.1 = tree))

/-- The entry that pairs make for a tree, if one of them names it. -/
def tally? (pairs : List (Nat × Nat)) (tree : Nat) : Option Nat :=
  if tree ∈ pairs.map Prod.fst then some (tally pairs tree) else none

/-- A pair counts for its tree. -/
theorem tally?_cons_self (tree count : Nat) (rest : List (Nat × Nat)) :
    tally? ((tree, count) :: rest) tree = plus? (some count) (tally? rest tree) := by
  have hsum : tally ((tree, count) :: rest) tree = count + tally rest tree := by simp [tally]
  rw [tally?, if_pos (by simp), hsum, tally?]
  split
  · simp
  · next hrest =>
    have hnone : rest.filter (·.1 = tree) = [] := by
      rw [List.filter_eq_nil_iff]
      intro p hp he
      exact hrest (List.mem_map.2 ⟨p, hp, by simpa using he⟩)
    simp [tally, hnone]

/-- A pair does not count for other trees. -/
theorem tally?_cons_of_ne {tree other : Nat} (h : other ≠ tree) (count : Nat)
    (rest : List (Nat × Nat)) : tally? ((tree, count) :: rest) other = tally? rest other := by
  have hsum : tally ((tree, count) :: rest) other = tally rest other := by
    simp [tally, Ne.symm h]
  have hmem : other ∈ ((tree, count) :: rest).map Prod.fst ↔ other ∈ rest.map Prod.fst := by
    simp [h]
  simp only [tally?, hsum, hmem]

/-- Added pairs add to the entry of each tree what they count for it together. -/
theorem count?_addAll (counts : Counts) (pairs : List (Nat × Nat)) (tree : Nat) :
    (counts.addAll pairs).count? tree = plus? (counts.count? tree) (tally? pairs tree) := by
  induction pairs generalizing counts with
  | nil => simp [addAll, tally?]
  | cons p rest ih =>
    obtain ⟨t, n⟩ := p
    have hstep : (counts.addAll ((t, n) :: rest)).count? tree =
        plus? ((counts.add t n).count? tree) (tally? rest tree) := ih (counts.add t n)
    rw [hstep]
    by_cases h : tree = t
    · subst h
      rw [count?_add_self, tally?_cons_self]
      exact Std.Associative.assoc _ _ _
    · rw [count?_add_of_ne counts h, tally?_cons_of_ne h]

/-- Pairs with distinct trees count for each tree what they list for it. -/
theorem tally?_of_nodup {pairs : List (Nat × Nat)} (hd : (pairs.map Prod.fst).Nodup) (tree : Nat) :
    tally? pairs tree = pairs.lookup tree := by
  induction pairs with
  | nil => rfl
  | cons p rest ih =>
    obtain ⟨t, n⟩ := p
    rw [List.map_cons, List.nodup_cons] at hd
    by_cases h : tree = t
    · subst h
      rw [tally?_cons_self, tally?, if_neg hd.1, plus?_none, List.lookup_cons_self]
    · have hb : (tree == t) = false := by simpa using h
      rw [tally?_cons_of_ne h, ih hd.2, List.lookup_cons, hb]

/-- The listed pairs, looked up, are the entries. -/
theorem lookup_toList (counts : Counts) (tree : Nat) :
    counts.toList.lookup tree = counts.count? tree := by
  rw [count?, SortedTable.find?, toList]
  induction counts.table.entries with
  | nil => rfl
  | cons e rest ih =>
    obtain ⟨t, n⟩ := e
    by_cases h : tree = t
    · subst h
      simp
    · have hb : (tree == t) = false := by simpa using h
      have hc : (compare t tree == .eq) = false := by simpa using Ne.symm h
      rw [List.lookup_cons, hb, List.find?_cons, hc]
      exact ih

/-- The entries of a sum are the sums of the entries. -/
@[simp] theorem count?_union (a b : Counts) (tree : Nat) :
    (a ∪ b).count? tree = plus? (a.count? tree) (b.count? tree) := by
  have h : (a ∪ b).count? tree = plus? (a.count? tree) (tally? b.toList tree) :=
    count?_addAll a b.toList tree
  have hlist : tally? b.toList tree = b.toList.lookup tree :=
    tally?_of_nodup b.table.nodup_keys tree
  rwa [hlist, lookup_toList] at h

/-- The counts of a sum are the sums of the counts. -/
@[simp] theorem get_union (a b : Counts) (tree : Nat) :
    (a ∪ b).get tree = a.get tree + b.get tree := by
  rw [get_eq, get_eq, get_eq, count?_union]
  cases a.count? tree <;> cases b.count? tree <;> simp

theorem union_empty (a : Counts) : a ∪ ∅ = a :=
  ext_count? fun tree => by simp

theorem empty_union (a : Counts) : ∅ ∪ a = a :=
  ext_count? fun tree => by simp

theorem union_comm (a b : Counts) : a ∪ b = b ∪ a := by
  refine ext_count? fun tree => ?_
  rw [count?_union, count?_union]
  exact Std.Commutative.comm _ _

theorem union_assoc (a b c : Counts) : a ∪ b ∪ c = a ∪ (b ∪ c) := by
  refine ext_count? fun tree => ?_
  rw [count?_union, count?_union, count?_union, count?_union]
  exact Std.Associative.assoc _ _ _

/-- The largest counted tree is the bound of the counted trees. -/
theorem idsBelow_iff {bound : Nat} {counts : Counts} :
    counts.IdsBelow bound ↔ counts.maxTree?.elim 0 (· + 1) ≤ bound := by
  have hkeys : counts.table.keys.Pairwise (· < ·) :=
    List.pairwise_map.2 (counts.table.ascending.imp Nat.compare_eq_lt.1)
  have hmem : ∀ tree, tree ∈ counts.table.keys ↔ ∃ count, counts.count? tree = some count := by
    intro tree
    simp only [count?_eq_some_iff, SortedTable.keys, List.mem_map, toList, Prod.exists,
      exists_and_right, exists_eq_right]
  cases hl : counts.maxTree? with
  | none =>
    have hnil := List.getLast?_eq_none_iff.1 hl
    simp only [Option.elim_none, Nat.zero_le, iff_true]
    intro tree count he
    have hin := (hmem tree).2 ⟨count, he⟩
    rw [hnil] at hin
    cases hin
  | some last =>
    obtain ⟨front, hfront⟩ := List.getLast?_eq_some_iff.1 hl
    simp only [Option.elim_some, Nat.succ_le_iff]
    constructor
    · intro h
      obtain ⟨count, he⟩ := (hmem last).1 (by rw [hfront]; simp)
      exact h last count he
    · intro hlt tree count he
      have hin := (hmem tree).2 ⟨count, he⟩
      rw [hfront] at hin hkeys
      rcases List.mem_append.1 hin with hin | hin
      · exact Nat.lt_trans ((List.pairwise_append.1 hkeys).2.2 tree hin last (by simp)) hlt
      · rw [List.mem_singleton.1 hin]
        exact hlt

theorem IdsBelow.mono {m n : Nat} {counts : Counts} (h : counts.IdsBelow m) (hle : m ≤ n) :
    counts.IdsBelow n :=
  fun tree count he => Nat.lt_of_lt_of_le (h tree count he) hle

theorem idsBelow_empty (bound : Nat) : IdsBelow bound ∅ := by
  intro tree count he
  cases he

theorem idsBelow_single {bound tree : Nat} (h : tree < bound) : IdsBelow bound (single tree) := by
  intro other count he
  rw [count?_single] at he
  split at he
  · next heq => exact heq ▸ h
  · cases he

theorem IdsBelow.union {bound : Nat} {a b : Counts} (ha : a.IdsBelow bound)
    (hb : b.IdsBelow bound) : (a ∪ b).IdsBelow bound := by
  intro tree count he
  rw [count?_union, Option.merge_eq_some_iff] at he
  rcases he with ⟨he, -⟩ | ⟨-, he⟩ | ⟨x, y, he, -, -⟩
  · exact ha tree count he
  · exact hb tree count he
  · exact ha tree x he

end PathCensus.Counts
