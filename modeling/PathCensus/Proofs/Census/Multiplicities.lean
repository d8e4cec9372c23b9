import PathCensus.Proofs.Census.Flow
import PathCensus.Proofs.Tree.Steps

/-!
# Which paths a tree has, and how often

A census keeps, for each tree, the number of canonical paths that pass a place. A path that passes a
place ends there or goes on to one child, so those that end there are the ones that pass it less the
ones that pass its children. The counts of a tree thus determine its canonical paths with their
multiplicities, also where some of them are beginnings of others.
-/

namespace PathCensus

section Beginnings

variable {α : Type} [DecidableEq α] {front names : List α}

/-- A path with a given beginning ends there or goes on with one letter. -/
private theorem ite_prefix_eq {path : List α} (hd : names.Nodup)
    (hnext : ∀ name, front ++ [name] <+: path → name ∈ names) :
    (if front <+: path then 1 else 0) =
      (if path = front then 1 else 0) +
        sumBy (fun name => if front ++ [name] <+: path then 1 else 0) names := by
  by_cases hfront : front <+: path
  · obtain ⟨rest, rfl⟩ := hfront
    cases rest with
    | nil =>
      have hnone : ∀ name, ¬front ++ [name] <+: front := by
        intro name h
        have hle := h.length_le
        rw [List.length_append, List.length_singleton] at hle
        omega
      simp [hnone, sumBy_eq_zero]
    | cons next rest =>
      have hgoes : ∀ name, front ++ [name] <+: front ++ next :: rest ↔ next = name := by
        intro name
        rw [List.prefix_append_right_inj, List.cons_prefix_cons]
        simp [eq_comm]
      have hmem := hnext next ((hgoes next).2 rfl)
      simp only [hgoes, sumBy_ite_eq hd, if_pos hmem]
      simp
  · have hlonger : ∀ name, ¬front ++ [name] <+: path :=
      fun name h => hfront ((List.prefix_append front [name]).trans h)
    have hends : path ≠ front := by
      rintro rfl
      exact hfront List.prefix_rfl
    simp [hfront, hlonger, hends, sumBy_eq_zero]

/-- The paths with a given beginning are those that end there and those that go on with one of the
letters. -/
theorem countP_prefix_eq (hd : names.Nodup) {paths : List (List α)}
    (hnext : ∀ path ∈ paths, ∀ name, front ++ [name] <+: path → name ∈ names) :
    paths.countP (fun path => front <+: path) =
      paths.count front +
        sumBy (fun name => paths.countP fun path => front ++ [name] <+: path) names := by
  induction paths with
  | nil => simp [sumBy_eq_zero]
  | cons path rest ih =>
    have hrest := ih fun p hp => hnext p (List.mem_cons_of_mem path hp)
    have hpath := ite_prefix_eq hd (hnext path List.mem_cons_self)
    simp only [List.countP_cons, List.count_cons, sumBy_add, decide_eq_true_eq, beq_iff_eq]
    omega

/-- Paths with the same beginnings, each as often, are the same paths, each as often. -/
theorem perm_of_countP_prefix {first second : List (List α)} (hfirst : [] ∉ first)
    (hsecond : [] ∉ second)
    (h : ∀ front : List α, front ≠ [] →
      (first.countP fun path => front <+: path) = second.countP fun path => front <+: path) :
    first.Perm second := by
  rw [List.perm_iff_count]
  intro front
  by_cases hempty : front = []
  · rw [hempty, List.count_eq_zero_of_not_mem hfirst, List.count_eq_zero_of_not_mem hsecond]
  · let names := (first ++ second).flatten.dedup
    have hd : names.Nodup := List.nodup_dedup _
    have hnext : ∀ path ∈ first ++ second, ∀ name, front ++ [name] <+: path → name ∈ names := by
      intro path hp name hname
      refine List.mem_dedup.2 (List.mem_flatten.2 ⟨path, hp, hname.subset ?_⟩)
      exact List.mem_append_right front List.mem_cons_self
    have hcount := countP_prefix_eq hd fun path hp => hnext path (List.mem_append_left second hp)
    have hcount' := countP_prefix_eq hd fun path hp => hnext path (List.mem_append_right first hp)
    have hsame : ∀ name, (first.countP fun path => front ++ [name] <+: path) =
        second.countP fun path => front ++ [name] <+: path :=
      fun name => h (front ++ [name]) (by simp)
    have hpass := h front hempty
    simp only [hsame] at hcount
    omega

end Beginnings

namespace Census

variable {V W : Type}

/-- Each tree is counted, at the end of a path, for its canonical paths that begin with it. -/
theorem countIn_countsAt?_addTrees {trees : List (Node V)} {id : Nat} {tree : Node V}
    (h : trees[id]? = some tree) {labels : List String} (hne : labels ≠ []) :
    countIn ((empty.addTrees trees).countsAt? labels) id = tree.prefixCount labels := by
  have hcount := countIn_tallies labels 0 trees id
  rwa [Nat.zero_add, h, Option.elim_some, ← countsAt?_empty_addTrees trees hne] at hcount

/-- A tree is counted, at the end of a path, for its canonical paths that begin with it. -/
theorem WellFormed.countIn_countsAt?_addTree {census : Census} (h : census.WellFormed)
    (tree : Node V) {labels : List String} (hne : labels ≠ []) :
    countIn ((census.addTree tree).2.countsAt? labels) census.treeCount =
      tree.prefixCount labels := by
  rw [countsAt?_addTree census tree hne, countIn_join,
    h.countIn_countsAt?_of_le (Nat.le_refl _) labels, countIn_tally, if_pos rfl, Nat.zero_add]

/-- Trees with the same canonical paths, each as often, are added alike. -/
theorem addTree_agrees_of_perm (census : Census) {tree : Node V} {other : Node W}
    (h : tree.canonicalPaths.Perm other.canonicalPaths) :
    (census.addTree tree).2.Agrees (census.addTree other).2 := by
  refine ⟨by rw [treeCount_addTree, treeCount_addTree], fun labels hne => ?_⟩
  have hcount : tree.prefixCount labels = other.prefixCount labels := h.countP_eq _
  rw [countsAt?_addTree census tree hne, countsAt?_addTree census other hne, hcount]

/-- The counts of the new tree show which canonical paths it has, each how often. -/
theorem WellFormed.perm_of_countIn {census : Census} (h : census.WellFormed) {tree : Node V}
    {other : Node W}
    (hsame : ∀ labels, labels ≠ [] →
      countIn ((census.addTree tree).2.countsAt? labels) census.treeCount =
        countIn ((census.addTree other).2.countsAt? labels) census.treeCount) :
    tree.canonicalPaths.Perm other.canonicalPaths := by
  have hnil : ∀ {U : Type} (node : Node U), [] ∉ node.canonicalPaths :=
    fun node hmem => Node.ne_nil_of_mem_canonicalPaths hmem rfl
  refine perm_of_countP_prefix (hnil tree) (hnil other) fun front hne => ?_
  have hcount := hsame front hne
  rwa [h.countIn_countsAt?_addTree tree hne, h.countIn_countsAt?_addTree other hne] at hcount

/-- The canonical paths of a tree that pass a node are those that end there and those that pass one
of its children. -/
theorem get_eq_count_add {trees : List (Node V)} {id : Nat} {tree : Node V}
    (h : trees[id]? = some tree) {labels : List String} (hne : labels ≠ []) {node : Node Counts}
    (hf : (empty.addTrees trees).find? labels = some node) :
    node.value.get id =
      tree.canonicalPaths.count labels + sumBy (fun c => c.value.get id) node.children := by
  have hempty : Reachable .trees empty := .ofTreeCount 0
  have hw := (reachable_addTrees hempty trees).wellFormed
  have hlonger : ∀ name, labels ++ [name] ≠ [] := fun name => by simp
  have hnext : ∀ path ∈ tree.canonicalPaths, ∀ name, labels ++ [name] <+: path →
      name ∈ node.children.map Node.label := by
    intro path hp name hname
    by_contra hmissing
    have hnone : (empty.addTrees trees).find? (labels ++ [name]) = none := by
      have hchild : node.child? name = none :=
        Node.child?_eq_none_iff.2 fun c hc he => hmissing (List.mem_map.2 ⟨c, hc, he⟩)
      rw [find?, Node.descend?_append, ← find?, hf, Option.bind_some, Node.descend?_cons, hchild]
      rfl
    have hcount := countIn_countsAt?_addTrees h (hlonger name)
    rw [countsAt?_eq, hnone, Option.map_none, countIn_none] at hcount
    exact Node.prefixCount_eq_zero_iff.1 hcount.symm ⟨path, hp, hname⟩
  have hpass : node.value.get id = tree.prefixCount labels := by
    have hcount := countIn_countsAt?_addTrees h hne
    rwa [countsAt?_eq, hf, Option.map_some, countIn_some] at hcount
  have hbehind : sumBy (fun c => c.value.get id) node.children =
      sumBy (fun name => tree.prefixCount (labels ++ [name])) (node.children.map Node.label) := by
    rw [hw.sumBy_children hf]
    exact sumBy_congr fun name _ => countIn_countsAt?_addTrees h (hlonger name)
  rw [hpass, hbehind]
  exact countP_prefix_eq (hw.keyed.descend? hf).here.distinct hnext

/-- A path that leads nowhere is no canonical path. -/
theorem count_eq_zero_of_find? {trees : List (Node V)} {id : Nat} {tree : Node V}
    (h : trees[id]? = some tree) {labels : List String} (hne : labels ≠ [])
    (hf : (empty.addTrees trees).find? labels = none) : tree.canonicalPaths.count labels = 0 := by
  have hcount := countIn_countsAt?_addTrees h hne
  rw [countsAt?_eq, hf, Option.map_none, countIn_none] at hcount
  have hnone := Node.prefixCount_eq_zero_iff.1 hcount.symm
  exact List.count_eq_zero_of_not_mem fun hmem => hnone ⟨labels, hmem, List.prefix_rfl⟩

/-- In a census of trees, the canonical paths of a tree that end at a node are its count there less
its counts at the children, which are no more together; and no canonical path ends where there is no
node. So two trees that are added to a reachable census leave the same counts at the ends of all paths
exactly if they have the same canonical paths, each as often; the counts of the new tree alone tell. -/
theorem multiplicities_recoverable {U V W : Type} {trees : List (Node U)} {id : Nat} {tree : Node U}
    (h : trees[id]? = some tree) {sources : Sources} {census : Census}
    (hc : Reachable sources census) (first : Node V) (second : Node W) :
    (∀ labels, labels ≠ [] →
      (∀ node, (empty.addTrees trees).find? labels = some node →
        sumBy (fun c => c.value.get id) node.children ≤ node.value.get id ∧
          tree.canonicalPaths.count labels =
            node.value.get id - sumBy (fun c => c.value.get id) node.children) ∧
      ((empty.addTrees trees).find? labels = none → tree.canonicalPaths.count labels = 0)) ∧
    ((census.addTree first).2.Agrees (census.addTree second).2 ↔
      first.canonicalPaths.Perm second.canonicalPaths) ∧
    ((∀ labels, labels ≠ [] →
        countIn ((census.addTree first).2.countsAt? labels) census.treeCount =
          countIn ((census.addTree second).2.countsAt? labels) census.treeCount) ↔
      first.canonicalPaths.Perm second.canonicalPaths) := by
  refine ⟨fun labels hne => ⟨fun node hf => ?_, count_eq_zero_of_find? h hne⟩, ⟨fun hagrees => ?_, ?_⟩,
    ⟨hc.wellFormed.perm_of_countIn, fun hperm labels hne => ?_⟩⟩
  · have hpass := get_eq_count_add h hne hf
    omega
  · exact hc.wellFormed.perm_of_countIn fun labels hne => by rw [hagrees.countsAt labels hne]
  · exact addTree_agrees_of_perm census
  · rw [(addTree_agrees_of_perm census hperm).countsAt labels hne]

/-- The tree with a loop and a shorter branch: A, B, A and A, B and once more A, B are its canonical
paths, so one of them is the beginning of another. -/
def branchedLoopTree : Tree :=
  ⟨Node.rootLabel, none, .sequence, loopTree.children ++
    [⟨"A", none, .sequence, [.leaf "B" none .keyed]⟩]⟩

/-- The same canonical paths come of three branches that are never split. -/
def threeBranchTree : Tree :=
  ⟨Node.rootLabel, none, .sequence,
    [⟨"A", none, .sequence, [.leaf "B" none .sequence]⟩,
      ⟨"A", none, .sequence, [⟨"B", none, .sequence, [.leaf "A" none .sequence]⟩]⟩,
      ⟨"A", none, .keyed, [.leaf "B" none .sequence]⟩]⟩

/-- Two canonical paths end at A, B, where three pass, and the two trees cannot be told apart. -/
theorem multiplicities_recoverable_branched :
    [loopTree, branchedLoopTree][1]? = some branchedLoopTree ∧
      Reachable .all (empty.addTree loopTree).2 ∧
      (∃ node, (empty.addTrees [loopTree, branchedLoopTree]).find? ["A", "B"] = some node ∧
        node.value.get 1 = 3 ∧ branchedLoopTree.canonicalPaths.count ["A", "B"] =
          node.value.get 1 - sumBy (fun c => c.value.get 1) node.children) ∧
      ((empty.addTree loopTree).2.addTree branchedLoopTree).2.Agrees
        ((empty.addTree loopTree).2.addTree threeBranchTree).2 := by
  have hempty : Reachable .all empty := .ofTreeCount 0
  have hreach : Reachable .all (empty.addTree loopTree).2 := .addTree loopTree hempty
  have hid : [loopTree, branchedLoopTree][1]? = some branchedLoopTree := rfl
  obtain ⟨hnodes, hagrees, -⟩ :=
    multiplicities_recoverable hid hreach branchedLoopTree threeBranchTree
  have hperm : branchedLoopTree.canonicalPaths.Perm threeBranchTree.canonicalPaths := by
    decide +kernel
  have hfound : (empty.addTrees [loopTree, branchedLoopTree]).find? ["A", "B"] =
      some ⟨"B", Counts.ofList [(0, 2), (1, 3)], .keyed,
        [.leaf "A" (Counts.ofList [(0, 1), (1, 1)]) .keyed]⟩ := by
    decide +kernel
  exact ⟨hid, hreach, ⟨_, hfound, by decide, ((hnodes ["A", "B"] (by decide)).1 _ hfound).2⟩,
    hagrees.2 hperm⟩

end Census

end PathCensus
