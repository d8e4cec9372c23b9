import PathCensus.Proofs.Census.Productions
import PathCensus.Proofs.Census.SiblingOrder

/-!
# What a matrix adds up

A matrix is refused for the first tree without an id, whatever it is asked to add up. Otherwise it
has one entry for each of the chosen trees, and the entry is the same whichever other trees are
chosen. Over paths it adds the counts at their ends, so joined lists of paths give sums of entries;
over all nodes it adds up what it adds up over the paths to them, since each node has one path. In a
census of trees each canonical path is counted once at each of its beginnings, which are as many as
it has labels.
-/

namespace PathCensus

/-- One more label makes one more beginning, which is the whole path. -/
theorem countP_prefix_concat {α : Type} [DecidableEq α] (fronts : List (List α)) (path : List α)
    (a : α) :
    fronts.countP (fun front => front <+: path ++ [a]) =
      fronts.countP (fun front => front <+: path) + fronts.count (path ++ [a]) := by
  induction fronts with
  | nil => rfl
  | cons front rest ih =>
    rw [List.countP_cons, List.countP_cons, List.count_cons, ih]
    by_cases hwhole : front = path ++ [a]
    · have hlonger : ¬front <+: path := by
        intro h
        have hle := h.length_le
        rw [hwhole, List.length_append, List.length_singleton] at hle
        omega
      simp [hwhole ▸ hlonger, hwhole]
      omega
    · have hsame : front <+: path ++ [a] ↔ front <+: path := by
        rw [List.prefix_concat_iff, or_iff_right hwhole]
      simp only [hsame, beq_iff_eq, hwhole, if_false]
      omega

/-- The beginnings of a path are as many as its labels, the empty one left out. -/
theorem countP_beginnings {α : Type} [DecidableEq α] {fronts : List (List α)}
    (hd : fronts.Nodup) (hnil : [] ∉ fronts) {path : List α}
    (hall : ∀ front, front ≠ [] → front <+: path → front ∈ fronts) :
    fronts.countP (fun front => front <+: path) = path.length := by
  induction path using List.reverseRecOn with
  | nil =>
    rw [List.length_nil, List.countP_eq_zero]
    intro front hf hfront
    rw [decide_eq_true_eq, List.prefix_nil] at hfront
    exact hnil (hfront ▸ hf)
  | append_singleton path a ih =>
    have hwhole : fronts.count (path ++ [a]) = 1 := by
      refine List.count_eq_one_of_mem hd (hall _ ?_ List.prefix_rfl)
      simp
    have hpath := ih fun front hne hf => hall front hne (hf.trans (List.prefix_append path [a]))
    rw [countP_prefix_concat, hwhole, hpath, List.length_append, List.length_singleton]

namespace Census

variable {census : Census}

/-! ## Which trees are reported -/

theorem mem_sortDistinct {ids : List Nat} {id : Nat} : id ∈ sortDistinct ids ↔ id ∈ ids := by
  have hstep : ∀ (table : SortedTable Nat Unit) (i : Nat),
      id ∈ (table.alter i fun _ => ()).keys ↔ id ∈ table.keys ∨ i = id := by
    intro table i
    rw [SortedTable.mem_keys_alter, or_comm, eq_comm]
  rw [sortDistinct, foldl_iff (id ∈ SortedTable.keys ·) hstep]
  simp

/-- The reported trees ascend. -/
theorem pairwise_sortDistinct (ids : List Nat) : (sortDistinct ids).Pairwise (· < ·) :=
  List.pairwise_map.2 ((SortedTable.ascending _).imp Nat.compare_eq_lt.1)

/-- The first of several ids that was not given out: all in front of it were. -/
theorem firstUnknown?_eq_some_iff {ids : List Nat} {unknown : UnknownTree} :
    census.firstUnknown? ids = some unknown ↔
      ∃ before id after, ids = before ++ id :: after ∧ (∀ i ∈ before, i < census.treeCount) ∧
        census.treeCount ≤ id ∧ unknown = ⟨id, census.treeCount⟩ := by
  simp only [firstUnknown?, Option.map_eq_some_iff, List.find?_eq_some_iff_append,
    Bool.not_eq_eq_eq_not, Bool.not_true, decide_eq_false_iff_not, Nat.not_lt, Bool.not_not,
    decide_eq_true_eq]
  constructor
  · rintro ⟨id, ⟨hid, before, after, hids, hbefore⟩, rfl⟩
    exact ⟨before, id, after, hids, hbefore, hid, rfl⟩
  · rintro ⟨before, id, after, hids, hbefore, hid, rfl⟩
    exact ⟨id, ⟨hid, before, after, hids, hbefore⟩, rfl⟩

theorem firstUnknown?_eq_none_iff {ids : List Nat} :
    census.firstUnknown? ids = none ↔ ∀ id ∈ ids, id < census.treeCount := by
  simp [firstUnknown?]

/-! ## Entries -/

/-- What a matrix adds up for a tree. -/
def totalOver (census : Census) (paths : Option (List (List String))) (tree : Nat) : Nat :=
  sumBy (fun node => node.value.get tree) (census.selectedNodes paths)

/-- The entries for trees. -/
def entriesOver (census : Census) (paths : Option (List (List String))) (trees : List Nat) :
    List (Nat × Nat) :=
  trees.map fun tree => (tree, census.totalOver paths tree)

theorem matrix_eq (paths : Option (List (List String))) (trees : Option (List Nat)) :
    census.matrix paths trees = (census.selection trees).map (census.entriesOver paths) := rfl

@[simp] theorem map_fst_entriesOver (paths : Option (List (List String))) (trees : List Nat) :
    (census.entriesOver paths trees).map Prod.fst = trees := by
  rw [entriesOver, List.map_map]
  exact List.map_id trees

theorem mem_entriesOver {paths : Option (List (List String))} {trees : List Nat} {tree total : Nat} :
    (tree, total) ∈ census.entriesOver paths trees ↔
      tree ∈ trees ∧ total = census.totalOver paths tree := by
  simp only [entriesOver, List.mem_map, Prod.mk.injEq]
  constructor
  · rintro ⟨other, hmem, rfl, rfl⟩
    exact ⟨hmem, rfl⟩
  · rintro ⟨hmem, rfl⟩
    exact ⟨tree, hmem, rfl, rfl⟩

theorem matrix_none (paths : Option (List (List String))) :
    census.matrix paths none =
      .ok (census.entriesOver paths (List.range census.treeCount)) := rfl

/-- The entries of a matrix are the sums of the entries of two others for the same trees. -/
structure AddsUp (first second sum : List (Nat × Nat)) : Prop where
  /-- The first has the same trees. -/
  trees_first : first.map Prod.fst = sum.map Prod.fst
  /-- The second has the same trees. -/
  trees_second : second.map Prod.fst = sum.map Prod.fst
  /-- The entries of a tree add up. -/
  entries : ∀ tree a b, (tree, a) ∈ first → (tree, b) ∈ second → (tree, a + b) ∈ sum

theorem matrix_eq_ok_iff {paths : Option (List (List String))} {trees : Option (List Nat)}
    {entries : List (Nat × Nat)} :
    census.matrix paths trees = .ok entries ↔
      ∃ selected, census.selection trees = .ok selected ∧
        entries = census.entriesOver paths selected := by
  rw [matrix_eq]
  cases census.selection trees with
  | error unknown => simp [Except.map]
  | ok selected => simp [Except.map, eq_comm]

/-- Trees are refused for the first that has no id. -/
theorem matrix_eq_error_iff {paths : Option (List (List String))} {ids : List Nat}
    {unknown : UnknownTree} :
    census.matrix paths (some ids) = .error unknown ↔ census.firstUnknown? ids = some unknown := by
  rw [matrix_eq, selection]
  cases census.firstUnknown? ids with
  | none => simp [Except.map]
  | some found => simp [Except.map]

/-- Trees with ids are reported, each once. -/
theorem matrix_of_lt (paths : Option (List (List String))) {ids : List Nat}
    (h : ∀ id ∈ ids, id < census.treeCount) :
    census.matrix paths (some ids) = .ok (census.entriesOver paths (sortDistinct ids)) := by
  rw [matrix_eq, selection, firstUnknown?_eq_none_iff.2 h]
  rfl

/-! ## Over paths -/

/-- Over paths a matrix adds the counts at their ends. -/
theorem totalOver_some (paths : List (List String)) (tree : Nat) :
    census.totalOver (some paths) tree =
      sumBy (fun path => countIn (census.root.valueAt? path) tree) paths :=
  sumBy_selectedNodes_some census paths tree

/-- Joined lists of paths give the sums of what each of them gives. -/
theorem totalOver_append (first second : List (List String)) (tree : Nat) :
    census.totalOver (some (first ++ second)) tree =
      census.totalOver (some first) tree + census.totalOver (some second) tree := by
  rw [totalOver_some, sumBy_append, totalOver_some, totalOver_some]

/-- A path adds the counts at its end; the empty path and paths that lead nowhere add nothing. -/
theorem WellFormed.totalOver_singleton (h : census.WellFormed) (path : List String) (tree : Nat) :
    census.totalOver (some [path]) tree =
      if path = [] then 0 else (census.find? path).elim 0 fun node => node.value.get tree := by
  rw [totalOver_some, sumBy_cons, sumBy_nil, Nat.add_zero, Node.valueAt?]
  split
  · next hempty =>
    rw [hempty, Node.descend?_nil, Option.map_some, h.root_value]
    rfl
  · rw [← find?]
    cases census.find? path <;> rfl

/-- All nodes below the root are what the paths to them lead to, each path once. -/
theorem WellFormed.selectedNodes_none (h : census.WellFormed) :
    census.selectedNodes none = census.selectedNodes (some (census.root.chains.map Node.labels)) := by
  have hends : census.selectedNodes none = census.root.chains.filterMap List.getLast? :=
    (Visit.filterMap_getLast?_chains _ []).symm
  rw [hends, selectedNodes, List.filterMap_map]
  exact List.filterMap_congr fun chain hc => (h.keyed.descend?_of_mem_chains hc).symm

theorem WellFormed.matrix_none_eq (h : census.WellFormed) (trees : Option (List Nat)) :
    census.matrix none trees =
      census.matrix (some (census.root.chains.map Node.labels)) trees := by
  rw [matrix, matrix, h.selectedNodes_none]

/-! ## Over the canonical paths of trees -/

/-- Over all beginnings of its canonical paths, a tree has as many of them as these have labels. -/
theorem sumBy_prefixCount {V : Type} (tree : Node V) {fronts : List (List String)}
    (hd : fronts.Nodup) (hnil : [] ∉ fronts)
    (hall : ∀ path ∈ tree.canonicalPaths, ∀ front, front ≠ [] → front <+: path → front ∈ fronts) :
    sumBy tree.prefixCount fronts = sumBy List.length tree.canonicalPaths := by
  calc sumBy tree.prefixCount fronts
      = sumBy (fun front => sumBy (fun path => if front <+: path then 1 else 0)
          tree.canonicalPaths) fronts := by
        refine sumBy_congr fun front _ => ?_
        simp only [Node.prefixCount, countP_eq_sumBy, decide_eq_true_eq]
    _ = sumBy (fun path => sumBy (fun front => if front <+: path then 1 else 0) fronts)
          tree.canonicalPaths := sumBy_comm _ _ _
    _ = sumBy (fun path => fronts.countP fun front => front <+: path) tree.canonicalPaths := by
        simp only [countP_eq_sumBy, decide_eq_true_eq]
    _ = sumBy List.length tree.canonicalPaths :=
        sumBy_congr fun path hp => countP_beginnings hd hnil (hall path hp)

variable {V : Type}

/-- In a census of trees, all nodes together count a tree once for each label on each of its
canonical paths. -/
theorem totalOver_none_addTrees (first : Nat) {trees : List (Node V)} {i : Nat} {tree : Node V}
    (hi : trees[i]? = some tree) :
    ((ofTreeCount first).addTrees trees).totalOver none (first + i) =
      sumBy List.length tree.canonicalPaths := by
  have hempty : Reachable .trees (ofTreeCount first) := .ofTreeCount first
  have hw := (reachable_addTrees hempty trees).wellFormed
  have hmem : ∀ path, path ∈ ((ofTreeCount first).addTrees trees).root.chains.map Node.labels ↔
      path ≠ [] ∧ (tallies path first trees).isSome := by
    intro path
    rw [hw.keyed.mem_labels_chains_iff]
    refine and_congr_right fun hne => ?_
    rw [← countsAt?_ofTreeCount_addTrees first trees hne, isSome_countsAt?, find?]
  have hcount : ∀ path ∈ ((ofTreeCount first).addTrees trees).root.chains.map Node.labels,
      countIn (((ofTreeCount first).addTrees trees).root.valueAt? path) (first + i) =
        tree.prefixCount path := by
    intro path hp
    have htallies := countsAt?_ofTreeCount_addTrees first trees ((hmem path).1 hp).1
    rw [countsAt?] at htallies
    rw [htallies, countIn_tallies, hi, Option.elim_some]
  rw [totalOver, hw.selectedNodes_none, ← totalOver, totalOver_some, sumBy_congr hcount]
  refine sumBy_prefixCount tree hw.keyed.nodup_labels_chains (fun hnil => ?_) ?_
  · exact ((hmem []).1 hnil).1 rfl
  · intro path hp front hne hfront
    exact (hmem front).2 ⟨hne,
      (isSome_tallies front first trees).2 ⟨tree, List.mem_of_getElem? hi, path, hp, hfront⟩⟩

/-- In a census of trees, ids that were given out before are not counted anywhere. -/
theorem totalOver_none_addTrees_of_lt {first id : Nat} (hlt : id < first) (trees : List (Node V)) :
    ((ofTreeCount first).addTrees trees).totalOver none id = 0 := by
  have hempty : Reachable .trees (ofTreeCount first) := .ofTreeCount first
  have hw := (reachable_addTrees hempty trees).wellFormed
  rw [totalOver, hw.selectedNodes_none, ← totalOver, totalOver_some]
  refine sumBy_eq_zero fun path hp => ?_
  have hne := (hw.keyed.mem_labels_chains_iff.1 hp).1
  rw [← countsAt?, countsAt?_ofTreeCount_addTrees first trees hne, countIn_tallies_of_lt _ hlt]

/-- The matrix of all nodes of a census of trees. -/
theorem matrix_addTrees (first : Nat) (trees : List (Node V)) :
    ((ofTreeCount first).addTrees trees).matrix none none =
      .ok ((List.range first).map (·, 0) ++
        trees.mapIdx fun i tree => (first + i, sumBy List.length tree.canonicalPaths)) := by
  have hcount : ((ofTreeCount first).addTrees trees).treeCount = first + trees.length :=
    treeCount_addTrees _ trees
  rw [matrix_none, hcount, entriesOver, List.range_add, List.map_append, List.map_map]
  congr 2
  · exact List.map_congr_left fun id hid =>
      congrArg (id, ·) (totalOver_none_addTrees_of_lt (List.mem_range.1 hid) trees)
  · apply List.ext_getElem
    · rw [List.length_map, List.length_range, List.length_mapIdx]
    · intro i hi hi'
      rw [List.length_mapIdx] at hi'
      rw [List.getElem_map, List.getElem_range, List.getElem_mapIdx, Function.comp_apply,
        totalOver_none_addTrees first (List.getElem?_eq_getElem hi')]

/-- **One matrix, however it is asked for.** Whatever is added up, a matrix of chosen trees is refused
exactly if one of them has no id, and for the first such; otherwise it has each of them once, in
ascending order, with the entry that it has in the matrix of all trees. Joined lists of paths add up;
a path adds the counts at its end, the empty path and one that leads nowhere nothing. Over all nodes a
matrix is that of the paths to them, which are the paths that lead somewhere, each once. In a census of
trees that were added to a census without counts, the entry of each tree over all nodes is the sum of
the lengths of its canonical paths. -/
theorem matrix_consistent {sources : Sources} {census : Census} (h : Reachable sources census) :
    (∀ paths ids unknown, census.matrix paths (some ids) = .error unknown ↔
        ∃ before id after, ids = before ++ id :: after ∧ (∀ i ∈ before, i < census.treeCount) ∧
          census.treeCount ≤ id ∧ unknown = ⟨id, census.treeCount⟩) ∧
      (∀ paths, ∃ all, census.matrix paths none = .ok all ∧
        all.map Prod.fst = List.range census.treeCount ∧
        ∀ ids, (∀ id ∈ ids, id < census.treeCount) →
          ∃ chosen, census.matrix paths (some ids) = .ok chosen ∧
            (chosen.map Prod.fst).Pairwise (· < ·) ∧
            (∀ id, id ∈ chosen.map Prod.fst ↔ id ∈ ids) ∧ ∀ entry ∈ chosen, entry ∈ all) ∧
      (∀ first second trees a b, census.matrix (some first) trees = .ok a →
        census.matrix (some second) trees = .ok b →
        ∃ sum, census.matrix (some (first ++ second)) trees = .ok sum ∧ AddsUp a b sum) ∧
      (∀ path trees entries, census.matrix (some [path]) trees = .ok entries →
        ∀ entry ∈ entries, entry.2 =
          if path = [] then 0 else (census.find? path).elim 0 fun node => node.value.get entry.1) ∧
      (∀ trees, census.matrix none trees =
        census.matrix (some (census.root.chains.map Node.labels)) trees) ∧
      (census.root.chains.map Node.labels).Nodup ∧
      (∀ path, path ∈ census.root.chains.map Node.labels ↔
        path ≠ [] ∧ (census.find? path).isSome) ∧
      ∀ {V : Type} (first : Nat) (trees : List (Node V)),
        ((ofTreeCount first).addTrees trees).matrix none none =
          .ok ((List.range first).map (·, 0) ++
            trees.mapIdx fun i tree => (first + i, sumBy List.length tree.canonicalPaths)) := by
  have hw := h.wellFormed
  refine ⟨fun paths ids unknown => ?_, fun paths => ?_, fun first second trees a b ha hb => ?_,
    fun path trees entries he entry hentry => ?_, hw.matrix_none_eq, hw.keyed.nodup_labels_chains,
    fun path => hw.keyed.mem_labels_chains_iff, matrix_addTrees⟩
  · rw [matrix_eq_error_iff, firstUnknown?_eq_some_iff]
  · refine ⟨_, matrix_none paths, map_fst_entriesOver _ _, fun ids hids => ?_⟩
    refine ⟨_, matrix_of_lt paths hids, ?_, fun id => ?_, fun ⟨id, total⟩ hentry => ?_⟩
    · rw [map_fst_entriesOver]
      exact pairwise_sortDistinct ids
    · rw [map_fst_entriesOver, mem_sortDistinct]
    · obtain ⟨hmem, htotal⟩ := mem_entriesOver.1 hentry
      have hlt := hids id (mem_sortDistinct.1 hmem)
      exact mem_entriesOver.2 ⟨List.mem_range.2 hlt, htotal⟩
  · obtain ⟨selected, hselected, rfl⟩ := matrix_eq_ok_iff.1 ha
    obtain ⟨same, hsame, rfl⟩ := matrix_eq_ok_iff.1 hb
    obtain rfl : selected = same := Except.ok.inj (hselected.symm.trans hsame)
    refine ⟨_, matrix_eq_ok_iff.2 ⟨selected, hselected, rfl⟩, ?_⟩
    constructor
    case trees_first => rw [map_fst_entriesOver, map_fst_entriesOver]
    case trees_second => rw [map_fst_entriesOver, map_fst_entriesOver]
    case entries =>
      intro tree x y hx hy
      obtain ⟨hmem, rfl⟩ := mem_entriesOver.1 hx
      obtain ⟨-, rfl⟩ := mem_entriesOver.1 hy
      exact mem_entriesOver.2 ⟨hmem, (totalOver_append first second tree).symm⟩
  · obtain ⟨selected, -, rfl⟩ := matrix_eq_ok_iff.1 he
    obtain ⟨-, htotal⟩ := mem_entriesOver.1 hentry
    rw [htotal, hw.totalOver_singleton]

/-- Of the ids 1, 7, 9 the first unknown one is refused, and of 1, 0, 1 each is reported once. A path
that is named twice counts twice, next to one that leads nowhere and the empty path, and the two trees
have canonical paths of five and of two labels together. -/
theorem matrix_consistent_repeated :
    Reachable .all (empty.addTrees [loopTree, forkTree]) ∧
      (empty.addTrees [loopTree, forkTree]).matrix none (some [1, 7, 9]) = .error ⟨7, 2⟩ ∧
      (∃ chosen, (empty.addTrees [loopTree, forkTree]).matrix none (some [1, 0, 1]) = .ok chosen ∧
        (chosen.map Prod.fst).Pairwise (· < ·) ∧
        ∀ id, id ∈ chosen.map Prod.fst ↔ id ∈ [1, 0, 1]) ∧
      (∃ sum, (empty.addTrees [loopTree, forkTree]).matrix (some ([["A"], ["X"]] ++ [["A"], []]))
          none = .ok sum ∧ (0, 4) ∈ sum) ∧
      (empty.addTrees [loopTree, forkTree]).matrix none none = .ok [(0, 5), (1, 2)] := by
  have hempty : Reachable .all empty := .ofTreeCount 0
  have hreach := reachable_addTrees hempty [loopTree, forkTree]
  obtain ⟨hrefused, hchosen, hsum, -, -, -, -, htrees⟩ := matrix_consistent hreach
  have hcount : (empty.addTrees [loopTree, forkTree]).treeCount = 2 := treeCount_addTrees _ _
  rw [hcount] at hrefused hchosen
  have hunknown := (hrefused none [1, 7, 9] ⟨7, 2⟩).2 ⟨[1], 7, [9], rfl, by decide, by decide, rfl⟩
  obtain ⟨all, -, -, hall⟩ := hchosen none
  obtain ⟨chosen, hmatrix, hascending, hmem, -⟩ := hall [1, 0, 1] (by decide)
  obtain ⟨sum, hjoined, hadds⟩ := hsum [["A"], ["X"]] [["A"], []] none [(0, 2), (1, 1)]
    [(0, 2), (1, 1)] (by decide +kernel) (by decide +kernel)
  have hlengths : (List.range 0).map (·, 0) ++ [loopTree, forkTree].mapIdx (fun i tree =>
      (0 + i, sumBy List.length tree.canonicalPaths)) = [(0, 5), (1, 2)] := by decide +kernel
  exact ⟨hreach, hunknown, ⟨chosen, hmatrix, hascending, hmem⟩,
    ⟨sum, hjoined, hadds.entries 0 2 2 (by decide) (by decide)⟩,
    (htrees 0 [loopTree, forkTree]).trans (congrArg Except.ok hlengths)⟩

end Census

end PathCensus
