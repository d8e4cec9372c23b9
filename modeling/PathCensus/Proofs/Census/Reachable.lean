import PathCensus.Census.Dump
import PathCensus.Proofs.Census.Deposits
import PathCensus.Proofs.Dump.Rereading

/-!
# Reachable censuses

All operations put counts along paths, so one lemma about deposits says what they keep: the root has
its label and counts nothing, every node keeps one child per label, and every counted tree has an id
that was given out. Reading a dump makes a census of this kind from any lines.
-/

namespace PathCensus.Census

/-- What every census is like. -/
structure WellFormed (census : Census) : Prop where
  /-- The root has its label. -/
  root_label : census.root.label = Node.rootLabel
  /-- The root counts nothing. -/
  root_value : census.root.value = ∅
  /-- Every node keeps one child per label. -/
  keyed : census.root.Keyed
  /-- Every counted tree has an id that was given out. -/
  ids : census.root.Everywhere fun node => node.value.IdsBelow census.treeCount

/-- Where a census may come from, apart from trees and other censuses. -/
structure Sources where
  /-- Single paths were counted. -/
  paths : Bool
  /-- Any dumps were read, and not only those of censuses. -/
  dumps : Bool

/-- All that the operations offer. -/
def Sources.all : Sources := ⟨true, true⟩

/-- Trees and other censuses alone. -/
def Sources.trees : Sources := ⟨false, false⟩

/-- The censuses that come of operations on censuses, in any order, from the given sources. -/
inductive Reachable (sources : Sources) : Census → Prop where
  /-- A census without counts. -/
  | ofTreeCount (n : Nat) : Reachable sources (ofTreeCount n)
  /-- A tree was added. -/
  | addTree {V : Type} {census : Census} (tree : Node V) :
      Reachable sources census → Reachable sources (census.addTree tree).2
  /-- A path was counted. -/
  | addPath {census after : Census} {labels : List String} {tree : Nat} :
      sources.paths = true → Reachable sources census →
      census.addPath labels tree = .ok after → Reachable sources after
  /-- The counts along the complete paths of another census were added. -/
  | addCounts {census other : Census} :
      Reachable sources census → Reachable sources other →
      Reachable sources (census.addCounts other)
  /-- The counts of another census were added node by node. -/
  | merge {census other : Census} :
      Reachable sources census → Reachable sources other → Reachable sources (census.merge other)
  /-- The counts below a label were laid over each other. -/
  | restructure {census : Census} (label : String) :
      Reachable sources census → Reachable sources (census.restructure label)
  /-- A dump was read. -/
  | ofLines {lines : List Dump.RawLine} {census : Census} :
      sources.dumps = true → ofLines lines = .ok census → Reachable sources census
  /-- A census was written and read again. -/
  | reread {census after : Census} {text : String} :
      Reachable sources census → census.render = .ok text → ofText text = .ok after →
      Reachable sources after

/-! ## Operations as deposits -/

/-- Counts along a chain, for every node its own. -/
def countsAlong (chain : List (Node Counts)) : List (String × Counts) :=
  chain.map fun node => (node.label, node.value)

/-- One occurrence of a tree along a path. -/
def onceAlong (tree : Nat) (labels : List String) : List (String × Counts) :=
  labels.map fun label => (label, Counts.single tree)

theorem addTree_eq {V : Type} (census : Census) (tree : Node V) :
    (census.addTree tree).2 =
      (tree.canonicalPaths.map (onceAlong census.treeCount)).foldl put
        { census with treeCount := census.treeCount + 1 } := by
  rw [List.foldl_map]
  rfl

/-- A path is counted for a tree exactly if the tree has an id. -/
theorem addPath_eq_ok_iff {census after : Census} {labels : List String} {tree : Nat} :
    census.addPath labels tree = .ok after ↔
      tree < census.treeCount ∧ after = [onceAlong tree labels].foldl put census := by
  rw [addPath, checkTree]
  split
  · next hlt =>
    rw [Except.map, Except.ok.injEq, eq_comm, and_iff_right hlt]
    rfl
  · next hge => simp only [Except.map, reduceCtorEq, hge, false_and]

/-- A path is refused exactly for a tree without an id. -/
theorem addPath_eq_error_iff {census : Census} {labels : List String} {tree : Nat}
    {unknown : UnknownTree} :
    census.addPath labels tree = .error unknown ↔
      census.treeCount ≤ tree ∧ unknown = ⟨tree, census.treeCount⟩ := by
  rw [addPath, checkTree]
  split
  · next hlt => simp only [Except.map, reduceCtorEq, Nat.not_le_of_lt hlt, false_and]
  · next hge =>
    simp only [Except.map, Except.error.injEq, Nat.le_of_not_lt hge, true_and, eq_comm]

theorem absorb_eq (census : Census) (chains : List (List (Node Counts))) :
    census.absorb chains = (chains.map countsAlong).foldl put census := by
  rw [List.foldl_map]
  rfl

/-- The number of trees can be set before or after the deposits. -/
theorem foldl_put_treeCount (census : Census) (deposits : List (List (String × Counts))) (n : Nat) :
    { deposits.foldl put census with treeCount := n } =
      deposits.foldl put { census with treeCount := n } := by
  induction deposits generalizing census with
  | nil => rfl
  | cons path rest ih => exact ih (census.put path)

theorem addCounts_eq (census other : Census) :
    census.addCounts other =
      (other.root.completePaths.map countsAlong).foldl put
        { census with treeCount := max census.treeCount other.treeCount } := by
  rw [addCounts, absorb_eq, foldl_put_treeCount]

theorem merge_eq (census other : Census) :
    census.merge other =
      (other.root.chains.map lastOnly).foldl put
        { census with treeCount := max census.treeCount other.treeCount } := by
  rw [← foldl_put_treeCount, List.foldl_map]
  rfl

theorem restructure_eq (census : Census) (label : String) :
    census.restructure label =
      ((census.root.topmost label).flatMap fun node => node.leafRoutes.map countsAlong).foldl put
        (ofTreeCount census.treeCount) := by
  rw [restructure, List.foldl_flatMap]
  congr 1
  funext combined node
  rw [absorb_eq, Node.completePathsFrom_eq, List.reverse_singleton, List.flatMap_singleton]

theorem map_fst_countsAlong (chain : List (Node Counts)) :
    (countsAlong chain).map Prod.fst = Node.labels chain := by
  rw [countsAlong, List.map_map]
  rfl

theorem map_fst_onceAlong (tree : Nat) (labels : List String) :
    (onceAlong tree labels).map Prod.fst = labels := by
  simp [onceAlong, Function.comp_def]

theorem map_fst_lastOnly (chain : List (Node Counts)) :
    (lastOnly chain).map Prod.fst = Node.labels chain := by
  induction chain with
  | nil => rfl
  | cons node rest ih =>
    cases rest with
    | nil => rfl
    | cons next rest => rw [lastOnly, List.map_cons, ih]; rfl

/-- A chain that adds counts at its last node adds nothing or counts of one of its nodes. -/
theorem mem_lastOnly {chain : List (Node Counts)} {step : String × Counts}
    (h : step ∈ lastOnly chain) : step.2 = ∅ ∨ ∃ node ∈ chain, step.2 = node.value := by
  induction chain with
  | nil => cases h
  | cons node rest ih =>
    cases rest with
    | nil => exact .inr ⟨node, by simp, by rw [List.mem_singleton.1 h]⟩
    | cons next rest =>
      rcases List.mem_cons.1 h with rfl | h
      · exact .inl rfl
      · rcases ih h with he | ⟨m, hm, he⟩
        · exact .inl he
        · exact .inr ⟨m, List.mem_cons_of_mem _ hm, he⟩

/-! ## What operations keep -/

theorem wellFormed_ofTreeCount (n : Nat) : (ofTreeCount n).WellFormed :=
  ⟨rfl, rfl, Builder.keyed_leaf _ _, .intro (Counts.idsBelow_empty n) nofun⟩

/-- More ids may be given out. -/
theorem WellFormed.withTreeCount {census : Census} (h : census.WellFormed) {n : Nat}
    (hle : census.treeCount ≤ n) : ({ census with treeCount := n } : Census).WellFormed :=
  ⟨h.root_label, h.root_value, h.keyed, h.ids.mono fun _ hids => hids.mono hle⟩

/-- Deposits of counts whose trees have ids keep a census well-formed. -/
theorem WellFormed.foldl_put {census : Census} (h : census.WellFormed)
    {deposits : List (List (String × Counts))}
    (hd : ∀ path ∈ deposits, ∀ step ∈ path, step.2.IdsBelow census.treeCount) :
    (deposits.foldl put census).WellFormed := by
  induction deposits generalizing census with
  | nil => exact h
  | cons path rest ih =>
    have hput : (census.put path).WellFormed := by
      refine ⟨?_, ?_, h.keyed.deposit path, h.ids.deposit_idsBelow (hd path List.mem_cons_self)⟩
      · exact (deposit_label path census.root).trans h.root_label
      · exact (deposit_value path census.root).trans h.root_value
    exact ih hput fun p hp => hd p (List.mem_cons_of_mem _ hp)

theorem WellFormed.addTree {V : Type} {census : Census} (h : census.WellFormed) (tree : Node V) :
    (census.addTree tree).2.WellFormed := by
  rw [addTree_eq]
  refine (h.withTreeCount (Nat.le_succ _)).foldl_put fun path hp step hs => ?_
  obtain ⟨labels, -, rfl⟩ := List.mem_map.1 hp
  obtain ⟨label, -, rfl⟩ := List.mem_map.1 hs
  exact Counts.idsBelow_single (Nat.lt_succ_self _)

theorem WellFormed.addPath {census after : Census} (h : census.WellFormed) {labels : List String}
    {tree : Nat} (ha : census.addPath labels tree = .ok after) : after.WellFormed := by
  obtain ⟨hlt, rfl⟩ := addPath_eq_ok_iff.1 ha
  refine h.foldl_put fun path hp step hs => ?_
  rw [List.mem_singleton.1 hp] at hs
  obtain ⟨label, -, rfl⟩ := List.mem_map.1 hs
  exact Counts.idsBelow_single hlt

theorem WellFormed.addCounts {census other : Census} (h : census.WellFormed)
    (ho : other.WellFormed) : (census.addCounts other).WellFormed := by
  rw [addCounts_eq]
  refine (h.withTreeCount (Nat.le_max_left _ _)).foldl_put fun path hp step hs => ?_
  obtain ⟨chain, hc, rfl⟩ := List.mem_map.1 hp
  obtain ⟨node, hn, rfl⟩ := List.mem_map.1 hs
  have hchain := (Node.mem_completePaths_iff.1 hc).1
  exact (ho.ids.of_mem_chain hchain hn).here.mono (Nat.le_max_right _ _)

theorem WellFormed.merge {census other : Census} (h : census.WellFormed)
    (ho : other.WellFormed) : (census.merge other).WellFormed := by
  rw [merge_eq]
  refine (h.withTreeCount (Nat.le_max_left _ _)).foldl_put fun path hp step hs => ?_
  obtain ⟨chain, hc, rfl⟩ := List.mem_map.1 hp
  rcases mem_lastOnly hs with he | ⟨node, hn, he⟩
  · rw [he]
    exact Counts.idsBelow_empty _
  · rw [he]
    exact (ho.ids.of_mem_chain hc hn).here.mono (Nat.le_max_right _ _)

theorem WellFormed.restructure {census : Census} (h : census.WellFormed) (label : String) :
    (census.restructure label).WellFormed := by
  rw [restructure_eq]
  refine (wellFormed_ofTreeCount _).foldl_put fun path hp step hs => ?_
  obtain ⟨top, ht, hp⟩ := List.mem_flatMap.1 hp
  obtain ⟨route, hr, rfl⟩ := List.mem_map.1 hp
  obtain ⟨node, hn, rfl⟩ := List.mem_map.1 hs
  have htop := Node.everywhere_of_mem_topmost (fun c hc => h.ids.child hc) ht
  exact (htop.of_mem_route (List.mem_filter.1 hr).1 hn).here

/-! ## Reading -/

/-- A number of trees has every counted id exactly if it is not below the least one. -/
theorem leastTreeCount_le_iff {root : Node Counts} {bound : Nat} :
    leastTreeCount root ≤ bound ↔
      ∀ c ∈ root.children, c.Everywhere fun node => node.value.IdsBelow bound := by
  have hfold : ∀ (numbers : List Nat) (start : Nat),
      numbers.foldl max start ≤ bound ↔ start ≤ bound ∧ ∀ n ∈ numbers, n ≤ bound := by
    intro numbers
    induction numbers with
    | nil => simp
    | cons n rest ih =>
      intro start
      rw [List.foldl_cons, ih, List.forall_mem_cons, Nat.max_le, and_assoc]
  rw [Node.everywhere_below_iff_walk, leastTreeCount, hfold]
  simp only [Nat.zero_le, true_and, List.forall_mem_map, Counts.idsBelow_iff]

/-- Keyed nodes that are read below a root are a well-formed census with enough trees. -/
theorem wellFormed_of_readLines {before n : Nat} {lines : List Dump.RawLine} {root : Node Counts}
    (h : Dump.readLines .keyed before lines = .ok root) (hn : leastTreeCount root ≤ n) :
    (⟨root, n⟩ : Census).WellFormed := by
  obtain ⟨hlabel, hvalue, hkeyed⟩ :=
    Dump.keepsKeyed_of_build (Builder.keepsKeyed_start Node.rootLabel ∅) h
  refine ⟨hlabel, hvalue, hkeyed, .intro ?_ (leastTreeCount_le_iff.1 hn)⟩
  rw [hvalue]
  exact Counts.idsBelow_empty n

/-- Whatever dump is read, the census is well-formed. -/
theorem wellFormed_ofLines {lines : List Dump.RawLine} {census : Census}
    (h : ofLines lines = .ok census) : census.WellFormed := by
  rw [Census.ofLines] at h
  split at h
  · next declared rest _ =>
    cases hr : (Dump.readLines .keyed 1 rest : Except Dump.ReadFault (Node Counts)) with
    | error fault => simp [hr, Except.map] at h
    | ok root =>
      simp only [hr, Except.map, Except.ok.injEq] at h
      subst h
      exact wellFormed_of_readLines hr (Nat.le_max_right _ _)
  · cases hr : (Dump.readLines .keyed 0 lines : Except Dump.ReadFault (Node Counts)) with
    | error fault => simp [hr, Except.map] at h
    | ok root =>
      simp only [hr, Except.map, Except.ok.injEq] at h
      subst h
      exact wellFormed_of_readLines hr (Nat.le_refl _)

/-- Every reachable census is well-formed. -/
theorem Reachable.wellFormed {sources : Sources} {census : Census}
    (h : Reachable sources census) : census.WellFormed := by
  induction h with
  | ofTreeCount n => exact wellFormed_ofTreeCount n
  | addTree tree _ ih => exact ih.addTree tree
  | addPath _ _ ha ih => exact ih.addPath ha
  | addCounts _ _ ih iho => exact ih.addCounts iho
  | merge _ _ ih iho => exact ih.merge iho
  | restructure label _ ih => exact ih.restructure label
  | ofLines _ ho => exact wellFormed_ofLines ho
  | reread _ _ ho => exact wellFormed_ofLines ho

end PathCensus.Census
