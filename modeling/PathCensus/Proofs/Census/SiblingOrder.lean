import PathCensus.Proofs.Census.Parallel
import PathCensus.Proofs.Census.Restructuring
import PathCensus.Proofs.Tree.Alike

/-!
# The order of children does not show

Censuses that agree may keep their children in different orders at every node, and walks and searches
then meet the nodes in different orders. All operations make censuses that agree again, since what
they add up comes in another order only, and all questions have the same answers.
-/

namespace PathCensus

/-- Two outcomes with related results, or with the same refusal. -/
inductive SameOutcome {ε α : Type} (R : α → α → Prop) : Except ε α → Except ε α → Prop
  | ok {a b : α} : R a b → SameOutcome R (.ok a) (.ok b)
  | error (refusal : ε) : SameOutcome R (.error refusal) (.error refusal)

/-- Deposits add the same in any order. -/
theorem shares_perm {first second : List (List (String × Counts))} (h : first.Perm second)
    (labels : List String) : shares labels first = shares labels second := by
  have hmap : ∀ deposits : List (List (String × Counts)),
      shares labels deposits = (deposits.map (share labels)).foldr join? none := by
    intro deposits
    rw [List.foldr_map]
    rfl
  rw [hmap, hmap]
  exact (h.map _).foldr_op_eq

/-- Alike nodes add the same at the end of every path. -/
theorem Node.Alike.weightAt?_eq {a b : Node Counts} (h : a.Alike b) (ha : a.Keyed) (hb : b.Keyed)
    (path : List String) : a.weightAt? path = b.weightAt? path := by
  rw [weightAt?, weightAt?]
  cases hm : a.descend? path with
  | none => rw [h.descend?_eq_none hm]
  | some m =>
    obtain ⟨n, hn, hmn⟩ := h.descend? hm
    rw [hn, Option.bind_some, Option.bind_some, hmn.value_eq,
      hmn.leafCount_eq (Everywhere.descend? ha hm) (Everywhere.descend? hb hn)]

/-- The chains of visits end at the nodes that are visited. -/
theorem Visit.filterMap_getLast?_chains {V : Type} (visits : List (Visit V)) (buffer : List (Node V)) :
    (chains buffer visits).filterMap List.getLast? = visits.map Visit.node := by
  induction visits generalizing buffer with
  | nil => rfl
  | cons visit rest ih =>
    rw [chains, List.filterMap_cons, List.getLast?_concat, ih, List.map_cons]

namespace Census

variable {a b other other' : Census}

/-- The roots of censuses that agree are alike. -/
theorem Agrees.alike (h : a.Agrees b) (ha : a.WellFormed) (hb : b.WellFormed) :
    a.root.Alike b.root :=
  h.map_value_find? ha hb

/-! ## Operations -/

/-- A tree adds the same to censuses that agree. -/
theorem Agrees.addTree (h : a.Agrees b) {V : Type} (tree : Node V) :
    (a.addTree tree).2.Agrees (b.addTree tree).2 := by
  constructor
  · rw [treeCount_addTree, treeCount_addTree, h.treeCount]
  · intro labels hne
    rw [countsAt?_addTree a tree hne, countsAt?_addTree b tree hne, h.countsAt labels hne,
      h.treeCount]

/-- A path is counted in both of two censuses that agree, or refused by both. -/
theorem Agrees.addPath (h : a.Agrees b) (labels : List String) (tree : Nat) :
    SameOutcome Agrees (a.addPath labels tree) (b.addPath labels tree) := by
  by_cases hlt : tree < a.treeCount
  · rw [addPath_eq_ok_iff.2 ⟨hlt, rfl⟩, addPath_eq_ok_iff.2 ⟨h.treeCount ▸ hlt, rfl⟩]
    refine .ok ⟨h.treeCount, fun path hne => ?_⟩
    rw [countsAt?_foldl_put _ _ hne, countsAt?_foldl_put _ _ hne, h.countsAt path hne]
  · have hle := Nat.le_of_not_lt hlt
    rw [addPath_eq_error_iff.2 ⟨hle, rfl⟩, addPath_eq_error_iff.2 ⟨h.treeCount ▸ hle, rfl⟩,
      h.treeCount]
    exact .error _

theorem Agrees.addCounts (h : a.Agrees b) (ho : other.Agrees other') (hw : other.WellFormed)
    (hw' : other'.WellFormed) : (a.addCounts other).Agrees (b.addCounts other') := by
  constructor
  · rw [treeCount_addCounts, treeCount_addCounts, h.treeCount, ho.treeCount]
  · intro labels hne
    rw [countsAt?_addCounts a hw.keyed hne, countsAt?_addCounts b hw'.keyed hne,
      h.countsAt labels hne, (ho.alike hw hw').weightAt?_eq hw.keyed hw'.keyed]

theorem Agrees.merge (h : a.Agrees b) (ho : other.Agrees other') (hw : other.WellFormed)
    (hw' : other'.WellFormed) : (a.merge other).Agrees (b.merge other') := by
  constructor
  · rw [treeCount_merge, treeCount_merge, h.treeCount, ho.treeCount]
  · intro labels hne
    rw [countsAt?_merge a hw.keyed hne, countsAt?_merge b hw'.keyed hne, h.countsAt labels hne,
      ho.countsAt labels hne]

/-- Searches for a label find nodes at the same paths. -/
theorem Agrees.perm_entrances (h : a.Agrees b) (ha : a.WellFormed) (hb : b.WellFormed)
    (label : String) : (a.entrances label).Perm (b.entrances label) := by
  rw [List.perm_ext_iff_of_nodup (nodup_entrances ha.keyed label) (nodup_entrances hb.keyed label)]
  intro first
  have hsome : (a.find? first).isSome = (b.find? first).isSome := by
    rw [← Option.isSome_map, h.map_value_find? ha hb, Option.isSome_map]
  rw [mem_entrances_iff ha.keyed, mem_entrances_iff hb.keyed, hsome]

theorem Agrees.restructure (h : a.Agrees b) (ha : a.WellFormed) (hb : b.WellFormed)
    (label : String) : (a.restructure label).Agrees (b.restructure label) := by
  constructor
  · rw [treeCount_restructure, treeCount_restructure, h.treeCount]
  · intro labels hne
    obtain ⟨name, path, rfl⟩ := List.exists_cons_of_ne_nil hne
    have hweight : ∀ first, b.root.weightAt? (first ++ path) = a.root.weightAt? (first ++ path) :=
      fun first => ((h.alike ha hb).weightAt?_eq ha.keyed hb.keyed (first ++ path)).symm
    have hperm := (h.perm_entrances ha hb label).map fun first => a.root.weightAt? (first ++ path)
    simp only [countsAt?_restructure ha.keyed, countsAt?_restructure hb.keyed, hweight,
      hperm.foldr_op_eq]

/-- The chains that restructuring adds up may come in any order. -/
theorem absorb_agrees_restructure (census : Census) {label : String}
    {chains : List (List (Node Counts))}
    (h : chains.Perm
      ((census.root.topmost label).flatMap fun node => Node.completePathsFrom [node])) :
    ((ofTreeCount census.treeCount).absorb chains).Agrees (census.restructure label) := by
  have hchains : ((census.root.topmost label).flatMap fun node =>
      Node.completePathsFrom [node]).map countsAlong =
        (census.root.topmost label).flatMap fun node => node.leafRoutes.map countsAlong := by
    simp only [List.map_flatMap, Node.completePathsFrom_eq, List.reverse_singleton,
      List.flatMap_singleton]
  rw [absorb_eq, restructure_eq, ← hchains]
  constructor
  · rw [treeCount_foldl_put, treeCount_foldl_put]
  · intro labels hne
    rw [countsAt?_foldl_put _ _ hne, countsAt?_foldl_put _ _ hne, shares_perm (h.map _)]

/-! ## Questions -/

/-- Censuses that agree report the same trees, or refuse the same one. -/
theorem Agrees.selection_eq (h : a.Agrees b) (trees : Option (List Nat)) :
    a.selection trees = b.selection trees := by
  cases trees with
  | none => rw [selection, selection, h.treeCount]
  | some trees => simp only [selection, firstUnknown?, h.treeCount]

/-- The sum over the nodes that paths lead to is the sum of the counts at the ends of the paths. -/
theorem sumBy_selectedNodes_some (census : Census) (paths : List (List String)) (tree : Nat) :
    sumBy (fun node => node.value.get tree) (census.selectedNodes (some paths)) =
      sumBy (fun path => countIn (census.root.valueAt? path) tree) paths := by
  rw [selectedNodes]
  induction paths with
  | nil => rfl
  | cons path rest ih =>
    rw [sumBy_cons, ← ih, List.filterMap_cons, Node.valueAt?, find?]
    cases census.root.descend? path with
    | none => exact (Nat.zero_add _).symm
    | some node => rfl

/-- The sum over all nodes below the root is the sum over all paths to them. -/
theorem sumBy_selectedNodes_none (census : Census) (tree : Nat) :
    sumBy (fun node => node.value.get tree) (census.selectedNodes none) =
      sumBy (fun e => e.2.get tree) census.ends := by
  rw [selectedNodes, Node.walk, ← Visit.filterMap_getLast?_chains _ [], ← Node.chainsFrom,
    ← Node.chains, ends]
  induction census.root.chains with
  | nil => rfl
  | cons chain rest ih =>
    rw [List.filterMap_cons, List.filterMap_cons]
    cases chain.getLast? with
    | none => exact ih
    | some node => exact congrArg (node.value.get tree + ·) ih

/-- Censuses that agree have the same matrices. -/
theorem Agrees.matrix_eq (h : a.Agrees b) (ha : a.WellFormed) (hb : b.WellFormed)
    (paths : Option (List (List String))) (trees : Option (List Nat)) :
    a.matrix paths trees = b.matrix paths trees := by
  have hsum : ∀ tree, sumBy (fun node => node.value.get tree) (a.selectedNodes paths) =
      sumBy (fun node => node.value.get tree) (b.selectedNodes paths) := by
    intro tree
    cases paths with
    | none =>
      rw [sumBy_selectedNodes_none, sumBy_selectedNodes_none, sumBy_perm _ (h.perm_ends ha hb)]
    | some paths =>
      rw [sumBy_selectedNodes_some, sumBy_selectedNodes_some]
      exact sumBy_congr fun path _ => by rw [h.alike ha hb path]
  simp only [matrix, h.selection_eq, hsum]

/-- In whatever order censuses that agree keep their children: a tree gets the same id in both and
they agree afterwards, a path is counted in both or refused by both for the same reason, and they
agree after other censuses that agree are added or merged and after restructuring, whichever order the
search and the walks below what it finds take. All queries and all matrices are equal, with chosen
paths and trees and without. -/
theorem child_order_hidden {sources : Sources} (ha : Reachable sources a) (hb : Reachable sources b)
    (ho : Reachable sources other) (ho' : Reachable sources other') (h : a.Agrees b)
    (hother : other.Agrees other') :
    (∀ {V : Type} (tree : Node V), (a.addTree tree).1 = (b.addTree tree).1 ∧
        (a.addTree tree).2.Agrees (b.addTree tree).2) ∧
      (∀ labels tree, SameOutcome Agrees (a.addPath labels tree) (b.addPath labels tree)) ∧
      (a.addCounts other).Agrees (b.addCounts other') ∧
      (a.merge other).Agrees (b.merge other') ∧
      (∀ label, (a.restructure label).Agrees (b.restructure label)) ∧
      (∀ label (chains : List (List (Node Counts))),
        chains.Perm
            ((a.root.topmost label).flatMap fun node => Node.completePathsFrom [node]) →
          ((ofTreeCount a.treeCount).absorb chains).Agrees (b.restructure label)) ∧
      (∀ paths test, a.query paths test = b.query paths test) ∧
      ∀ paths trees, a.matrix paths trees = b.matrix paths trees := by
  have hwa := ha.wellFormed
  have hwb := hb.wellFormed
  have hrestructure := fun label => h.restructure hwa hwb label
  exact ⟨fun tree => ⟨h.treeCount, h.addTree tree⟩, h.addPath,
    h.addCounts hother ho.wellFormed ho'.wellFormed, h.merge hother ho.wellFormed ho'.wellFormed,
    hrestructure, fun label _ hperm => (absorb_agrees_restructure a hperm).trans (hrestructure label),
    h.query_eq hwa hwb, h.matrix_eq hwa hwb⟩

/-- The censuses of two trees, merged in one order and in the other, keep the children of A in
different orders. They agree after restructuring and have the same matrix. -/
theorem child_order_hidden_swapped :
    (ofTree 0 loopTree).merge (ofTree 1 forkTree) ≠ (ofTree 1 forkTree).merge (ofTree 0 loopTree) ∧
      (((ofTree 0 loopTree).merge (ofTree 1 forkTree)).restructure "A").Agrees
        (((ofTree 1 forkTree).merge (ofTree 0 loopTree)).restructure "A") ∧
      ((ofTree 0 loopTree).merge (ofTree 1 forkTree)).matrix none none =
        ((ofTree 1 forkTree).merge (ofTree 0 loopTree)).matrix none none ∧
      ((ofTree 0 loopTree).merge (ofTree 1 forkTree)).matrix none none =
        .ok [(0, 5), (1, 2)] := by
  have hloop : Reachable .all (ofTree 0 loopTree) := .addTree loopTree (.ofTreeCount 0)
  have hfork : Reachable .all (ofTree 1 forkTree) := .addTree forkTree (.ofTreeCount 1)
  have hfirst : Combined [ofTree 0 loopTree, ofTree 1 forkTree]
      ((ofTree 0 loopTree).merge (ofTree 1 forkTree)) := .merge (.single _) (.single _)
  have hsecond : Combined [ofTree 1 forkTree, ofTree 0 loopTree]
      ((ofTree 1 forkTree).merge (ofTree 0 loopTree)) := .merge (.single _) (.single _)
  have hswap : [ofTree 1 forkTree, ofTree 0 loopTree].Perm ([loopTree, forkTree].mapIdx ofTree) :=
    .swap _ _ _
  have hagrees := (hfirst.agrees (.refl ([loopTree, forkTree].mapIdx ofTree))).2.trans
    (hsecond.agrees hswap).2.symm
  obtain ⟨-, -, -, -, hrestructure, -, -, hmatrix⟩ :=
    child_order_hidden (.merge hloop hfork) (.merge hfork hloop) (.merge hloop hfork)
      (.merge hfork hloop) hagrees hagrees
  exact ⟨by decide +kernel, hrestructure "A", hmatrix none none, by decide +kernel⟩

end Census

end PathCensus
