import PathCensus.Proofs.Census.Weights
import PathCensus.Proofs.Tree.Topmost

/-!
# Laying the counts below a label over each other

A restructured census has one place for every way on from the topmost nodes with a label. What
several of these nodes have at the same way below them is added up, each time once for every leaf
there. The root is no such node, whatever its label.
-/

namespace PathCensus.Census

/-- The paths to the topmost nodes with a label. -/
def entrances (census : Census) (label : String) : List (List String) :=
  (census.root.entrances label).map Node.labels

/-- Each of the topmost nodes is listed once. -/
theorem nodup_entrances {census : Census} (hk : census.root.Keyed) (label : String) :
    (census.entrances label).Nodup :=
  hk.nodup_labels_chains.sublist (List.filter_sublist.map Node.labels)

/-- The paths to the topmost nodes lead somewhere and meet the label at their end only. -/
theorem mem_entrances_iff {census : Census} (hk : census.root.Keyed) {label : String}
    {first : List String} :
    first ∈ census.entrances label ↔
      (census.find? first).isSome ∧ ∃ above, first = above ++ [label] ∧ label ∉ above := by
  simp only [entrances, Node.entrances, List.mem_map, List.mem_filter]
  constructor
  · rintro ⟨chain, ⟨hc, hfirst⟩, rfl⟩
    exact ⟨hk.isSome_descend?_of_mem_chains hc, endsAtFirst_iff.1 hfirst⟩
  · rintro ⟨hsome, hfirst⟩
    obtain ⟨above, rfl, -⟩ := id hfirst
    obtain ⟨node, hfind⟩ := Option.isSome_iff_exists.1 hsome
    obtain ⟨chain, hc, hlabels, -⟩ := Node.exists_chain_of_descend? (by simp) hfind
    exact ⟨chain, ⟨hc, by rw [hlabels]; exact endsAtFirst_iff.2 hfirst⟩, hlabels⟩

/-- What the topmost nodes add at the end of a path is what the root adds at the end of the longer
paths that pass them. -/
theorem map_weightAt?_topmost {census : Census} (hk : census.root.Keyed) (label : String)
    (path : List String) :
    (census.root.topmost label).map (·.weightAt? path) =
      (census.entrances label).map fun first => census.root.weightAt? (first ++ path) := by
  have hall : ∀ chains : List (List (Node Counts)), (∀ chain ∈ chains, chain ∈ census.root.chains) →
      (chains.filterMap List.getLast?).map (·.weightAt? path) =
        chains.map fun chain => census.root.weightAt? (Node.labels chain ++ path) := by
    intro chains
    induction chains with
    | nil => exact fun _ => rfl
    | cons chain rest ih =>
      intro hc
      have hhere := hc chain List.mem_cons_self
      have hlast := List.getLast?_eq_some_getLast (Node.ne_nil_of_mem_chains hhere)
      have hweight : census.root.weightAt? (Node.labels chain ++ path) =
          (chain.getLast (Node.ne_nil_of_mem_chains hhere)).weightAt? path := by
        rw [Node.weightAt?_append, hk.descend?_of_mem_chains hhere, hlast, Option.bind_some]
      rw [List.filterMap_cons, hlast, List.map_cons, List.map_cons, hweight,
        ih fun c hm => hc c (List.mem_cons_of_mem chain hm)]
  rw [Node.topmost_eq, entrances, List.map_map]
  exact hall _ fun chain hc => (List.mem_filter.1 hc).1

theorem treeCount_restructure (census : Census) (label : String) :
    (census.restructure label).treeCount = census.treeCount := by
  rw [restructure_eq, treeCount_foldl_put]
  rfl

/-- A restructured census has what the topmost nodes with the label add below it, and nothing
else. -/
theorem countsAt?_restructure {census : Census} (hk : census.root.Keyed) (label name : String)
    (path : List String) :
    (census.restructure label).countsAt? (name :: path) =
      if name = label then
        ((census.entrances label).map fun first =>
          census.root.weightAt? (first ++ path)).foldr join? none
      else none := by
  have hchild : ∀ m ∈ census.root.topmost label,
      shares (name :: path) (m.leafRoutes.map countsAlong) =
        if name = label then m.weightAt? path else none := by
    intro m hm
    have hkm := Node.everywhere_of_mem_topmost (fun c hc => hk.child hc) hm
    have hlabel := (Node.mem_topmost_iff.1 hm).1
    rw [Node.Keyed.shares_leafRoutes hkm, hlabel]
    exact if_congr eq_comm rfl rfl
  rw [restructure_eq, countsAt?_foldl_put _ _ (List.cons_ne_nil name path),
    countsAt?_ofTreeCount _ (List.cons_ne_nil name path), none_join?, shares_flatMap,
    List.map_congr_left hchild]
  split
  · rw [map_weightAt?_topmost hk]
  · induction census.root.topmost label with
    | nil => rfl
    | cons m rest ih => rw [List.map_cons, List.foldr_cons, ih, none_join?]

/-- The root of a restructured census has at most one child, which has the label. -/
theorem children_restructure {census : Census} (hw : census.WellFormed) (label : String) :
    (∀ c ∈ (census.restructure label).root.children, c.label = label) ∧
      (census.restructure label).root.children.length ≤ 1 := by
  have hkeyed := (hw.restructure label).keyed.here
  have hlabel : ∀ c ∈ (census.restructure label).root.children, c.label = label := by
    intro c hc
    by_contra hne
    have hcounts := countsAt?_restructure hw.keyed label c.label []
    rw [if_neg hne, countsAt?, Node.valueAt?_cons, Node.child?_of_mem hkeyed.distinct hc] at hcounts
    cases hcounts
  refine ⟨hlabel, ?_⟩
  have hsame : (census.restructure label).root.children.map Node.label =
      List.replicate (census.restructure label).root.children.length label := by
    rw [List.eq_replicate_iff, List.length_map]
    refine ⟨rfl, fun name hname => ?_⟩
    obtain ⟨c, hc, rfl⟩ := List.mem_map.1 hname
    exact hlabel c hc
  have hdistinct := hkeyed.distinct
  rwa [hsame, List.nodup_replicate] at hdistinct

/-- What the topmost nodes with a label add up to at the end of a path below them: at each of them the
count there, once for every leaf at or below. -/
def laidOver (census : Census) (label : String) (path : List String) (tree : Nat) : Nat :=
  sumBy (fun first => (census.find? (first ++ path)).elim 0 fun node =>
    node.leafCount * node.value.get tree) (census.entrances label)

theorem countIn_countsAt?_restructure {census : Census} (hk : census.root.Keyed)
    (label name : String) (path : List String) (tree : Nat) :
    countIn ((census.restructure label).countsAt? (name :: path)) tree =
      if name = label then census.laidOver label path tree else 0 := by
  rw [countsAt?_restructure hk]
  split
  · rw [countIn_foldr_join?, sumBy_map]
    exact sumBy_congr fun first _ => Node.countIn_weightAt? census.root (first ++ path) tree
  · rfl

/-! ## Counters of 64 bits -/

/-- No sum below a label goes beyond 64 bits. -/
def FitsBelow (census : Census) (label : String) : Prop :=
  ∀ path tree, census.laidOver label path tree < counterLimit

/-- What a restructured census is made of has room in the empty census if the sums fit. -/
theorem hasRoomFor_restructure_iff {census : Census} (hk : census.root.Keyed) (label : String) :
    (ofTreeCount census.treeCount).HasRoomFor
        ((census.root.topmost label).flatMap fun node => node.leafRoutes.map countsAlong) ↔
      census.FitsBelow label := by
  have hroom : ∀ (name : String) (path : List String),
      HasRoom ((ofTreeCount census.treeCount).countsAt? (name :: path))
          (shares (name :: path)
            ((census.root.topmost label).flatMap fun node => node.leafRoutes.map countsAlong)) ↔
        ∀ tree, (if name = label then census.laidOver label path tree else 0) < counterLimit := by
    intro name path
    have hsum : shares (name :: path)
        ((census.root.topmost label).flatMap fun node => node.leafRoutes.map countsAlong) =
          (census.restructure label).countsAt? (name :: path) := by
      rw [restructure_eq, countsAt?_foldl_put _ _ (List.cons_ne_nil name path),
        countsAt?_ofTreeCount _ (List.cons_ne_nil name path), none_join?]
    rw [hsum, countsAt?_ofTreeCount _ (List.cons_ne_nil name path), hasRoom_fresh_iff]
    refine forall_congr' fun tree => ?_
    rw [countIn_countsAt?_restructure hk]
  constructor
  · intro h path tree
    have hhere := (hroom label path).1 (h (label :: path) (List.cons_ne_nil _ _)) tree
    rwa [if_pos rfl] at hhere
  · intro h labels hne
    obtain ⟨name, path, rfl⟩ := List.exists_cons_of_ne_nil hne
    refine (hroom name path).2 fun tree => ?_
    split
    · exact h path tree
    · exact Nat.two_pow_pos 64

/-- Sums that fit are made by counters of 64 bits. -/
theorem FitsBelow.restructureWith?_eq_some {census : Census} {label : String}
    (h : census.FitsBelow label) (hk : census.root.Keyed) (counters : Counters) :
    census.restructureWith? counters label = some (census.restructure label) := by
  rw [restructureWith?_eq, foldlM_putWith?_of_hasRoomFor ((hasRoomFor_restructure_iff hk label).2 h),
    ← restructure_eq]

/-- Checked counters lay the nodes over each other exactly if all sums fit. -/
theorem isSome_restructureWith?_checked {census : Census} (hk : census.root.Keyed)
    (label : String) :
    (census.restructureWith? .checked label).isSome ↔ census.FitsBelow label := by
  rw [restructureWith?_eq, isSome_foldlM_putWith?_checked, hasRoomFor_restructure_iff hk]

/-- Wrapping counters hold the remainders of the sums. -/
theorem restructureWith?_wrapping (census : Census) (label : String) :
    census.restructureWith? .wrapping label = some (census.restructure label).wrapped := by
  have hstart : ofTreeCount census.treeCount = (ofTreeCount census.treeCount).wrapped := by
    rw [wrapped, Node.mapValues_eq]
    rfl
  rw [restructureWith?_eq, hstart, foldlM_putWith?_wrapping, ← restructure_eq]

/-- A tree with a B below A and a B below C, and a third B below the first. -/
def nestedTree : Tree :=
  ⟨Node.rootLabel, none, .sequence,
    [⟨"A", none, .sequence, [⟨"B", none, .sequence,
        [.leaf "D" none .sequence, .leaf "B" none .sequence]⟩]⟩,
      ⟨"C", none, .sequence, [⟨"B", none, .sequence,
        [.leaf "D" none .sequence, .leaf "E" none .sequence]⟩]⟩]⟩

/-- A census that counts a node half as often as does not fit, above two leaves that are not
counted. -/
def halfAboveTwo : Census :=
  ⟨⟨Node.rootLabel, ∅, .keyed, [⟨"L", .ofList [(0, 9223372036854775808)], .keyed,
    [.leaf "a" ∅ .keyed, .leaf "b" ∅ .keyed]⟩]⟩, 1⟩

end PathCensus.Census
