import Mathlib.Data.List.Chain
import PathCensus.Proofs.Census.Merging
import PathCensus.Proofs.Census.Rereading
import PathCensus.Proofs.Tree.Addressing

/-!
# Counts flow down

Whatever is counted comes into a census along paths, and no more of it at a step than at the step
before. One path adds its counts at a single child of every node it passes, so the children of a
node count no more together than the node itself. This is a matter of the counts at the ends of
paths, where the parts of several deposits add up and so do both sides of the bound. It therefore
holds after a merge as the sum of two bounds, although the deposits of a merge do not fall one by
one.
-/

namespace PathCensus

namespace Counts

/-- Some tree is counted, and every counted tree occurs. -/
structure Proper (counts : Counts) : Prop where
  /-- Some tree is counted. -/
  counted : ∃ tree, (counts.count? tree).isSome = true
  /-- Every counted tree occurs. -/
  positive : ∀ tree count, counts.count? tree = some count → 0 < count

theorem proper_single (tree : Nat) : (single tree).Proper := by
  refine ⟨⟨tree, by rw [count?_single, if_pos rfl]; rfl⟩, fun other count he => ?_⟩
  rw [count?_single] at he
  split at he
  · cases he
    exact Nat.one_pos
  · cases he

theorem Proper.union {a b : Counts} (ha : a.Proper) (hb : b.Proper) : (a ∪ b).Proper := by
  constructor
  · obtain ⟨tree, hs⟩ := ha.counted
    exact ⟨tree, by rw [count?_union, Option.isSome_merge, hs, Bool.true_or]⟩
  · intro tree count he
    rw [count?_union, Option.merge_eq_some_iff] at he
    rcases he with ⟨he, -⟩ | ⟨-, he⟩ | ⟨x, y, hx, -, rfl⟩
    · exact ha.positive tree count he
    · exact hb.positive tree count he
    · exact Nat.add_pos_left (ha.positive tree x hx) y

end Counts

/-! ## Counts at the ends of paths -/

/-- What is counted at the ends of paths flows down: a place that exists has proper counts, and the
places one step further count no more together. -/
structure Flow (view : List String → Option Counts) : Prop where
  /-- The counts are proper. -/
  proper : ∀ {labels counts}, labels ≠ [] → view labels = some counts → counts.Proper
  /-- Different steps lead to no more counts together. -/
  falls : ∀ {labels}, labels ≠ [] → ∀ {names : List String}, names.Nodup → ∀ tree,
    sumBy (fun name => countIn (view (labels ++ [name])) tree) names ≤ countIn (view labels) tree

namespace Flow

variable {first second view : List String → Option Counts}

theorem nowhere : Flow fun _ => none := by
  refine ⟨fun _ he => ?_, fun _ _ _ tree => ?_⟩
  · cases he
  · exact Nat.le_of_eq (sumBy_eq_zero fun _ _ => rfl)

/-- It does not matter what is said of the empty path. -/
theorem congr (h : Flow first) (he : ∀ labels, labels ≠ [] → second labels = first labels) :
    Flow second := by
  refine ⟨fun hne hs => h.proper hne (he _ hne ▸ hs), fun {labels} hne names hd tree => ?_⟩
  have hsum : (fun name => countIn (second (labels ++ [name])) tree) =
      fun name => countIn (first (labels ++ [name])) tree := by
    ext name
    rw [he _ (by simp)]
  rw [hsum, he labels hne]
  exact h.falls hne hd tree

/-- Joined flows flow down. -/
theorem join (hf : Flow first) (hs : Flow second) :
    Flow fun labels => join? (first labels) (second labels) := by
  constructor
  · intro labels counts hne he
    rw [Option.merge_eq_some_iff] at he
    rcases he with ⟨he, -⟩ | ⟨-, he⟩ | ⟨x, y, hx, hy, rfl⟩
    · exact hf.proper hne he
    · exact hs.proper hne he
    · exact (hf.proper hne hx).union (hs.proper hne hy)
  · intro labels hne names hd tree
    have hfirst := hf.falls hne hd tree
    have hsecond := hs.falls hne hd tree
    simp only [countIn_join, sumBy_add]
    omega

/-- No more is counted further down. -/
theorem countIn_append_le (h : Flow view) {labels : List String} (hne : labels ≠ [])
    (more : List String) (tree : Nat) :
    countIn (view (labels ++ more)) tree ≤ countIn (view labels) tree := by
  induction more generalizing labels with
  | nil => exact Nat.le_of_eq (by rw [List.append_nil])
  | cons name more ih =>
    have hstep := h.falls hne (List.nodup_singleton name) tree
    rw [sumBy_cons, sumBy_nil, Nat.add_zero] at hstep
    have hlonger : labels ++ [name] ≠ [] := List.append_ne_nil_of_right_ne_nil labels (by simp)
    have hrest := ih hlonger
    rw [List.append_assoc, List.singleton_append] at hrest
    exact Nat.le_trans hrest hstep

/-- A tree counts 0 at a place exactly if it has no entry there. -/
theorem bind_count?_eq_none_iff (h : Flow view) {labels : List String} (hne : labels ≠ [])
    (tree : Nat) :
    (view labels).bind (·.count? tree) = none ↔ countIn (view labels) tree = 0 := by
  cases hv : view labels with
  | none => simp
  | some counts =>
    rw [Option.bind_some, countIn_some, Counts.get_eq]
    cases he : counts.count? tree with
    | none => simp
    | some count =>
      have hpos := (h.proper hne hv).positive tree count he
      simp only [reduceCtorEq, Option.getD_some, false_iff]
      omega

end Flow

/-! ## Deposits that fall -/

/-- The deposit adds proper counts, and at no step more than at the step before. -/
structure Falling (path : List (String × Counts)) : Prop where
  /-- All counts are proper. -/
  proper : ∀ step ∈ path, step.2.Proper
  /-- Every step adds at most what the step before adds. -/
  falls : path.IsChain fun a b => ∀ tree, b.2.get tree ≤ a.2.get tree

/-- Different first steps of a deposit: only one of them is its own. -/
private theorem sumBy_share_singleton_le {names : List String} (hd : names.Nodup)
    (step : String × Counts) (rest : List (String × Counts)) (tree : Nat) :
    sumBy (fun name => countIn (share [name] (step :: rest)) tree) names ≤ step.2.get tree := by
  have hstep : (fun name => countIn (share [name] (step :: rest)) tree) =
      fun name => if step.1 = name then step.2.get tree else 0 := by
    ext name
    rw [share]
    by_cases hname : step.1 = name <;> simp [hname]
  rw [hstep, sumBy_ite_eq hd]
  split
  · exact Nat.le_refl _
  · exact Nat.zero_le _

private theorem sumBy_share_le {path : List (String × Counts)}
    (hf : path.IsChain fun a b => ∀ tree, b.2.get tree ≤ a.2.get tree) {labels : List String}
    (hne : labels ≠ []) {names : List String} (hd : names.Nodup) (tree : Nat) :
    sumBy (fun name => countIn (share (labels ++ [name]) path) tree) names ≤
      countIn (share labels path) tree := by
  induction path generalizing labels with
  | nil =>
    refine Nat.le_trans (Nat.le_of_eq (sumBy_eq_zero fun name _ => ?_)) (Nat.zero_le _)
    cases labels <;> rfl
  | cons step rest ih =>
    cases labels with
    | nil => exact absurd rfl hne
    | cons label labels =>
      by_cases hname : step.1 = label
      · have hlonger : ∀ name, share (label :: labels ++ [name]) (step :: rest) =
            share (labels ++ [name]) rest := by
          intro name
          rw [List.cons_append, share, if_pos hname, if_neg (by simp)]
        simp only [hlonger, share, if_pos hname]
        by_cases hlast : labels = []
        · subst hlast
          rw [if_pos rfl, countIn_some]
          cases rest with
          | nil => exact Nat.le_trans (Nat.le_of_eq (sumBy_eq_zero fun _ _ => rfl)) (Nat.zero_le _)
          | cons next rest =>
            have hnext := (List.isChain_cons_cons.1 hf).1 tree
            exact Nat.le_trans (sumBy_share_singleton_le hd next rest tree) hnext
        · rw [if_neg hlast]
          exact ih hf.tail hlast
      · refine Nat.le_trans (Nat.le_of_eq (sumBy_eq_zero fun name _ => ?_)) (Nat.zero_le _)
        rw [List.cons_append, share, if_neg hname, countIn_none]

private theorem mem_of_share {labels : List String} {path : List (String × Counts)}
    {counts : Counts} (h : share labels path = some counts) : ∃ step ∈ path, step.2 = counts := by
  induction path generalizing labels with
  | nil => cases labels <;> cases h
  | cons step rest ih =>
    cases labels with
    | nil => cases h
    | cons label labels =>
      rw [share] at h
      split at h
      · split at h
        · exact ⟨step, List.mem_cons_self, Option.some.inj h⟩
        · obtain ⟨s, hs, he⟩ := ih h
          exact ⟨s, List.mem_cons_of_mem step hs, he⟩
      · cases h

/-- What a falling deposit adds flows down. -/
theorem Falling.flow {path : List (String × Counts)} (h : Falling path) :
    Flow fun labels => share labels path := by
  refine ⟨fun _ he => ?_, fun hne _ hd tree => sumBy_share_le h.falls hne hd tree⟩
  obtain ⟨step, hs, rfl⟩ := mem_of_share he
  exact h.proper step hs

/-- What falling deposits add together flows down. -/
theorem flow_shares {deposits : List (List (String × Counts))}
    (h : ∀ path ∈ deposits, Falling path) : Flow fun labels => shares labels deposits := by
  induction deposits with
  | nil => exact .nowhere
  | cons path rest ih =>
    exact (h path List.mem_cons_self).flow.join (ih fun p hp => h p (List.mem_cons_of_mem path hp))

/-- One occurrence of a tree falls along every path. -/
theorem falling_onceAlong (tree : Nat) (labels : List String) :
    Falling (Census.onceAlong tree labels) := by
  constructor
  · intro step hs
    obtain ⟨label, -, rfl⟩ := List.mem_map.1 hs
    exact Counts.proper_single tree
  · refine List.Pairwise.isChain (List.pairwise_map.2 (List.pairwise_of_forall ?_))
    exact fun _ _ _ => Nat.le_refl _

namespace Node

/-- The node has proper counts, and its children count no more together. -/
structure Carries (node : Node Counts) : Prop where
  /-- The counts are proper. -/
  proper : node.value.Proper
  /-- The children count no more together. -/
  falls : ∀ tree, sumBy (fun c => c.value.get tree) node.children ≤ node.value.get tree

/-- Where all nodes carry what is below them, counts fall along routes. -/
theorem Everywhere.falling {node : Node Counts} (h : node.Everywhere Carries)
    {route : List (Node Counts)} (hr : route ∈ node.routes) :
    Falling (Census.countsAlong route) := by
  constructor
  · intro step hs
    obtain ⟨m, hm, rfl⟩ := List.mem_map.1 hs
    exact (h.of_mem_route hr hm).here.proper
  · induction h generalizing route with
    | @intro node hp hall ih =>
      rcases mem_routes_iff.1 hr with rfl | ⟨c, hc, rest, hrest, rfl⟩
      · exact .singleton _
      · have hbelow := ih c hc hrest
        obtain ⟨more, rfl⟩ := exists_cons_of_mem_routes hrest
        refine .cons_cons (fun tree => ?_) hbelow
        have hle := le_sumBy (fun c : Node Counts => c.value.get tree) hc
        exact Nat.le_trans hle (hp.falls tree)

end Node

namespace Census

/-- Everything but dumps from elsewhere: trees, single paths and other censuses. -/
def Sources.counting : Sources := ⟨true, false⟩

/-! ## Operations -/

/-- The counts at the ends of paths flow down. -/
def Flows (census : Census) : Prop :=
  Flow census.countsAt?

/-- The children of a node count together what is counted one step behind it. -/
theorem WellFormed.sumBy_children {census : Census} (h : census.WellFormed) {labels : List String}
    {node : Node Counts} (hf : census.find? labels = some node) (tree : Nat) :
    sumBy (fun c => c.value.get tree) node.children =
      sumBy (fun name => countIn (census.countsAt? (labels ++ [name])) tree)
        (node.children.map Node.label) := by
  have hdistinct := (h.keyed.descend? hf).here.distinct
  rw [sumBy_map]
  refine sumBy_congr fun c hc => ?_
  rw [countsAt?_eq, find?, Node.descend?_append, ← find?, hf, Option.bind_some, Node.descend?_cons,
    Node.child?_of_mem hdistinct hc]
  rfl

/-- Where counts flow down, every node below the root carries what is below it. -/
theorem Flows.carries {census : Census} (h : census.Flows) (hw : census.WellFormed) :
    ∀ c ∈ census.root.children, c.Everywhere Node.Carries := by
  refine Node.everywhere_below_of_chains fun above m hm => ?_
  have hfound := hw.keyed.descend?_of_append_mem_chains hm
  have hcounts : census.countsAt? (Node.labels (above ++ [m])) = some m.value := by
    rw [countsAt?_eq, find?, hfound, Option.map_some]
  have hne : Node.labels (above ++ [m]) ≠ [] := by simp [Node.labels]
  have hdistinct := (hw.keyed.descend? hfound).here.distinct
  refine ⟨h.proper hne hcounts, fun tree => ?_⟩
  have hfalls := h.falls hne hdistinct tree
  rwa [hcounts, countIn_some, ← hw.sumBy_children hfound] at hfalls

/-- Falling deposits keep counts flowing down. -/
theorem Flows.foldl_put {census : Census} (h : census.Flows)
    {deposits : List (List (String × Counts))} (hd : ∀ path ∈ deposits, Falling path) :
    (deposits.foldl put census).Flows :=
  (Flow.join h (flow_shares hd)).congr fun _ hne => countsAt?_foldl_put census deposits hne

theorem flows_ofTreeCount (n : Nat) : (ofTreeCount n).Flows :=
  Flow.nowhere.congr fun _ hne => countsAt?_ofTreeCount n hne

theorem Flows.withTreeCount {census : Census} (h : census.Flows) (n : Nat) :
    ({ census with treeCount := n } : Census).Flows := h

theorem Flows.addTree {V : Type} {census : Census} (h : census.Flows) (tree : Node V) :
    (census.addTree tree).2.Flows := by
  rw [addTree_eq]
  refine (h.withTreeCount _).foldl_put fun path hp => ?_
  obtain ⟨labels, -, rfl⟩ := List.mem_map.1 hp
  exact falling_onceAlong census.treeCount labels

theorem Flows.addPath {census after : Census} (h : census.Flows) {labels : List String}
    {tree : Nat} (ha : census.addPath labels tree = .ok after) : after.Flows := by
  obtain ⟨-, rfl⟩ := addPath_eq_ok_iff.1 ha
  refine h.foldl_put fun path hp => ?_
  rw [List.mem_singleton.1 hp]
  exact falling_onceAlong tree labels

theorem Flows.addCounts {census other : Census} (h : census.Flows) (ho : other.Flows)
    (hwo : other.WellFormed) : (census.addCounts other).Flows := by
  rw [addCounts_eq]
  refine (h.withTreeCount _).foldl_put fun path hp => ?_
  obtain ⟨chain, hc, rfl⟩ := List.mem_map.1 hp
  obtain ⟨c, hmem, hr⟩ := Node.mem_chains_iff.1 (Node.mem_completePaths_iff.1 hc).1
  exact (ho.carries hwo c hmem).falling hr

theorem Flows.merge {census other : Census} (h : census.Flows) (ho : other.Flows)
    (hwo : other.WellFormed) : (census.merge other).Flows :=
  (Flow.join h ho).congr fun _ hne => countsAt?_merge census hwo.keyed hne

theorem Flows.restructure {census : Census} (h : census.Flows) (hw : census.WellFormed)
    (label : String) : (census.restructure label).Flows := by
  rw [restructure_eq]
  refine (flows_ofTreeCount _).foldl_put fun path hp => ?_
  obtain ⟨top, ht, hp⟩ := List.mem_flatMap.1 hp
  obtain ⟨route, hr, rfl⟩ := List.mem_map.1 hp
  have htop := Node.everywhere_of_mem_topmost (h.carries hw) ht
  exact htop.falling (List.mem_filter.1 hr).1

theorem Flows.reread {census after : Census} (h : census.Flows) (hw : census.WellFormed)
    {text : String} (hr : census.render = .ok text) (ho : ofText text = .ok after) :
    after.Flows := by
  have hmirrored := ((hw.ofText_render hr).1 ho).1
  subst hmirrored
  exact Flow.congr h fun labels hne => (hw.agrees_mirrored.countsAt labels hne).symm

/-- Counts flow down in every census that no dump from elsewhere went into. -/
theorem Reachable.flows {census : Census} (h : Reachable .counting census) : census.Flows := by
  induction h with
  | ofTreeCount n => exact flows_ofTreeCount n
  | addTree tree _ ih => exact ih.addTree tree
  | addPath _ _ ha ih => exact ih.addPath ha
  | addCounts _ hro ih iho => exact ih.addCounts iho hro.wellFormed
  | merge _ hro ih iho => exact ih.merge iho hro.wellFormed
  | restructure label hr ih => exact ih.restructure hr.wellFormed label
  | ofLines hdumps => cases hdumps
  | reread hr hrender ho ih => exact ih.reread hr.wellFormed hrender ho

/-- In a census that comes of trees, single paths and other censuses, in any order, every count is
positive, every node below the root counts some tree, the root counts none, and no tree is counted
more often at the children of a node below the root together than at the node. So along a path that
goes on, the count of a tree never rises, and a tree that is not counted at a node is not counted
anywhere below it. A count in parallel comes of these operations too, in whatever order and grouping
its parts are merged. -/
theorem counts_flow_down {census : Census} (h : Reachable .counting census) :
    census.root.value = ∅ ∧
      (∀ above node, above ++ [node] ∈ census.root.chains →
        (∀ tree count, node.value.count? tree = some count → 0 < count) ∧
        (∃ tree count, node.value.count? tree = some count) ∧
        ∀ tree, sumBy (fun c => c.value.get tree) node.children ≤ node.value.get tree) ∧
      ∀ labels more, labels ≠ [] → ∀ tree,
        countIn (census.countsAt? (labels ++ more)) tree ≤
            countIn (census.countsAt? labels) tree ∧
          (census.entryAt? labels tree = none → census.entryAt? (labels ++ more) tree = none) := by
  have hflows := h.flows
  refine ⟨h.wellFormed.root_value, fun above node hn => ?_, fun labels more hne tree => ?_⟩
  · obtain ⟨top, htop, hroute⟩ := Node.mem_chains_iff.1 hn
    have hcarries := ((hflows.carries h.wellFormed top htop).of_mem_route hroute
      (List.mem_append_right above List.mem_cons_self)).here
    obtain ⟨tree, hs⟩ := hcarries.proper.counted
    exact ⟨hcarries.proper.positive, ⟨tree, Option.isSome_iff_exists.1 hs⟩, hcarries.falls⟩
  · have hle := Flow.countIn_append_le hflows hne more tree
    refine ⟨hle, fun hnone => ?_⟩
    rw [entryAt?_eq, Flow.bind_count?_eq_none_iff hflows hne] at hnone
    rw [entryAt?_eq, Flow.bind_count?_eq_none_iff hflows (by simp [hne])]
    omega

/-- The census of a tree with a loop, added to itself along its paths and started anew at B. -/
def restartedLoops : Census :=
  ((empty.addTree loopTree).2.addCounts (empty.addTree loopTree).2).restructure "B"

/-- B is counted four times, and A twice below it. -/
theorem counts_flow_down_restarted :
    Reachable .counting restartedLoops ∧
      (∃ node, [node] ∈ restartedLoops.root.chains ∧ node.label = "B" ∧ node.value.get 0 = 4 ∧
        sumBy (fun c => c.value.get 0) node.children = 2 ∧
        sumBy (fun c => c.value.get 0) node.children ≤ node.value.get 0) ∧
      countIn (restartedLoops.countsAt? ["B", "A"]) 0 ≤
        countIn (restartedLoops.countsAt? ["B"]) 0 := by
  have hempty : Reachable .counting empty := .ofTreeCount 0
  have hloop : Reachable .counting (empty.addTree loopTree).2 := .addTree loopTree hempty
  have hreach : Reachable .counting restartedLoops := .restructure "B" (.addCounts hloop hloop)
  obtain ⟨-, hnodes, hpaths⟩ := counts_flow_down hreach
  have hchain : [] ++ [⟨"B", Counts.ofList [(0, 4)], .keyed,
      [.leaf "A" (Counts.ofList [(0, 2)]) .keyed]⟩] ∈ restartedLoops.root.chains := by
    decide +kernel
  exact ⟨hreach, ⟨_, hchain, rfl, by decide, by decide, (hnodes [] _ hchain).2.2 0⟩,
    (hpaths ["B"] ["A"] (by decide) 0).1⟩

end Census

end PathCensus
