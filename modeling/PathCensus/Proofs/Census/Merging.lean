import Mathlib.Data.List.Perm.Basic
import PathCensus.Proofs.Census.Querying
import PathCensus.Proofs.Tree.Rebuilding

/-!
# Merging censuses

A chain that adds counts at its last node only passes the nodes above it without counts, so merging
adds the counts of every node once. Parts that are combined in any grouping therefore have the
counts of all of them, and trees that are counted for themselves and combined make the same census
as trees that are added in turn.
-/

namespace PathCensus

/-- A longer chain starts with a node that it adds nothing to. -/
theorem Census.lastOnly_cons {node : Node Counts} {rest : List (Node Counts)} (h : rest ≠ []) :
    lastOnly (node :: rest) = (node.label, ∅) :: lastOnly rest := by
  cases rest with
  | nil => exact absurd rfl h
  | cons next rest => rfl

namespace Node

/-- Where one child is kept per label, what belongs to the children adds, below a label, what
belongs to the child with that label. -/
theorem IsKeyed.shares_visited {node : Node Counts} (hk : node.IsKeyed) {name : String}
    {path : List String} {deposits : Node Counts → List (List (String × Counts))}
    {view : Node Counts → Option Counts}
    (h : ∀ c ∈ node.children, shares (name :: path) (deposits c) =
      if c.label = name then view c else none) :
    shares (name :: path) (node.visited.flatMap deposits) = (node.child? name).bind view := by
  rw [shares_flatMap_of_nodup (nodup_labels_visited.2 hk.distinct) fun c hc => h c (mem_visited.1 hc),
    find?_visited hk.distinct]

/-- The routes from a node, each adding counts at its end only, add the counts of every node at or
below it once. -/
theorem Keyed.shares_routes {node : Node Counts} (hk : node.Keyed) (name : String)
    (path : List String) :
    shares (name :: path) (node.routes.map Census.lastOnly) =
      if node.label = name then node.valueAt? path else none := by
  induction hk generalizing name path with
  | @intro node hp hall ih =>
    have hbelow : ∀ routes : List (List (Node Counts)), (∀ route ∈ routes, route ≠ []) →
        (routes.map (node :: ·)).map Census.lastOnly =
          (routes.map Census.lastOnly).map ((node.label, ∅) :: ·) := by
      intro routes hne
      rw [List.map_map, List.map_map]
      exact List.map_congr_left fun route hr => Census.lastOnly_cons (hne route hr)
    have hne : ∀ route ∈ node.visited.flatMap routes, route ≠ [] := by
      intro route hr
      obtain ⟨c, -, hc⟩ := List.mem_flatMap.1 hr
      obtain ⟨rest, rfl⟩ := exists_cons_of_mem_routes hc
      exact List.cons_ne_nil c rest
    have hempty : ∀ times, join? (some node.value) (repeated times ∅) = some node.value := by
      intro times
      induction times with
      | zero => rfl
      | succ times ihn =>
        rw [repeated_succ, ← join?_assoc, some_join?_some,
          Counts.union_empty, ihn]
    rw [routes_eq, List.map_cons, shares_cons, hbelow _ hne, shares_map_cons, Census.lastOnly, share]
    by_cases hname : node.label = name
    · cases path with
      | nil => simp [hname, hempty, valueAt?]
      | cons next path =>
        have hchildren := hp.shares_visited fun c hc => ih c hc next path
        rw [← valueAt?_cons] at hchildren
        simp [hname, share, List.map_flatMap, hchildren]
    · simp [hname]

end Node

namespace Census

/-- The routes to the nodes of a census add the counts of every node once. -/
theorem shares_chains {census : Census} (hk : census.root.Keyed) {labels : List String}
    (hne : labels ≠ []) :
    shares labels (census.root.chains.map lastOnly) = census.countsAt? labels := by
  obtain ⟨name, path, rfl⟩ := List.exists_cons_of_ne_nil hne
  have hshares := hk.here.shares_visited fun c hc =>
    Node.Keyed.shares_routes (hk.child hc) name path
  rwa [← Node.valueAt?_cons, ← List.map_flatMap, ← Node.chains_eq] at hshares

/-- Merging adds the counts of the other census at the end of every path. -/
theorem countsAt?_merge (census : Census) {other : Census} (hk : other.root.Keyed)
    {labels : List String} (hne : labels ≠ []) :
    (census.merge other).countsAt? labels =
      join? (census.countsAt? labels) (other.countsAt? labels) := by
  rw [merge_eq, countsAt?_foldl_put _ _ hne, shares_chains hk hne]
  rfl

/-- A path leads somewhere in a merged census if it does in one of the two. -/
theorem isSome_find?_merge (census : Census) {other : Census} (hk : other.root.Keyed)
    {labels : List String} (hne : labels ≠ []) :
    ((census.merge other).find? labels).isSome ↔
      (census.find? labels).isSome ∨ (other.find? labels).isSome := by
  rw [← isSome_countsAt?, countsAt?_merge census hk hne, isSome_join?, isSome_countsAt?,
    isSome_countsAt?]

theorem treeCount_merge (census other : Census) :
    (census.merge other).treeCount = max census.treeCount other.treeCount := rfl

/-! ## Many censuses -/

/-- What an operation makes of two lists is what it makes of their parts. -/
private theorem foldr_append_op {α : Type} {op : α → α → α} [Std.Associative op] {e : α}
    (he : ∀ a, op e a = a) (first second : List α) :
    (first ++ second).foldr op e = op (first.foldr op e) (second.foldr op e) := by
  have hassoc := @List.foldr_assoc _ op _ first e (second.foldr op e)
  rw [List.foldr_append, ← hassoc, he]

/-- What an operation can make of a list: each member goes in once, in any grouping, and the identity
may go in anywhere. -/
inductive Reduced (op : Census → Census → Census) (identity : Census) : List Census → Census → Prop
  | nil : Reduced op identity [] identity
  | single (part : Census) : Reduced op identity [part] part
  | combine {first second : List Census} {a b : Census} (ha : Reduced op identity first a)
      (hb : Reduced op identity second b) : Reduced op identity (first ++ second) (op a b)

/-- Combining half by half is one way to reduce a list. -/
theorem reduced_reduceHalves (op : Census → Census → Census) (identity : Census)
    (parts : List Census) : Reduced op identity parts (reduceHalves op identity parts) := by
  fun_induction reduceHalves op identity parts with
  | case1 => exact .nil
  | case2 part => exact .combine .nil (.single part)
  | case3 first second rest parts half ihl ihr =>
    have h := Reduced.combine ihl ihr
    rwa [List.take_append_drop] at h

/-- The censuses that parts can be combined to: each part goes in once, in any grouping, and empty
censuses may go in anywhere. -/
inductive Combined : List Census → Census → Prop
  | nil : Combined [] empty
  | single (part : Census) : Combined [part] part
  | merge {first second : List Census} {a b : Census} (ha : Combined first a)
      (hb : Combined second b) : Combined (first ++ second) (a.merge b)

/-- Censuses that are reduced by merging are combined. -/
theorem Reduced.combined {parts : List Census} {census : Census}
    (h : Reduced merge empty parts census) : Combined parts census := by
  induction h with
  | nil => exact .nil
  | single part => exact .single part
  | combine _ _ iha ihb => exact .merge iha ihb

/-- Merging half by half is one way to combine parts. -/
theorem combined_mergeHalves (parts : List Census) : Combined parts (mergeHalves parts) :=
  (reduced_reduceHalves merge empty parts).combined

namespace Combined

variable {parts : List Census} {census : Census}

/-- What the parts have and the operations keep, combined parts have. -/
theorem closed {P : Census → Prop} (h : Combined parts census) (hempty : P empty)
    (hmerge : ∀ a b, P a → P b → P (a.merge b)) (hparts : ∀ part ∈ parts, P part) : P census := by
  induction h with
  | nil => exact hempty
  | single part => exact hparts part List.mem_cons_self
  | merge ha hb iha ihb =>
    have hfirst := iha fun part hp => hparts part (List.mem_append_left _ hp)
    have hsecond := ihb fun part hp => hparts part (List.mem_append_right _ hp)
    exact hmerge _ _ hfirst hsecond

theorem wellFormed (h : Combined parts census) (hw : ∀ part ∈ parts, part.WellFormed) :
    census.WellFormed :=
  h.closed (wellFormed_ofTreeCount 0) (fun _ _ => WellFormed.merge) hw

/-- Reachable parts are combined by operations. -/
theorem reachable (h : Combined parts census) {sources : Sources}
    (hr : ∀ part ∈ parts, Reachable sources part) : Reachable sources census :=
  h.closed (.ofTreeCount 0) (fun _ _ => .merge) hr

/-- Combined parts have as many trees as the one with the most. -/
theorem treeCount_eq (h : Combined parts census) :
    census.treeCount = (parts.map treeCount).foldr max 0 := by
  induction h with
  | nil => rfl
  | single part => exact (Nat.max_zero part.treeCount).symm
  | merge ha hb iha ihb =>
    rw [treeCount_merge, iha, ihb, List.map_append, foldr_append_op Nat.zero_max]

/-- Combined parts have the counts of all of them. -/
theorem countsAt?_eq (h : Combined parts census) (hw : ∀ part ∈ parts, part.WellFormed)
    {labels : List String} (hne : labels ≠ []) :
    census.countsAt? labels = (parts.map fun part => part.countsAt? labels).foldr join? none := by
  induction h with
  | nil => exact countsAt?_ofTreeCount 0 hne
  | single part => exact (join?_none _).symm
  | @merge first second a b ha hb iha ihb =>
    have hfirst : ∀ part ∈ first, part.WellFormed :=
      fun part hp => hw part (List.mem_append_left _ hp)
    have hsecond : ∀ part ∈ second, part.WellFormed :=
      fun part hp => hw part (List.mem_append_right _ hp)
    rw [countsAt?_merge _ (hb.wellFormed hsecond).keyed hne, iha hfirst, ihb hsecond,
      List.map_append, foldr_append_op none_join?]

end Combined

/-! ## Trees counted for themselves -/

theorem countsAt?_ofTree {V : Type} (id : Nat) (tree : Node V) {labels : List String}
    (hne : labels ≠ []) :
    (ofTree id tree).countsAt? labels = tally id (tree.prefixCount labels) := by
  rw [ofTree, countsAt?_addTree _ _ hne, countsAt?_ofTreeCount id hne, none_join?]
  rfl

/-- Trees counted for themselves and merged half by half make a reachable census. -/
theorem reachable_ofParts {V : Type} (sources : Sources) (trees : List (Node V)) :
    Reachable sources (ofParts trees) := by
  refine (combined_mergeHalves _).reachable fun part hp => ?_
  obtain ⟨i, hi, rfl⟩ := List.mem_mapIdx.1 hp
  exact .addTree _ (.ofTreeCount i)

private theorem foldr_tally {V : Type} (labels : List String) (first : Nat)
    (trees : List (Node V)) :
    (trees.mapIdx fun i tree => tally (first + i) (tree.prefixCount labels)).foldr join? none =
      tallies labels first trees := by
  induction trees generalizing first with
  | nil => rfl
  | cons tree rest ih =>
    have hshift : (fun i (tree : Node V) => tally (first + (i + 1)) (tree.prefixCount labels)) =
        fun i tree => tally (first + 1 + i) (tree.prefixCount labels) := by
      ext i tree
      rw [Nat.add_right_comm, Nat.add_assoc]
    rw [List.mapIdx_cons, List.foldr_cons, tallies, ← ih (first + 1), hshift, Nat.add_zero]

private theorem foldr_max_ids {V : Type} (first : Nat) (trees : List (Node V)) :
    max first ((trees.mapIdx fun i _ => first + i + 1).foldr max 0) = first + trees.length := by
  induction trees generalizing first with
  | nil => simp
  | cons tree rest ih =>
    have hshift : (fun i (_ : Node V) => first + (i + 1) + 1) = fun i _ => first + 1 + i + 1 := by
      ext i tree
      omega
    have hrest := ih (first + 1)
    rw [List.mapIdx_cons, List.foldr_cons, List.length_cons, hshift, Nat.add_zero]
    omega

private theorem map_mapIdx {α β γ : Type} (g : β → γ) (f : Nat → α → β) (items : List α) :
    (items.mapIdx f).map g = items.mapIdx fun i a => g (f i a) := by
  apply List.ext_getElem
  · rw [List.length_map, List.length_mapIdx, List.length_mapIdx]
  · intro i hi hi'
    rw [List.getElem_map, List.getElem_mapIdx, List.getElem_mapIdx]

/-- Trees that are counted for themselves, taken in any order and combined make the same census as
trees that are added in turn. -/
theorem Combined.agrees {V : Type} {trees : List (Node V)} {parts : List Census} {census : Census}
    (h : Combined parts census) (hp : parts.Perm (trees.mapIdx ofTree)) :
    census.WellFormed ∧ census.Agrees (empty.addTrees trees) := by
  have hwell : ∀ part ∈ parts, part.WellFormed := by
    intro part hpart
    obtain ⟨i, hi, rfl⟩ := List.mem_mapIdx.1 (hp.mem_iff.1 hpart)
    exact (wellFormed_ofTreeCount i).addTree _
  refine ⟨h.wellFormed hwell, ?_, fun labels hne => ?_⟩
  · have hcount : (trees.mapIdx ofTree).map treeCount = trees.mapIdx fun i _ => 0 + i + 1 := by
      rw [map_mapIdx]
      congr 1
      ext i tree
      rw [ofTree, treeCount_addTree, Nat.zero_add]
      rfl
    have hmax := foldr_max_ids 0 trees
    rw [Nat.max_eq_right (Nat.zero_le _)] at hmax
    rw [h.treeCount_eq, (hp.map treeCount).foldr_op_eq, hcount, hmax, treeCount_addTrees]
    rfl
  · have hparts : (trees.mapIdx ofTree).map (fun part => part.countsAt? labels) =
        trees.mapIdx fun i tree => tally (0 + i) (tree.prefixCount labels) := by
      rw [map_mapIdx]
      congr 1
      ext i tree
      rw [countsAt?_ofTree i tree hne, Nat.zero_add]
    rw [h.countsAt?_eq hwell hne, (hp.map fun part => part.countsAt? labels).foldr_op_eq, hparts,
      foldr_tally, countsAt?_empty_addTrees trees hne]

end Census

end PathCensus
