import PathCensus.Proofs.Census.RoundTrip
import PathCensus.Proofs.Census.Sums
import PathCensus.Proofs.Census.Weights
import PathCensus.Proofs.Tree.Steps

/-!
# Censuses that include a tree

Once a tree was added to a census, nothing that is put in later takes its paths away, neither there
nor where the census goes in itself or is written and read again. So every canonical path of the tree
leads to a node. Only laying counts over each other makes a census of other paths.
-/

namespace PathCensus.Census

variable {V W : Type} {tree : Node V} {census other : Census}

/-- The censuses that a tree was added to, at once or with another census, and to which more may have
been added since. -/
inductive Includes {V : Type} (tree : Node V) : Census → Prop where
  /-- The tree was added. -/
  | added {census : Census} : Reachable .all census → Includes tree (census.addTree tree).2
  /-- Another tree was added. -/
  | addTree {W : Type} {census : Census} (other : Node W) :
      Includes tree census → Includes tree (census.addTree other).2
  /-- A path was counted. -/
  | addPath {census after : Census} {labels : List String} {id : Nat} :
      Includes tree census → census.addPath labels id = .ok after → Includes tree after
  /-- The counts along the complete paths of a census were added. -/
  | addCounts {census other : Census} :
      Includes tree census → Reachable .all other → Includes tree (census.addCounts other)
  /-- It was added itself along its complete paths. -/
  | counted {census other : Census} :
      Reachable .all census → Includes tree other → Includes tree (census.addCounts other)
  /-- A census was merged into it. -/
  | merge {census other : Census} :
      Includes tree census → Reachable .all other → Includes tree (census.merge other)
  /-- It was merged into a census itself. -/
  | merged {census other : Census} :
      Reachable .all census → Includes tree other → Includes tree (census.merge other)
  /-- It was written and read again. -/
  | reread {census after : Census} {text : String} :
      Includes tree census → census.render = .ok text → ofText text = .ok after →
      Includes tree after

theorem Includes.reachable (h : Includes tree census) : Reachable .all census := by
  induction h with
  | added hc => exact .addTree tree hc
  | addTree other _ ih => exact .addTree other ih
  | addPath _ ha ih => exact .addPath rfl ih ha
  | addCounts _ ho ih => exact .addCounts ih ho
  | counted hc _ ih => exact .addCounts hc ih
  | merge _ ho ih => exact .merge ih ho
  | merged hc _ ih => exact .merge hc ih
  | reread _ hr ho ih => exact .reread ih hr ho

/-! ## Where paths lead -/

/-- A path leads where it led before after all that is put in. -/
theorem isSome_find?_foldl_put {labels : List String} (h : (census.find? labels).isSome)
    (deposits : List (List (String × Counts))) :
    ((deposits.foldl put census).find? labels).isSome := by
  obtain ⟨m, hm⟩ := Option.isSome_iff_exists.1 h
  obtain ⟨n, hn, -⟩ := growsInto_foldl_put census deposits labels m hm
  exact Option.isSome_of_eq_some hn

/-- The canonical paths of a tree lead somewhere in every census that includes it. -/
theorem Includes.isSome_find? (h : Includes tree census) {path : List String}
    (hp : path ∈ tree.canonicalPaths) : (census.find? path).isSome := by
  have hne := Node.ne_nil_of_mem_canonicalPaths hp
  induction h with
  | added _ => exact (isSome_find?_addTree _ tree hne).2 (.inr ⟨path, hp, List.prefix_rfl⟩)
  | addTree other _ ih => exact (isSome_find?_addTree _ other hne).2 (.inl ih)
  | addPath _ ha ih =>
    obtain ⟨-, rfl⟩ := addPath_eq_ok_iff.1 ha
    exact isSome_find?_foldl_put ih _
  | addCounts _ ho ih => exact (isSome_find?_addCounts _ ho.wellFormed.keyed path).2 (.inl ih)
  | counted _ ho ih =>
    exact (isSome_find?_addCounts _ ho.reachable.wellFormed.keyed path).2 (.inr ih)
  | merge _ ho ih => exact (isSome_find?_merge _ ho.wellFormed.keyed hne).2 (.inl ih)
  | merged _ ho ih => exact (isSome_find?_merge _ ho.reachable.wellFormed.keyed hne).2 (.inr ih)
  | reread hc hr ho ih =>
    have hw := hc.reachable.wellFormed
    obtain ⟨rfl, -⟩ := (hw.ofText_render hr).1 ho
    rw [find?_mirrored hw.keyed, Option.isSome_map]
    exact ih

/-! ## Many trees -/

/-- What is included stays included when trees are added in turn. -/
theorem Includes.addTrees (h : Includes tree census) (trees : List (Node W)) :
    Includes tree (census.addTrees trees) := by
  induction trees generalizing census with
  | nil => exact h
  | cons next rest ih => exact ih (h.addTree next)

/-- Trees that are added in turn are all included. -/
theorem includes_addTrees (h : Reachable .all census) {trees : List (Node V)}
    (ht : tree ∈ trees) : Includes tree (census.addTrees trees) := by
  induction trees generalizing census with
  | nil => cases ht
  | cons next rest ih =>
    rcases List.mem_cons.1 ht with rfl | ht
    · exact Includes.addTrees (.added h) rest
    · exact ih (.addTree next h) ht

/-- What is included in one of the parts is included in what they are combined to. -/
theorem Combined.includes {parts : List Census} (h : Combined parts census)
    (hr : ∀ part ∈ parts, Reachable .all part) {part : Census} (hp : part ∈ parts)
    (hi : Includes tree part) : Includes tree census := by
  induction h with
  | nil => cases hp
  | single only => exact List.mem_singleton.1 hp ▸ hi
  | merge ha hb iha ihb =>
    have hfirst := List.forall_mem_append.1 hr
    rcases List.mem_append.1 hp with hp | hp
    · exact (iha hfirst.1 hp).merge (hb.reachable hfirst.2)
    · exact (ihb hfirst.2 hp).merged (ha.reachable hfirst.1)

/-- Trees that are counted for themselves and merged in any order are all included. -/
theorem Combined.includes_of_mem {parts : List Census} (h : Combined parts census)
    {trees : List (Node V)} (hperm : parts.Perm (trees.mapIdx ofTree)) (ht : tree ∈ trees) :
    Includes tree census := by
  obtain ⟨i, hi, rfl⟩ := List.getElem_of_mem ht
  refine h.includes (fun part hp => ?_)
    (hperm.mem_iff.2 (List.mem_mapIdx.2 ⟨i, hi, rfl⟩)) (.added (.ofTreeCount i))
  obtain ⟨j, hj, rfl⟩ := List.mem_mapIdx.1 (hperm.mem_iff.1 hp)
  exact .addTree _ (.ofTreeCount j)

end PathCensus.Census
