import PathCensus.Census.Query
import PathCensus.Proofs.Census.Querying
import PathCensus.Proofs.Text.Order
import PathCensus.Proofs.Tree.Addressing

/-!
# Profiles

The profile of a census lists every path that leads somewhere once, with the counts at its end. So
it is determined by the counts at the ends of paths, and censuses that agree have the same profile,
in whatever order they keep their children.
-/

namespace PathCensus.Census

/-- The paths to all nodes below the root with the counts at their ends, as the walk meets them. -/
def ends (census : Census) : List (List String × Counts) :=
  census.root.chains.filterMap fun chain =>
    chain.getLast?.map fun node => (Node.labels chain, node.value)

theorem profile_eq (census : Census) :
    census.profile = census.ends.mergeSort fun a b => Text.namesLe a.1 b.1 := rfl

/-- A path is listed with the counts at its end. -/
theorem mem_ends_iff {census : Census} (hk : census.root.Keyed) {labels : List String}
    {counts : Counts} :
    (labels, counts) ∈ census.ends ↔ labels ≠ [] ∧ census.countsAt? labels = some counts := by
  simp only [ends, List.mem_filterMap, Option.map_eq_some_iff, Prod.mk.injEq, countsAt?_eq]
  constructor
  · rintro ⟨chain, hc, node, hlast, rfl, rfl⟩
    have hne := Node.labels_ne_nil_of_mem_chains hc
    exact ⟨hne, node, (hk.descend?_eq_some_iff hne).2 ⟨chain, hc, rfl, hlast⟩, rfl⟩
  · rintro ⟨hne, node, hf, rfl⟩
    obtain ⟨chain, hc, rfl, hlast⟩ := (hk.descend?_eq_some_iff hne).1 hf
    exact ⟨chain, hc, node, hlast, rfl, rfl⟩

/-- No path is listed twice. -/
theorem nodup_map_fst_ends {census : Census} (hk : census.root.Keyed) :
    (census.ends.map Prod.fst).Nodup := by
  have hpaths : census.ends.map Prod.fst = census.root.chains.map Node.labels := by
    have hall : ∀ chains : List (List (Node Counts)), (∀ chain ∈ chains, chain ≠ []) →
        (chains.filterMap fun chain => chain.getLast?.map fun node =>
          (Node.labels chain, node.value)).map Prod.fst = chains.map Node.labels := by
      intro chains
      induction chains with
      | nil => exact fun _ => rfl
      | cons chain rest ih =>
        intro hne
        have hlast := List.getLast?_eq_some_getLast (hne chain List.mem_cons_self)
        rw [List.filterMap_cons, hlast, Option.map_some, List.map_cons, List.map_cons,
          ih fun c hc => hne c (List.mem_cons_of_mem chain hc)]
    exact hall _ fun _ => Node.ne_nil_of_mem_chains
  rw [hpaths]
  exact hk.nodup_labels_chains

/-- Censuses that agree list the same paths with the same counts. -/
theorem Agrees.perm_ends {a b : Census} (h : a.Agrees b) (ha : a.WellFormed) (hb : b.WellFormed) :
    a.ends.Perm b.ends := by
  have hmem : ∀ e, e ∈ a.ends ↔ e ∈ b.ends := by
    rintro ⟨labels, counts⟩
    rw [mem_ends_iff ha.keyed, mem_ends_iff hb.keyed]
    exact and_congr_right fun hne => by rw [h.countsAt labels hne]
  exact (List.perm_ext_iff_of_nodup (nodup_map_fst_ends ha.keyed).of_map
    (nodup_map_fst_ends hb.keyed).of_map).2 hmem

/-- Censuses that agree have the same profile. -/
theorem Agrees.profile_eq {a b : Census} (h : a.Agrees b) (ha : a.WellFormed)
    (hb : b.WellFormed) : a.profile = b.profile := by
  have hsorted : ∀ items : List (List String × Counts),
      (items.mergeSort fun x y => Text.namesLe x.1 y.1).Pairwise fun x y =>
        Text.namesLe x.1 y.1 = true := fun items =>
    @List.pairwise_mergeSort _ (fun x y => Text.namesLe x.1 y.1)
      (fun _ _ _ => Text.namesLe_trans) (fun x y => Text.namesLe_total x.1 y.1) items
  have hperm := h.perm_ends ha hb
  rw [Census.profile_eq, Census.profile_eq]
  refine List.Perm.eq_of_pairwise ?_ (hsorted a.ends) (hsorted b.ends)
    ((List.mergeSort_perm _ _).trans (hperm.trans (List.mergeSort_perm _ _).symm))
  intro x y hx hy hxy hyx
  rw [List.mem_mergeSort] at hx hy
  exact List.inj_on_of_nodup_map (nodup_map_fst_ends ha.keyed) hx (hperm.mem_iff.2 hy)
    (Text.namesLe_antisymm hxy hyx)

end PathCensus.Census
