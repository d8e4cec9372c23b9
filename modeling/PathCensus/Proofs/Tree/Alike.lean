import Mathlib.Data.List.Forall2
import PathCensus.Proofs.Tree.Addressing
import PathCensus.Proofs.Tree.Leaves

/-!
# Nodes that look alike along paths

Two nodes are alike if the same paths lead somewhere from them, with the same values at their ends.
Where one child is kept per label, this leaves the order of children open and nothing else: alike
nodes have children with the same labels, and the children with one label are alike again. So alike
nodes with one label are the same tree, but for the order of children.
-/

namespace PathCensus.Node

variable {V : Type}

/-- The same paths lead somewhere from both nodes, with the same values at their ends. -/
def Alike (a b : Node V) : Prop :=
  ∀ path, a.valueAt? path = b.valueAt? path

theorem valueAt?_append (node : Node V) (first second : List String) :
    node.valueAt? (first ++ second) = (node.descend? first).bind (·.valueAt? second) := by
  rw [valueAt?, descend?_append, Option.map_bind]
  rfl

theorem descend?_singleton (node : Node V) (name : String) :
    node.descend? [name] = node.child? name := by
  rw [descend?_cons]
  cases node.child? name <;> rfl

/-- Nodes whose children have the same labels are both leaves or both not. -/
theorem isLeaf_eq_of_perm_labels {a b : Node V}
    (h : (a.children.map label).Perm (b.children.map label)) : a.isLeaf = b.isLeaf := by
  have hlength := h.length_eq
  rw [List.length_map, List.length_map] at hlength
  rw [isLeaf, isLeaf, Bool.eq_iff_iff, List.isEmpty_iff, List.isEmpty_iff,
    ← List.length_eq_zero_iff, ← List.length_eq_zero_iff, hlength]

namespace Alike

variable {a b : Node V}

/-- Alike nodes carry the same value. -/
theorem value_eq (h : a.Alike b) : a.value = b.value :=
  Option.some.inj (h [])

/-- Where a path leads from one of two alike nodes, it leads to an alike node from the other. -/
theorem descend? (h : a.Alike b) {path : List String} {m : Node V}
    (hm : a.descend? path = some m) : ∃ n, b.descend? path = some n ∧ m.Alike n := by
  have hvalue : (b.descend? path).map value = some m.value := by
    rw [← valueAt?, ← h path, valueAt?, hm, Option.map_some]
  obtain ⟨n, hn, -⟩ := Option.map_eq_some_iff.1 hvalue
  refine ⟨n, hn, fun rest => ?_⟩
  have hrest := h (path ++ rest)
  rwa [valueAt?_append, valueAt?_append, hm, hn, Option.bind_some, Option.bind_some] at hrest

/-- A path leads nowhere from alike nodes alike. -/
theorem descend?_eq_none (h : a.Alike b) {path : List String} (hnone : a.descend? path = none) :
    b.descend? path = none := by
  have hvalue := h path
  rw [valueAt?, hnone, Option.map_none, valueAt?] at hvalue
  exact Option.map_eq_none_iff.1 hvalue.symm

/-- The labels of children are the ones under which a child is found. -/
private theorem mem_labels_iff {node : Node V} {name : String} :
    name ∈ node.children.map label ↔ (node.child? name).isSome := by
  rw [child?, List.find?_isSome]
  simp

/-- The children of alike nodes have the same labels. -/
theorem perm_labels (h : a.Alike b) (ha : a.IsKeyed) (hb : b.IsKeyed) :
    (a.children.map label).Perm (b.children.map label) := by
  rw [List.perm_ext_iff_of_nodup ha.distinct hb.distinct]
  intro name
  have hsome : (a.valueAt? [name]).isSome = (b.valueAt? [name]).isSome := by rw [h [name]]
  rw [valueAt?, valueAt?, Option.isSome_map, Option.isSome_map, descend?_singleton,
    descend?_singleton] at hsome
  rw [mem_labels_iff, mem_labels_iff, hsome]

/-- A sum over the children is a sum over their labels. -/
private theorem sumBy_children {node : Node V} (hk : node.IsKeyed) (f : Node V → Nat) :
    sumBy f node.children =
      sumBy (fun name => (node.child? name).elim 0 f) (node.children.map label) := by
  rw [sumBy_map]
  refine sumBy_congr fun c hc => ?_
  rw [child?_of_mem hk.distinct hc, Option.elim_some]

/-- Alike nodes have as many leaves. -/
theorem leafCount_eq (h : a.Alike b) (ha : a.Keyed) (hb : b.Keyed) :
    a.leafCount = b.leafCount := by
  induction ha generalizing b with
  | @intro a hp hall ih =>
    have hlabels := h.perm_labels hp hb.here
    have hleaf : a.isLeaf = b.isLeaf := isLeaf_eq_of_perm_labels hlabels
    have hchild : ∀ name ∈ a.children.map label,
        (a.child? name).elim 0 leafCount = (b.child? name).elim 0 leafCount := by
      intro name hname
      obtain ⟨c, hc⟩ := Option.isSome_iff_exists.1 (mem_labels_iff.1 hname)
      obtain ⟨d, hd, halike⟩ := h.descend? ((descend?_singleton a name).trans hc)
      rw [descend?_singleton] at hd
      rw [hc, hd, Option.elim_some, Option.elim_some]
      exact ih c (child?_eq_some hc).2 halike (hb.child (child?_eq_some hd).2)
    rw [leafCount_eq, leafCount_eq, hleaf, sumBy_children hp, sumBy_children hb.here,
      sumBy_congr hchild, sumBy_perm _ hlabels]

end Alike

/-! ## The order of children -/

/-- The same tree, but for the order of the children of every node. -/
inductive Reordered : Node V → Node V → Prop where
  /-- The nodes have the same label, value and layout; the children are reordered, each for itself
  and all among each other. -/
  | intro {a b : Node V} {between : List (Node V)} : a.label = b.label → a.value = b.value →
      a.layout = b.layout → List.Forall₂ Reordered a.children between → between.Perm b.children →
      Reordered a b

/-- Among children with distinct labels, the ones that are found under their labels are all. -/
private theorem map_child?_labels {node : Node V} (hd : (node.children.map label).Nodup) :
    (node.children.map label).map (fun name => (node.child? name).getD node) = node.children := by
  rw [List.map_map]
  refine (List.map_congr_left fun c hc => ?_).trans (List.map_id _)
  rw [Function.comp_apply, child?_of_mem hd hc]
  rfl

/-- Where one child is kept per label, alike nodes with one label differ in the order of children
only. -/
theorem Alike.reordered {a b : Node V} (h : a.Alike b) (ha : a.Keyed) (hb : b.Keyed)
    (hlabel : a.label = b.label) : a.Reordered b := by
  induction ha generalizing b with
  | @intro a hp _ ih =>
    have hperm := (h.perm_labels hp hb.here).map fun name => (b.child? name).getD b
    rw [map_child?_labels hb.here.distinct, List.map_map] at hperm
    refine .intro hlabel h.value_eq (hp.layout.trans hb.here.layout.symm) ?_ hperm
    rw [List.forall₂_map_right_iff, List.forall₂_same]
    intro c hc
    have hfind := child?_of_mem hp.distinct hc
    obtain ⟨d, hd, halike⟩ := h.descend? ((descend?_singleton a c.label).trans hfind)
    rw [descend?_singleton] at hd
    obtain ⟨hname, hmem⟩ := child?_eq_some hd
    rw [Function.comp_apply, hd, Option.getD_some]
    exact ih c hc halike (hb.child hmem) hname.symm

end PathCensus.Node
