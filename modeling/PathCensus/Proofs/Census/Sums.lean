import PathCensus.Proofs.Census.SiblingOrder

/-!
# Merging as addition

What is put into a census stays where it is: children keep their order and new ones come behind
them. The counts of a merged census are the sums of the counts of both, path by path, so the order
of children is all that tells which census was merged into which, and how several were grouped.
-/

namespace PathCensus

/-! ## Growing -/

namespace Node

/-- Every path leads on where it led before, to a node whose first children have the labels from
before, in the same order. -/
def GrowsInto {V : Type} (before after : Node V) : Prop :=
  ∀ path m, before.descend? path = some m →
    ∃ n, after.descend? path = some n ∧ m.children.map label <+: n.children.map label

section

variable {V : Type} {a b c : Node V}

theorem GrowsInto.refl (node : Node V) : node.GrowsInto node :=
  fun _ m hm => ⟨m, hm, List.prefix_rfl⟩

theorem GrowsInto.trans (hab : a.GrowsInto b) (hbc : b.GrowsInto c) : a.GrowsInto c := by
  intro path m hm
  obtain ⟨n, hn, hmn⟩ := hab path m hm
  obtain ⟨k, hk, hnk⟩ := hbc path n hn
  exact ⟨k, hk, hmn.trans hnk⟩

/-- Another value moves no children. -/
theorem growsInto_withValue (node : Node V) (value : V) : node.GrowsInto { node with value } := by
  intro path m hm
  cases path with
  | nil =>
    rw [descend?_nil, Option.some.injEq] at hm
    subst hm
    exact ⟨_, rfl, List.prefix_rfl⟩
  | cons name path => exact ⟨m, hm, List.prefix_rfl⟩

variable {f : Node V → Node V} {fresh : Node V} {name : String}

/-- A change of a child keeps the labels of the children in order; a new child comes last. -/
theorem labels_prefix_alterChild (node : Node V) (hfresh : fresh.label = name)
    (hf : ∀ c, (f c).label = c.label) :
    node.children.map label <+: (node.alterChild name fresh f).children.map label := by
  rcases alterChild_cases (f := f) node hfresh with ⟨c, before, after, -, hch, -, he⟩ | ⟨-, he⟩
  · rw [he, hch]
    simp [hf]
  · rw [he, List.map_append]
    exact List.prefix_append _ _

/-- A change under which the child grows lets the node grow. -/
theorem growsInto_alterChild (node : Node V) (hfresh : fresh.label = name)
    (hf : ∀ c, (f c).label = c.label) (hgrow : ∀ c, GrowsInto c (f c)) :
    node.GrowsInto (node.alterChild name fresh f) := by
  intro path m hm
  cases path with
  | nil =>
    rw [descend?_nil, Option.some.injEq] at hm
    subst hm
    exact ⟨_, rfl, labels_prefix_alterChild node hfresh hf⟩
  | cons other path =>
    by_cases hother : other = name
    · subst hother
      rw [descend?_cons, Option.bind_eq_some_iff] at hm
      obtain ⟨c, hc, hm⟩ := hm
      rw [descend?_cons, child?_alterChild_self node hfresh hf, hc]
      exact hgrow c path m hm
    · rw [descend?_cons, child?_alterChild_of_ne node hother hfresh hf]
      exact ⟨m, hm, List.prefix_rfl⟩

end

end Node

/-- A deposit lets a node grow. -/
theorem growsInto_deposit (path : List (String × Counts)) (node : Node Counts) :
    node.GrowsInto (deposit path node) := by
  induction path generalizing node with
  | nil => exact .refl node
  | cons step rest ih =>
    obtain ⟨name, counts⟩ := step
    rw [deposit_cons]
    refine Node.growsInto_alterChild node rfl (fun c => deposit_label rest _) fun c => ?_
    exact (c.growsInto_withValue (c.value ∪ counts)).trans (ih _)

namespace Census

/-- Deposits let the root grow. -/
theorem growsInto_foldl_put (census : Census) (deposits : List (List (String × Counts))) :
    census.root.GrowsInto (deposits.foldl put census).root := by
  induction deposits generalizing census with
  | nil => exact .refl census.root
  | cons path rest ih => exact (growsInto_deposit path census.root).trans (ih (census.put path))

/-- A census grows when another one is merged into it. -/
theorem growsInto_merge (census other : Census) :
    census.root.GrowsInto (census.merge other).root := by
  rw [merge_eq]
  exact growsInto_foldl_put { census with treeCount := max census.treeCount other.treeCount } _

/-! ## Adding up -/

/-- The same census, but for the order of the children of every node. -/
structure Reordered (a b : Census) : Prop where
  /-- The same ids were given out. -/
  treeCount : a.treeCount = b.treeCount
  /-- The nodes differ in the order of their children only. -/
  root : a.root.Reordered b.root

variable {a b c : Census}

/-- Censuses that agree differ in the order of children only. -/
theorem Agrees.reordered (h : a.Agrees b) (ha : a.WellFormed) (hb : b.WellFormed) :
    a.Reordered b :=
  have hlabel := ha.root_label.trans hb.root_label.symm
  ⟨h.treeCount, (h.alike ha hb).reordered ha.keyed hb.keyed hlabel⟩

/-- The entries of a merged census are the sums of the entries of both. -/
theorem entryAt?_merge (census : Census) {other : Census} (hw : other.WellFormed)
    (labels : List String) (hne : labels ≠ []) (tree : Nat) :
    (census.merge other).entryAt? labels tree =
      Counts.plus? (census.entryAt? labels tree) (other.entryAt? labels tree) := by
  rw [entryAt?_eq, entryAt?_eq, entryAt?_eq, countsAt?_merge census hw.keyed hne]
  cases census.countsAt? labels <;> cases other.countsAt? labels <;> simp

theorem merge_comm_agrees (ha : a.WellFormed) (hb : b.WellFormed) :
    (a.merge b).Agrees (b.merge a) := by
  constructor
  · exact Nat.max_comm _ _
  · intro labels hne
    rw [countsAt?_merge a hb.keyed hne, countsAt?_merge b ha.keyed hne]
    exact Std.Commutative.comm _ _

theorem merge_assoc_agrees (hb : b.WellFormed) (hc : c.WellFormed) :
    ((a.merge b).merge c).Agrees (a.merge (b.merge c)) := by
  constructor
  · exact Nat.max_assoc _ _ _
  · intro labels hne
    rw [countsAt?_merge _ hc.keyed hne, countsAt?_merge a hb.keyed hne,
      countsAt?_merge a (hb.merge hc).keyed hne, countsAt?_merge b hc.keyed hne, join?_assoc]

theorem empty_merge_agrees (ha : a.WellFormed) : (empty.merge a).Agrees a := by
  constructor
  · exact Nat.zero_max _
  · intro labels hne
    rw [countsAt?_merge empty ha.keyed hne, empty, countsAt?_ofTreeCount 0 hne, none_join?]

/-- Nothing comes of merging an empty census in. -/
theorem merge_empty (census : Census) : census.merge empty = census := by
  have hcount : max census.treeCount empty.treeCount = census.treeCount := Nat.max_zero _
  have hchains : empty.root.chains = [] := by decide +kernel
  rw [merge_eq, hcount, hchains]
  rfl

/-- The nodes of a merged census lie at the paths of the nodes of both, one at each. -/
theorem perm_labels_chains_merge (ha : a.WellFormed) (hb : b.WellFormed) :
    ((a.merge b).root.chains.map Node.labels).Perm
      (a.root.chains.map Node.labels ∪ b.root.chains.map Node.labels) := by
  have hmerge := (ha.merge hb).keyed
  rw [List.perm_ext_iff_of_nodup hmerge.nodup_labels_chains
    (hb.keyed.nodup_labels_chains.union _)]
  intro labels
  rw [List.mem_union_iff, hmerge.mem_labels_chains_iff, ha.keyed.mem_labels_chains_iff,
    hb.keyed.mem_labels_chains_iff, ← and_or_left]
  exact and_congr_right fun hne => isSome_find?_merge a hb.keyed hne

/-- A merged census has an id for every tree that has one in either census. It has a node at every
path at which one of the two has a node, and no other nodes; the entries there are the sums of the
entries of both, an entry of 0 being one. What was there keeps its children in order, in front of
the new ones. But for the order of children it does not matter which of two censuses is merged into
the other, nor how three are grouped, and an empty census changes nothing. -/
theorem merge_exact {sources : Sources} (ha : Reachable sources a) (hb : Reachable sources b)
    (hc : Reachable sources c) :
    (a.merge b).treeCount = max a.treeCount b.treeCount ∧
      ((a.merge b).root.chains.map Node.labels).Perm
        (a.root.chains.map Node.labels ∪ b.root.chains.map Node.labels) ∧
      (∀ labels, labels ≠ [] → ∀ tree, (a.merge b).entryAt? labels tree =
        Counts.plus? (a.entryAt? labels tree) (b.entryAt? labels tree)) ∧
      a.root.GrowsInto (a.merge b).root ∧
      (a.merge b).Reordered (b.merge a) ∧
      ((a.merge b).merge c).Reordered (a.merge (b.merge c)) ∧
      (empty.merge a).Reordered a ∧ a.merge empty = a := by
  have hwa := ha.wellFormed
  have hwb := hb.wellFormed
  have hwc := hc.wellFormed
  have hempty : empty.WellFormed := wellFormed_ofTreeCount 0
  exact ⟨treeCount_merge a b, perm_labels_chains_merge hwa hwb, entryAt?_merge a hwb,
    growsInto_merge a b, (merge_comm_agrees hwa hwb).reordered (hwa.merge hwb) (hwb.merge hwa),
    (merge_assoc_agrees hwb hwc).reordered ((hwa.merge hwb).merge hwc) (hwa.merge (hwb.merge hwc)),
    (empty_merge_agrees hwa).reordered (hempty.merge hwa) hwa, merge_empty a⟩

/-- Two trees under one id, which meet at A, merged either way: the first census keeps its children
of A in front, so the outcomes differ in their order. -/
theorem merge_exact_overlapping :
    (ofTree 0 loopTree).merge (ofTree 0 forkTree) ≠
        (ofTree 0 forkTree).merge (ofTree 0 loopTree) ∧
      ((ofTree 0 loopTree).merge (ofTree 0 forkTree)).Reordered
        ((ofTree 0 forkTree).merge (ofTree 0 loopTree)) ∧
      ((ofTree 0 loopTree).merge (ofTree 0 forkTree)).entryAt? ["A"] 0 = some 3 ∧
      ((ofTree 0 loopTree).merge (ofTree 0 forkTree)).entryAt? ["A", "C"] 0 = some 1 ∧
      (((ofTree 0 loopTree).merge (ofTree 0 forkTree)).merge (ofTree 1 loopTree)).Reordered
        ((ofTree 0 loopTree).merge ((ofTree 0 forkTree).merge (ofTree 1 loopTree))) ∧
      ∃ node, ((ofTree 0 loopTree).merge (ofTree 0 forkTree)).find? ["A"] = some node ∧
        ["B"] <+: node.children.map Node.label := by
  have hloop : ∀ id, Reachable .all (ofTree id loopTree) :=
    fun id => .addTree loopTree (.ofTreeCount id)
  have hfork : Reachable .all (ofTree 0 forkTree) := .addTree forkTree (.ofTreeCount 0)
  obtain ⟨-, -, hentry, hgrow, hcomm, hassoc, -, -⟩ := merge_exact (hloop 0) hfork (hloop 1)
  have hA := hentry ["A"] (by decide) 0
  have hAC := hentry ["A", "C"] (by decide) 0
  obtain ⟨m, hm, hlabels⟩ : ∃ m, (ofTree 0 loopTree).root.descend? ["A"] = some m ∧
      m.children.map Node.label = ["B"] := by
    decide +kernel
  obtain ⟨node, hnode, hprefix⟩ := hgrow ["A"] m hm
  rw [hlabels] at hprefix
  exact ⟨by decide +kernel, hcomm, hA.trans (by decide +kernel), hAC.trans (by decide +kernel),
    hassoc, node, hnode, hprefix⟩

end Census

end PathCensus
