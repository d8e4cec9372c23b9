import PathCensus.Proofs.Tree.Indexed
import PathCensus.Proofs.Tree.Literals
import PathCensus.Proofs.Tree.Reaching

/-!
# Normalized trees

Literals are renamed from the root down: the children of a node are renamed first, a keyed node then
keeps the last child of each label, and what is kept is normalized in turn. Renaming leaves what is
below a node, so this is what normalizing from the leaves up gives. No quoted label is left below the
root and a keyed node has one child per label, so a second time changes nothing.
-/

namespace PathCensus.Literals

/-! ## From the root down -/

/-- The children of a node that are left once they are renamed: all of a sequence, and of a keyed
node those that are left of adding one after another. -/
def survivors (node : Tree) : List Tree :=
  match node.layout with
  | .sequence => node.children.map rename
  | .keyed => ((node.children.map rename).foldl Node.push (.leaf node.label node.value .keyed)).children

theorem survivors_of_sequence {node : Tree} (h : node.layout = .sequence) :
    survivors node = node.children.map rename := by
  rw [survivors, h]

theorem survivors_of_keyed {node : Tree} (h : node.layout = .keyed) :
    survivors node = Replacing.ofList Node.label (node.children.map rename) := by
  rw [survivors, h, Node.foldl_push_keyed]

/-- What is left is renamed. -/
theorem exists_of_mem_survivors {node d : Tree} (h : d ∈ survivors node) :
    ∃ c ∈ node.children, d = rename c := by
  have hd : d ∈ node.children.map rename := by
    cases hl : node.layout with
    | sequence => rwa [survivors_of_sequence hl] at h
    | keyed =>
      rw [survivors_of_keyed hl] at h
      exact Replacing.mem_of_mem_ofList h
  obtain ⟨c, hc, rfl⟩ := List.mem_map.1 hd
  exact ⟨c, hc, rfl⟩

/-- The renamed node is normalized as the node was, but for its label and its value. -/
theorem normalize_rename (node : Tree) :
    normalize (rename node) = ((normalize node).1, rename (normalize node).2) := by
  have hshown : ∀ (label : String) (value : Option String),
      normalize { node with label, value } =
        ((normalize node).1, { (normalize node).2 with label, value }) := by
    intro label value
    cases node
    simp only [normalize]
  unfold rename
  rw [label_normalize]
  cases unquote? node.label with
  | none => rfl
  | some text => exact hshown literalLabel (some text)

/-- Renamed first and normalized then, or the other way round, children have the same places. -/
theorem settle_eq (node : Tree) :
    settle node.layout (normalizeEach node.children) = (survivors node).map normalize := by
  have heach : normalizeEach node.children = (node.children.map rename).map normalize := by
    rw [normalizeEach_eq, List.map_map]
    exact List.map_congr_left fun c _ => (normalize_rename c).symm
  rw [heach]
  cases hl : node.layout with
  | sequence => rw [settle, survivors_of_sequence hl]
  | keyed =>
    rw [settle, survivors_of_keyed hl]
    exact @Replacing.ofList_map _ _ _ Node.label _ (fun c => c.2.label) normalize label_normalize _

/-- What is left of the children is normalized, and only there are literals counted further. -/
theorem normalize_eq (node : Tree) :
    (normalize node).1 =
        countQuoted node.children + sumBy (fun c => (normalize c).1) (survivors node) ∧
      (normalize node).2.children = (survivors node).map fun c => (normalize c).2 := by
  constructor
  · have hcount : (normalize node).1 = countQuoted node.children +
        sumBy Prod.fst (settle node.layout (normalizeEach node.children)) := by
      cases node
      rw [normalize]
    rw [hcount, settle_eq, sumBy_map]
  · rw [children_normalize, settle_eq, List.map_map]
    rfl

/-- Normalizing changes the children of a node only. -/
theorem normalize_with_children (node : Tree) :
    { node with children := (normalize node).2.children } = (normalize node).2 := by
  cases node
  rw [normalize]

/-- The children keep the labels that they have when they are renamed. -/
theorem map_label_children_normalize (node : Tree) :
    (normalize node).2.children.map Node.label = (survivors node).map Node.label := by
  rw [(normalize_eq node).2, List.map_map]
  exact List.map_congr_left fun c _ => label_normalize c

/-! ## What is left -/

/-- The common label of literals is not quoted. -/
theorem unquote?_literalLabel : unquote? literalLabel = none := by
  simp [unquote?, unquoteChars?, literalLabel]

/-- A literal that is renamed is not quoted any more. -/
theorem unquote?_label_rename (node : Tree) : unquote? (rename node).label = none := by
  unfold rename
  split
  · exact unquote?_literalLabel
  · next h => exact h

/-- A node without a quoted label is not renamed. -/
theorem rename_eq_self {node : Tree} (h : unquote? node.label = none) : rename node = node := by
  rw [rename, h]

/-- Nodes without quoted labels are not renamed. -/
theorem map_rename_eq_self {nodes : List Tree} (h : ∀ c ∈ nodes, unquote? c.label = none) :
    nodes.map rename = nodes :=
  (List.map_congr_left fun c hc => rename_eq_self (h c hc)).trans (List.map_id _)

/-- A node with a quoted label keeps its text and all that is below it. -/
theorem exists_rename_eq {node : Tree} (h : IsQuoted node.label) :
    ∃ text : String, Unquotes node.label.toList text.toList ∧
      rename node = { node with label := literalLabel, value := some text } := by
  obtain ⟨text, ht⟩ := isQuoted_iff.1 h
  exact ⟨text, unquote?_eq_some_iff.1 ht, by rw [rename, ht]⟩

/-- No label below the root is quoted. -/
theorem unquoted_below (node : Tree) :
    ∀ c ∈ (normalize node).2.children, c.Everywhere fun m => unquote? m.label = none := by
  induction node using Node.inductionOn with
  | step node ih =>
    intro d hd
    rw [(normalize_eq node).2] at hd
    obtain ⟨e, he, rfl⟩ := List.mem_map.1 hd
    obtain ⟨c, hc, rfl⟩ := exists_of_mem_survivors he
    rw [normalize_rename]
    refine .intro (unquote?_label_rename _) fun below hbelow => ?_
    rw [children_rename] at hbelow
    exact ih c hc below hbelow

/-- Keyed nodes have one child per label. -/
def Distinct (node : Tree) : Prop :=
  node.layout = .keyed → (node.children.map Node.label).Nodup

theorem distinct_normalize (node : Tree) : Distinct (normalize node).2 := by
  intro hl
  rw [layout_normalize] at hl
  rw [map_label_children_normalize, survivors_of_keyed hl]
  exact Replacing.nodup_ofList _

/-- Every keyed node has one child per label, whatever the children were before. -/
theorem everywhere_distinct (node : Tree) : (normalize node).2.Everywhere Distinct := by
  induction node using Node.inductionOn with
  | step node ih =>
    refine .intro (distinct_normalize node) fun d hd => ?_
    rw [(normalize_eq node).2] at hd
    obtain ⟨e, he, rfl⟩ := List.mem_map.1 hd
    obtain ⟨c, hc, rfl⟩ := exists_of_mem_survivors he
    refine .intro (distinct_normalize _) fun below hbelow => ?_
    rw [normalize_rename, children_rename] at hbelow
    exact (ih c hc).child hbelow

/-- Where there is nothing to rename, all children are left as they are. -/
theorem survivors_eq_children {node : Tree} (hd : Distinct node)
    (hq : ∀ c ∈ node.children, unquote? c.label = none) : survivors node = node.children := by
  cases hl : node.layout with
  | sequence => rw [survivors_of_sequence hl, map_rename_eq_self hq]
  | keyed => rw [survivors_of_keyed hl, map_rename_eq_self hq, Replacing.ofList_of_nodup (hd hl)]

/-- Where there is nothing to rename, nothing is counted and nothing changes. -/
theorem normalize_of_unquoted {node : Tree} (hd : node.Everywhere Distinct)
    (hq : ∀ c ∈ node.children, c.Everywhere fun m => unquote? m.label = none) :
    normalize node = (0, node) := by
  induction hd with
  | @intro node hdistinct _ ih =>
    have hlabels : ∀ c ∈ node.children, unquote? c.label = none := fun c hc => (hq c hc).here
    have hsame : ∀ c ∈ node.children, normalize c = (0, c) := fun c hc =>
      ih c hc fun d hd => (hq c hc).child hd
    obtain ⟨hcount, hchildren⟩ := normalize_eq node
    rw [survivors_eq_children hdistinct hlabels] at hcount hchildren
    have hzero : (normalize node).1 = 0 := by
      have hquoted : countQuoted node.children = 0 := by
        rw [countQuoted, List.countP_eq_zero]
        intro c hc
        rw [hlabels c hc]
        exact Bool.false_ne_true
      rw [hcount, hquoted, sumBy_eq_zero fun c hc => by rw [hsame c hc]]
    have hchildren' : (normalize node).2.children = node.children := by
      rw [hchildren]
      refine (List.map_congr_left fun c hc => ?_).trans (List.map_id _)
      rw [hsame c hc, id]
    refine Prod.ext hzero ?_
    rw [← normalize_with_children, hchildren']
    cases node
    rfl

/-! ## Sequences -/

/-- What becomes of a node in its place: a quoted label is replaced and its text is the value. -/
structure Relabels (before after : Visit (Option String)) : Prop where
  /-- The node stays as deep as it was. -/
  depth : after.depth = before.depth
  /-- The text of a quoted label becomes the value. -/
  quoted : IsQuoted before.node.label →
    ∃ text : String, Unquotes before.node.label.toList text.toList ∧
      after.node.label = literalLabel ∧ after.node.value = some text
  /-- Nothing else changes. -/
  unquoted : ¬ IsQuoted before.node.label →
    after.node.label = before.node.label ∧ after.node.value = before.node.value

theorem relabels_of_listed {before after : Visit (Option String)}
    (h : after.listed = Prod.map id renamed before.listed) : Relabels before after := by
  obtain ⟨hdepth, hshown⟩ := Prod.mk.inj h
  refine ⟨hdepth, fun hq => ?_, fun hq => ?_⟩
  · obtain ⟨text, ht⟩ := isQuoted_iff.1 hq
    have hrenamed : renamed (before.node.label, before.node.value) = (literalLabel, some text) := by
      rw [renamed, ht]
    exact ⟨text, unquote?_eq_some_iff.1 ht, Prod.mk.inj (hshown.trans hrenamed)⟩
  · have hrenamed : renamed (before.node.label, before.node.value) =
        (before.node.label, before.node.value) := by
      rw [renamed, unquote?_eq_none_iff.2 hq]
    exact Prod.mk.inj (hshown.trans hrenamed)

/-- In sequences every node stays in its place. -/
theorem relabels_walk {tree : Tree} (h : tree.Sequential) :
    List.Forall₂ Relabels tree.walk (normalize tree).2.walk := by
  have hlisted : List.Forall₂ (· = ·) ((normalize tree).2.walk.map Visit.listed)
      ((tree.walk.map Visit.listed).map (Prod.map id renamed)) :=
    List.forall₂_eq_eq_eq ▸ h.map_listed_walk_normalize
  rw [List.forall₂_map_left_iff, List.forall₂_map_right_iff, List.forall₂_map_right_iff] at hlisted
  exact hlisted.flip.imp fun _ _ => relabels_of_listed

/-- In sequences every literal below a node is counted, at or below one of its children. -/
theorem sumBy_preorder_of_sequential {tree : Tree} (h : tree.Sequential) (depth : Nat) :
    (normalize tree).1 = sumBy (fun c => sumBy (fun visit : Visit (Option String) =>
      if decide (IsQuoted visit.node.label) then 1 else 0) (c.preorder depth)) tree.children := by
  induction h generalizing depth with
  | @intro tree hl _ ih =>
    have hpreorder : ∀ c ∈ tree.children, sumBy (fun visit : Visit (Option String) =>
        if decide (IsQuoted visit.node.label) then 1 else 0) (c.preorder depth) =
          (if decide (IsQuoted c.label) then 1 else 0) + (normalize c).1 := by
      intro c hc
      rw [Node.preorder_eq, sumBy_cons, sumBy_flatMap, Node.sumBy_visited, ← ih c hc (depth + 1)]
    have hquoted : countQuoted tree.children =
        sumBy (fun c => if decide (IsQuoted c.label) then 1 else 0) tree.children := by
      rw [countQuoted_eq, countP_eq_sumBy]
    have hbelow : sumBy (fun c => (normalize c).1) (survivors tree) =
        sumBy (fun c => (normalize c).1) tree.children := by
      simp only [survivors_of_sequence hl, sumBy_map, normalize_rename]
    rw [sumBy_congr hpreorder, sumBy_add, (normalize_eq tree).1, hquoted, hbelow]

/-- In sequences every literal that a walk meets is counted. -/
theorem count_of_sequential {tree : Tree} (h : tree.Sequential) :
    (normalize tree).1 = tree.walk.countP fun visit => IsQuoted visit.node.label := by
  rw [countP_eq_sumBy, Node.walk_eq, sumBy_flatMap, Node.sumBy_visited]
  exact sumBy_preorder_of_sequential h 0

/-! ## Indexes -/

/-- The children of a keyed node with their index, once they are renamed: the index is made anew if
there was anything to rename, and is left as it is otherwise. -/
def relabelled (node : Tree) (index : SortedTable String Nat) : Indexed String Tree :=
  if countQuoted node.children = 0 then ⟨node.children.map rename, index⟩
  else Indexed.reindex Node.label ⟨node.children.map rename, index⟩

/-- The index that is left is the one of the normalized children. -/
theorem relabelled_indexedBy {node : Tree} {index : SortedTable String Nat}
    (hl : node.layout = .keyed) (h : node.IndexedBy index) :
    (relabelled node index).items = survivors node ∧
      (normalize node).2.IndexedBy (relabelled node index).index := by
  by_cases hzero : countQuoted node.children = 0
  · have hquoted : ∀ c ∈ node.children, unquote? c.label = none := by
      intro c hc
      have hnone := List.countP_eq_zero.1 hzero c hc
      rwa [Option.not_isSome_iff_eq_none] at hnone
    have hsurvivors : survivors node = node.children :=
      survivors_eq_children (fun _ => Node.exists_index_iff.1 ⟨index, h⟩) hquoted
    have hlabels := map_label_children_normalize node
    rw [hsurvivors] at hlabels
    rw [relabelled, if_pos hzero, map_rename_eq_self hquoted, hsurvivors]
    exact ⟨rfl, h.congr hlabels⟩
  · have hitems : (relabelled node index).items = survivors node := by
      rw [relabelled, if_neg hzero, Indexed.items_reindex, survivors_of_keyed hl]
    have hkept : Node.IndexedBy { node with children := survivors node }
        (relabelled node index).index := by
      refine .of_kept ?_
      rw [← hitems, relabelled, if_neg hzero]
      exact .reindex _
    exact ⟨hitems, hkept.congr (map_label_children_normalize node)⟩

end PathCensus.Literals
