import PathCensus.Proofs.Census.Rereading
import PathCensus.Proofs.Census.SiblingOrder
import PathCensus.Proofs.Dump.RoundTrip

/-!
# Censuses written and read again

A census can be written if its labels can stand on lines. What is read is its mirror image, which
cannot be told from it by any question, and the dump of the mirror image is read as the census itself.
-/

namespace PathCensus

/-- The text of counts stays on its line. -/
theorem Counts.isWritableValue_render (counts : Counts) :
    Dump.isWritableValue counts.render = true := by
  have hnot : ∀ c, Text.isBlank c = true → c ∉ counts.render.toList := by
    intro c hblank hmem
    rw [isBlank_of_mem_render hmem] at hblank
    cases hblank
  exact Dump.isWritableValue_iff.2 ⟨hnot '\n' (by decide), hnot '\r' (by decide)⟩

namespace Census

/-- A census is written exactly if all labels below its root can stand on lines. -/
theorem exists_render_iff {census : Census} :
    (∃ text, census.render = .ok text) ↔ ∀ c ∈ census.root.children,
      c.Everywhere fun node => Dump.isWritableLabel node.label = true := by
  have hrender : (∃ text, census.render = .ok text) ↔
      ∃ text, Dump.render census.root = .ok text := by
    rw [render]
    cases Dump.render census.root <;> simp [Except.map]
  have hvalue : ∀ counts : Counts, Dump.isWritableValue (Payload.render counts) = true :=
    Counts.isWritableValue_render
  rw [hrender, Dump.exists_render_iff]
  simp only [hvalue, and_true]

/-- Of censuses that agree both are written or neither is. -/
theorem Agrees.exists_render_iff {a b : Census} (h : a.Agrees b) (ha : a.WellFormed)
    (hb : b.WellFormed) : (∃ text, a.render = .ok text) ↔ ∃ text, b.render = .ok text := by
  have hpaths : ∀ path, path ∈ a.root.chains.map Node.labels ↔
      path ∈ b.root.chains.map Node.labels := by
    intro path
    rw [ha.keyed.mem_labels_chains_iff, hb.keyed.mem_labels_chains_iff]
    refine and_congr_right fun hne => ?_
    rw [← find?, ← find?, ← isSome_countsAt?, ← isSome_countsAt?, h.countsAt path hne]
  have hlabels : ∀ census : Census, (∃ text, census.render = .ok text) ↔
      ∀ path ∈ census.root.chains.map Node.labels, ∀ label ∈ path,
        Dump.isWritableLabel label = true :=
    fun census => Census.exists_render_iff.trans
      (Node.everywhere_label_below_iff (P := fun label => Dump.isWritableLabel label = true))
  rw [hlabels a, hlabels b]
  simp only [hpaths]

/-! ## Mirror images -/

theorem find?_mirrored {census : Census} (hk : census.root.Keyed) (labels : List String) :
    census.mirrored.find? labels = (census.find? labels).map (Node.rebuilt .keyed id) :=
  hk.descend?_rebuilt .keyed id labels

/-- The mirror image of the mirror image is the census. -/
theorem mirrored_mirrored {census : Census} (hk : census.root.Keyed) :
    census.mirrored.mirrored = census := by
  rw [mirrored, mirrored, hk.rebuilt_rebuilt]

/-- What holds below the root and does not depend on the order of children holds in the mirror
image. -/
theorem everywhere_mirrored {census : Census} {P : Node Counts → Prop}
    (hstep : ∀ node, P node → P (node.rebuilt .keyed id))
    (h : ∀ c ∈ census.root.children, c.Everywhere P) :
    ∀ c ∈ census.mirrored.root.children, c.Everywhere P := by
  intro c hc
  rw [mirrored, Node.rebuilt_eq] at hc
  obtain ⟨d, hd, rfl⟩ := List.mem_map.1 hc
  exact (h d (Node.mem_visited.1 hd)).rebuilt hstep

theorem Nameable.mirrored {census : Census} (h : census.Nameable) : census.mirrored.Nameable := by
  refine ⟨h.treeCount, everywhere_mirrored (fun node hn => ?_) h.counts⟩
  rwa [Node.rebuilt_value]

/-- The mirror image can be written if the census can. -/
theorem exists_render_mirrored {census : Census} {text : String} (h : census.render = .ok text) :
    ∃ again, census.mirrored.render = .ok again := by
  refine exists_render_iff.2 (everywhere_mirrored (fun node hn => ?_) (exists_render_iff.1 ⟨text, h⟩))
  rwa [Node.rebuilt_label]

/-- A census is written exactly if every label below its root has a character, starts with no bar and
has no white space. If its numbers have no more than 64 bits, so that numerals can name them, what was
written is read with the same number of trees, the same paths lead to the same counts, and every node
has its children in reverse; so queries and matrices are the same. Written and read once more, it is
the census itself. -/
theorem dump_round_trip {sources : Sources} {census : Census} (h : Reachable sources census) :
    ((∃ text, census.render = .ok text) ↔ ∀ c ∈ census.root.children, c.Everywhere fun node =>
        node.label.toList ≠ [] ∧ node.label.toList.head? ≠ some '|' ∧
          ∀ c ∈ node.label.toList, Text.isBlank c = false) ∧
      ∀ text, census.render = .ok text → census.Nameable →
        ∃ read, ofText text = .ok read ∧
          read.treeCount = census.treeCount ∧
          (∀ labels,
            (read.find? labels).map (fun n => (n.label, n.value, n.children.map Node.label)) =
              (census.find? labels).map fun n =>
                (n.label, n.value, (n.children.map Node.label).reverse)) ∧
          (∀ paths test, read.query paths test = census.query paths test) ∧
          (∀ paths trees, read.matrix paths trees = census.matrix paths trees) ∧
          ∃ again, read.render = .ok again ∧ ofText again = .ok census := by
  have hw := h.wellFormed
  constructor
  · rw [exists_render_iff]
    simp only [Dump.isWritableLabel_iff]
  · intro text hrender hname
    have hagrees := hw.agrees_mirrored.symm
    obtain ⟨again, hagain⟩ := exists_render_mirrored hrender
    refine ⟨census.mirrored, (hw.ofText_render hrender).2 ⟨rfl, hname⟩, rfl, fun labels => ?_,
      hagrees.query_eq hw.mirrored hw, hagrees.matrix_eq hw.mirrored hw, again, hagain, ?_⟩
    · rw [find?_mirrored hw.keyed]
      cases hfind : census.find? labels with
      | none => rfl
      | some node =>
        have hlayout := (hw.keyed.descend? hfind).here.layout
        simp only [Option.map_some, Node.rebuilt_label, Node.rebuilt_value, id,
          Node.map_label_children_rebuilt, Node.visited, hlayout, Node.inOrder, List.map_reverse]
    · rw [(hw.mirrored.ofText_render hagain).2 ⟨rfl, hname.mirrored⟩, mirrored_mirrored hw.keyed]

/-- Five trees were counted, of which one passes the nodes of the census: what is read has five trees
and the children of the root in reverse, and is read again as the census. -/
theorem dump_round_trip_nested :
    ∃ text read again, ((ofTree 0 nestedTree).merge (ofTreeCount 5)).render = .ok text ∧
      ofText text = .ok read ∧ read.treeCount = 5 ∧
      read ≠ (ofTree 0 nestedTree).merge (ofTreeCount 5) ∧
      read.render = .ok again ∧ ofText again = .ok ((ofTree 0 nestedTree).merge (ofTreeCount 5)) := by
  have hreach : Reachable .all ((ofTree 0 nestedTree).merge (ofTreeCount 5)) :=
    .merge (.addTree nestedTree (.ofTreeCount 0)) (.ofTreeCount 5)
  obtain ⟨hwritten, hread⟩ := dump_round_trip hreach
  have hlabels : ∀ visit ∈ ((ofTree 0 nestedTree).merge (ofTreeCount 5)).root.walk,
      Dump.isWritableLabel visit.node.label = true := by decide +kernel
  obtain ⟨text, htext⟩ := hwritten.2 (Node.everywhere_below_iff_walk.2 fun visit hv =>
    Dump.isWritableLabel_iff.1 (hlabels visit hv))
  have hname : ((ofTree 0 nestedTree).merge (ofTreeCount 5)).Nameable := by
    refine ⟨by decide +kernel, Node.everywhere_below_iff_walk.2 ?_⟩
    unfold Counts.Nameable
    decide +kernel
  obtain ⟨read, hofText, hcount, hplaces, -, -, again, hagain, hback⟩ := hread text htext hname
  refine ⟨text, read, again, htext, hofText, hcount.trans (by decide +kernel), fun he => ?_, hagain,
    hback⟩
  rw [he] at hplaces
  exact absurd (hplaces []) (by decide +kernel)

end Census

end PathCensus
