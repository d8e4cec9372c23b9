import PathCensus.Proofs.Dump.Format
import PathCensus.Proofs.Tree.Reaching

/-!
# Trees written and read again

A tree can be written if its labels and the text of its values can stand on lines. A parse tree that
was written is read again with all its values, whatever they hold, except that an empty value is read
as none.
-/

namespace PathCensus.Dump

variable {V : Type} [Payload V]

/-- A tree is written exactly if the labels below its root and the texts of the values there can
stand on lines. -/
theorem exists_render_iff {tree : Node V} :
    (∃ text, render tree = .ok text) ↔ ∀ c ∈ tree.children, c.Everywhere fun node =>
      isWritableLabel node.label = true ∧ isWritableValue (Payload.render node.value) = true := by
  have hrender : (∃ text, render tree = .ok text) ↔
      ∃ texts, renderVisits tree.walk = .ok texts := by
    rw [render]
    cases renderVisits tree.walk <;> simp [Except.map]
  rw [hrender, exists_renderVisits_iff, Node.everywhere_below_iff_walk]
  exact forall₂_congr fun visit _ => exists_renderVisit_iff

/-! ## Parse trees -/

/-- What is written for a value is read as the value, or as none if it is empty. -/
theorem read_render (value : Option String) :
    (Payload.read (Payload.render value).toList : Except CountsFault (Option String)) =
      .ok (value.filter (· ≠ "")) := by
  cases value with
  | none => rfl
  | some text =>
    by_cases ht : text = ""
    · subst ht
      rfl
    · simp [Payload.read, Payload.render, ht, Option.filter]

/-- What is read for what was written is the value itself unless this is empty. -/
theorem filter_eq_self_iff {value : Option String} :
    value.filter (· ≠ "") = value ↔ value ≠ some "" := by
  cases value <;> simp [Option.filter_some]

/-- A value can stand on a line exactly if it holds no line feed and no carriage return. -/
theorem isWritableValue_render_iff {value : Option String} :
    isWritableValue (Payload.render value) = true ↔
      ∀ text ∈ value, '\n' ∉ text.toList ∧ '\r' ∉ text.toList := by
  rw [isWritableValue_iff]
  cases value <;> simp [Payload.render]

/-- A parse tree that was written is read again with its values, the empty ones as none. -/
theorem readTree_render {tree : Tree} (h : tree.IsParseTree) {text : String}
    (hr : render tree = .ok text) :
    readTree text = .ok (tree.mapValues fun value => value.filter (· ≠ "")) := by
  obtain ⟨texts, htexts, htext⟩ := render_eq_ok hr
  have hfits : Builder.Fits emptyBuilder.branch.length (tree.walk.map Visit.depth) :=
    Builder.fits_walk tree
  have hvalues : ∀ visit ∈ tree.walk, Payload.read (Payload.render visit.node.value).toList =
      .ok (visit.node.value.filter (· ≠ "")) := fun visit _ => read_render visit.node.value
  have happart : tree.Everywhere (·.Apart .sequence) := h.sequential.mono fun _ _ => .inl rfl
  have hread : readTree text = build .sequence emptyBuilder
      (entries 0 (linesOfText (texts.flatMap String.toList))) := by
    rw [← htext]
    rfl
  rw [hread, build_entries htexts hvalues hfits]
  refine congrArg Except.ok ((Builder.finish_attachAll_walk happart Node.rootLabel none).trans ?_)
  rw [← h.sequential.rebuilt, Node.rebuilt_eq, h.label, h.value]
  rfl

/-- A parse tree is written exactly if every label below its root has a character, starts with no bar
and has no white space, and no value has a line feed or a carriage return. What was written is read
as the same tree, except that an empty value is read as none. -/
theorem tree_round_trip {tree : Tree} (h : tree.IsParseTree) :
    ((∃ text, render tree = .ok text) ↔ ∀ c ∈ tree.children, c.Everywhere fun node =>
        (node.label.toList ≠ [] ∧ node.label.toList.head? ≠ some '|' ∧
          ∀ c ∈ node.label.toList, Text.isBlank c = false) ∧
        ∀ value ∈ node.value, '\n' ∉ value.toList ∧ '\r' ∉ value.toList) ∧
      ∀ text, render tree = .ok text →
        readTree text = .ok (tree.mapValues fun value => value.filter (· ≠ "")) := by
  refine ⟨?_, fun text hr => readTree_render h hr⟩
  rw [exists_render_iff]
  simp only [isWritableLabel_iff, isWritableValue_render_iff]

/-- Values that look like indentation, like counts or like white space, and an empty one. -/
def spacedTree : Tree :=
  ⟨"head", none, .sequence,
    [⟨"A", some "", .sequence, [⟨"B|", some " | c:1 ", .sequence, []⟩]⟩,
      ⟨"A", some " \u2028", .sequence, [⟨"head", none, .sequence, []⟩]⟩]⟩

/-- All values come back but the empty one. -/
theorem tree_round_trip_spaced :
    spacedTree.IsParseTree ∧ ∃ text, render spacedTree = .ok text ∧
      readTree text = .ok ⟨"head", none, .sequence,
        [⟨"A", none, .sequence, [⟨"B|", some " | c:1 ", .sequence, []⟩]⟩,
          ⟨"A", some " \u2028", .sequence, [⟨"head", none, .sequence, []⟩]⟩]⟩ := by
  have hparse : spacedTree.IsParseTree :=
    ⟨rfl, rfl, .intro rfl (Node.everywhere_below_iff_walk.2 (by decide +kernel))⟩
  obtain ⟨text, htext⟩ : ∃ text, render spacedTree = .ok text :=
    exists_render_iff.2 (Node.everywhere_below_iff_walk.2 (by decide +kernel))
  exact ⟨hparse, text, htext, (tree_round_trip hparse).2 text htext⟩

end PathCensus.Dump
