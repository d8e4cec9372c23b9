import PathCensus.Proofs.Dump.RoundTrip

/-!
# The normal form of a dump

The reader lets two things through that the writer refuses: white space other than a space in a
label, and a carriage return in a value. A tree that was read without these can be written. What is
written is read as the same tree, so it is what is written again.
-/

namespace PathCensus.Dump

/-- What can be read in a node and not be written: white space in the label, or a carriage return in
the value. -/
def ReadOnly (node : Tree) : Prop :=
  (∃ c ∈ node.label.toList, Text.isBlank c = true) ∨ ∃ value ∈ node.value, '\r' ∈ value.toList

instance (node : Tree) : Decidable (ReadOnly node) :=
  decidable_of_iff (node.label.toList.any Text.isBlank = true ∨
      (node.value.any fun value => value.toList.contains '\r') = true)
    (by simp [ReadOnly, Option.any_eq_true])

/-- A label that can be read can be written exactly if it has no white space. -/
theorem IsLabel.isWritableLabel_iff {label : String} (h : IsLabel label) :
    isWritableLabel label = true ↔ ∀ c ∈ label.toList, Text.isBlank c = false := by
  obtain ⟨first, rest, hlabel, hbar, -⟩ := h.first
  rw [Dump.isWritableLabel_iff, hlabel]
  simp [hbar]

/-- On a single line there is no line feed that could keep a value from being written. -/
theorem Shows.isWritableValue_iff {line : List Char} {item : Nat × String × Option String}
    (h : Shows line item) (hline : '\n' ∉ line) :
    isWritableValue (Payload.render item.2.2) = true ↔
      ∀ value ∈ item.2.2, '\r' ∉ value.toList := by
  rw [isWritableValue_render_iff]
  refine forall₂_congr fun value hv => and_iff_right fun hmem => ?_
  exact hline (h.value_subset value hv hmem)

/-- A node that a line shows can be written unless it can only be read. -/
theorem Shows.isWritable_iff {line : List Char} {visit : Visit (Option String)}
    (h : Shows line visit.listed) (hline : '\n' ∉ line) :
    (isWritableLabel visit.node.label = true ∧
        isWritableValue (Payload.render visit.node.value) = true) ↔ ¬ReadOnly visit.node := by
  have hwritable := and_congr h.isLabel.isWritableLabel_iff (h.isWritableValue_iff hline)
  refine hwritable.trans ?_
  rw [ReadOnly, not_or]
  simp [Visit.listed]

section

variable {text : String} {tree : Tree}

/-- Every node below the root of a tree that was read is shown by a line of the text. -/
theorem exists_line_of_readTree (h : readTree text = .ok tree) :
    ∀ visit ∈ tree.walk, ∃ line, '\n' ∉ line ∧ Shows line visit.listed := by
  intro visit hvisit
  have hlines : Text.HasLines '\n' '\r' text.toList (Text.lines '\n' '\r' text.toList) :=
    (Text.hasLines_iff (by decide)).2 rfl
  obtain ⟨line, hline, hshows⟩ :=
    (tell_of_readTree h).2.exists_line _ (List.mem_map_of_mem hvisit)
  exact ⟨line, hlines.notMem line hline, hshows⟩

/-- A tree that was read can be written exactly if there is nothing in it that can only be read. -/
theorem exists_render_iff_of_readTree (h : readTree text = .ok tree) :
    (∃ written, render tree = .ok written) ↔
      ∀ node ∈ tree :: tree.walk.map Visit.node, ¬ReadOnly node := by
  have hparse := (tell_of_readTree h).1
  have hroot : ¬ReadOnly tree := by
    have hhead : isWritableLabel Node.rootLabel = true := by decide
    rw [ReadOnly, hparse.label, hparse.value]
    rintro (⟨c, hc, hblank⟩ | ⟨value, hvalue, -⟩)
    · rw [(isWritableLabel_iff.1 hhead).2.2 c hc] at hblank
      cases hblank
    · cases hvalue
  rw [exists_render_iff, Node.everywhere_below_iff_walk, List.forall_mem_cons, and_iff_right hroot,
    List.forall_mem_map]
  refine forall₂_congr fun visit hvisit => ?_
  obtain ⟨line, hline, hshows⟩ := exists_line_of_readTree h visit hvisit
  exact hshows.isWritable_iff hline

/-- What is written of a tree that was read is read as this tree, which has no empty value. -/
theorem readTree_render_of_readTree (h : readTree text = .ok tree) {written : String}
    (hw : render tree = .ok written) : readTree written = .ok tree := by
  have hparse := (tell_of_readTree h).1
  have hbelow : ∀ c ∈ tree.children, c.Everywhere fun node =>
      node.value.filter (· ≠ "") = node.value := by
    refine Node.everywhere_below_iff_walk.2 fun visit hvisit => ?_
    obtain ⟨line, -, hshows⟩ := exists_line_of_readTree h visit hvisit
    exact filter_eq_self_iff.2 hshows.value_ne_empty
  have hroot : tree.value.filter (· ≠ "") = tree.value := by
    rw [hparse.value]
    rfl
  rw [readTree_render hparse hw, (Node.Everywhere.intro hroot hbelow).mapValues_eq_self]

/-- No label of a tree that was read has a space. The tree is refused by the writer exactly if one
of its labels has white space or one of its values a carriage return. Else what is written is read
as the same tree, and is what is written of it again. -/
theorem render_normal_form (h : readTree text = .ok tree) :
    (∀ node ∈ tree :: tree.walk.map Visit.node, ' ' ∉ node.label.toList) ∧
      ((∃ fault, render tree = .error fault) ↔
        ∃ node ∈ tree :: tree.walk.map Visit.node, ReadOnly node) ∧
      ∀ written, render tree = .ok written → readTree written = .ok tree ∧
        ∀ reread, readTree written = .ok reread → render reread = .ok written := by
  refine ⟨?_, ?_, fun written hw => ?_⟩
  · refine List.forall_mem_cons.2 ⟨?_, List.forall_mem_map.2 fun visit hvisit => ?_⟩
    · rw [(tell_of_readTree h).1.label]
      decide
    · obtain ⟨line, -, hshows⟩ := exists_line_of_readTree h visit hvisit
      exact hshows.isLabel.noSpace
  · have hfails : (∃ fault, render tree = .error fault) ↔
        ¬∃ written, render tree = .ok written := by
      cases render tree <;> simp
    rw [hfails, exists_render_iff_of_readTree h]
    push Not
    rfl
  · have hread := readTree_render_of_readTree h hw
    refine ⟨hread, fun reread hreread => ?_⟩
    rw [hread, Except.ok.injEq] at hreread
    rw [← hreread, hw]

/-- Carriage returns at the ends of lines and blank lines are not written again, and behind every
label a space is. A wide space in a label and a carriage return in a value are read and refused. -/
theorem render_normal_form_crlf :
    ∃ tree wide returned, readTree "A  b c\r\n \n| B|\r\n| C" = .ok tree ∧
      render tree = .ok "A  b c\n| B| \n| C \n" ∧
      readTree "A  b c\n| B| \n| C \n" = .ok tree ∧
      readTree "A\u2003B c\n" = .ok wide ∧ (∃ fault, render wide = .error fault) ∧
      readTree "A\n| B c\rd\n" = .ok returned ∧ ∃ fault, render returned = .error fault := by
  have hread : readTree "A  b c\r\n \n| B|\r\n| C" = .ok ⟨"head", none, .sequence,
      [⟨"A", some " b c", .sequence, [.leaf "B|" none .sequence, .leaf "C" none .sequence]⟩]⟩ := by
    decide +kernel
  have hwide : readTree "A\u2003B c\n" = .ok ⟨"head", none, .sequence,
      [.leaf "A\u2003B" (some "c") .sequence]⟩ := by
    decide +kernel
  have hreturned : readTree "A\n| B c\rd\n" = .ok ⟨"head", none, .sequence,
      [⟨"A", none, .sequence, [.leaf "B" (some "c\rd") .sequence]⟩]⟩ := by
    decide +kernel
  have hwritten : render ⟨"head", none, .sequence, [⟨"A", some " b c", .sequence,
      [.leaf "B|" none .sequence, .leaf "C" none .sequence]⟩]⟩ = .ok "A  b c\n| B| \n| C \n" := by
    decide +kernel
  have hwideFails : ∃ fault, render _ = .error fault :=
    (render_normal_form hwide).2.1.2 (by decide +kernel)
  have hreturnedFails : ∃ fault, render _ = .error fault :=
    (render_normal_form hreturned).2.1.2 (by decide +kernel)
  exact ⟨_, _, _, hread, hwritten, ((render_normal_form hread).2.2 _ hwritten).1, hwide, hwideFails,
    hreturned, hreturnedFails⟩

end

end PathCensus.Dump
