import PathCensus.Dump.Writer
import PathCensus.Proofs.Text.Lines
import PathCensus.Proofs.Text.Numeral
import PathCensus.Proofs.Tree.Rebuilding

/-!
# Rereading what was written

A line that is written for a node gives the depth and the label of the node back, and of its value
what is read from the text of the value. The lines of a walk fit one after another, so the dump of a
tree is read as the tree rebuilt, or refused for a value that is not read.
-/

namespace PathCensus.Dump

/-! ## One line -/

/-- The characters of an indentation. -/
def indentChars (depth : Nat) : List Char :=
  (List.replicate depth ['|', ' ']).flatten

theorem indent_toList (depth : Nat) : (indent depth).toList = indentChars depth := by
  rw [indent, String.toList_join, List.flatMap_def, List.map_replicate]
  rfl

theorem mem_indentChars {depth : Nat} {c : Char} (h : c ∈ indentChars depth) : c = '|' ∨ c = ' ' := by
  simp only [indentChars, List.mem_flatten, List.mem_replicate] at h
  obtain ⟨unit, ⟨-, rfl⟩, hc⟩ := h
  simpa using hc

/-- Indentation in front of a text that starts with no bar is split off as it is. -/
theorem splitIndent_indentChars (depth : Nat) {body : List Char} (h : body.head? ≠ some '|') :
    splitIndent (indentChars depth ++ body) = (depth, body) := by
  induction depth with
  | zero =>
    unfold splitIndent
    split
    · next he =>
      rw [indentChars, List.replicate_zero, List.flatten_nil, List.nil_append] at he
      rw [he] at h
      exact absurd rfl h
    · rfl
  | succ depth ih =>
    have he : indentChars (depth + 1) ++ body = '|' :: ' ' :: (indentChars depth ++ body) := by
      simp [indentChars, List.replicate_succ]
    rw [he, splitIndent, ih]

/-- What a writable label is made of. -/
theorem isWritableLabel_iff {label : String} :
    isWritableLabel label = true ↔
      label.toList ≠ [] ∧ label.toList.head? ≠ some '|' ∧
        ∀ c ∈ label.toList, Text.isBlank c = false := by
  simp [isWritableLabel, and_assoc]

theorem isWritableValue_iff {value : String} :
    isWritableValue value = true ↔ '\n' ∉ value.toList ∧ '\r' ∉ value.toList := by
  simp only [isWritableValue, Bool.not_eq_true', List.any_eq_false, Bool.or_eq_true,
    decide_eq_true_eq, not_or]
  constructor
  · intro h
    exact ⟨fun hn => (h _ hn).1 rfl, fun hr => (h _ hr).2 rfl⟩
  · rintro ⟨hn, hr⟩ c hc
    exact ⟨fun he => hn (he ▸ hc), fun he => hr (he ▸ hc)⟩

/-- The line of a node without its ending. -/
def lineOf (depth : Nat) (label value : String) : List Char :=
  indentChars depth ++ (label.toList ++ ' ' :: value.toList)

variable {depth : Nat} {label value : String}

/-- A written line holds no ending and no mark. -/
theorem notMem_lineOf (hl : isWritableLabel label = true) (hv : isWritableValue value = true)
    {c : Char} (hc : c = '\n' ∨ c = '\r') : c ∉ lineOf depth label value := by
  obtain ⟨-, -, hblank⟩ := isWritableLabel_iff.1 hl
  obtain ⟨hn, hr⟩ := isWritableValue_iff.1 hv
  have hcblank : Text.isBlank c = true := by
    rcases hc with rfl | rfl <;> decide
  intro hmem
  rw [lineOf, List.mem_append, List.mem_append, List.mem_cons] at hmem
  rcases hmem with hmem | hmem | rfl | hmem
  · rcases mem_indentChars hmem with rfl | rfl
    · rcases hc with hc | hc <;> revert hc <;> decide
    · rcases hc with hc | hc <;> revert hc <;> decide
  · rw [hblank c hmem] at hcblank
    cases hcblank
  · rcases hc with hc | hc <;> revert hc <;> decide
  · rcases hc with rfl | rfl
    · exact hn hmem
    · exact hr hmem

variable {V : Type} [Payload V]

/-- A label that can be read: it has no space and starts with neither a bar nor white space. -/
structure IsLabel (label : String) : Prop where
  /-- There is a first character, and it can start a label. -/
  first : ∃ c rest, label.toList = c :: rest ∧ c ≠ '|' ∧ Text.isBlank c = false
  /-- No space ends the label. -/
  noSpace : ' ' ∉ label.toList

/-- What can be written as a label can be read. -/
theorem isLabel_of_isWritableLabel (hl : isWritableLabel label = true) : IsLabel label := by
  obtain ⟨hne, hbar, hblank⟩ := isWritableLabel_iff.1 hl
  obtain ⟨first, rest, hlabel⟩ := List.exists_cons_of_ne_nil hne
  refine ⟨⟨first, rest, hlabel, by simpa [hlabel] using hbar, hblank first (by simp [hlabel])⟩, ?_⟩
  intro hspace
  have h := hblank ' ' hspace
  revert h
  decide

/-- Behind the indentation a label is read up to the first space, and the value from there on. -/
theorem readLine_of_isLabel (hl : IsLabel label) {behind : List Char}
    (hb : ∀ c ∈ behind.head?, c = ' ') (number : Nat) :
    readLine number (indentChars depth ++ (label.toList ++ behind)) =
      match (Payload.read behind.tail : Except CountsFault V) with
      | .error fault => .error (.value fault)
      | .ok read => .ok (some ⟨number, depth, label, read⟩) := by
  obtain ⟨⟨first, rest, hlabel, hbar, hfirst⟩, hspaces⟩ := hl
  have hnot : (indentChars depth ++ (label.toList ++ behind)).all Text.isBlank = false := by
    refine List.all_eq_false.2 ⟨first, ?_, by simp [hfirst]⟩
    simp [hlabel]
  have hsplit : splitIndent (indentChars depth ++ (label.toList ++ behind)) =
      (depth, label.toList ++ behind) :=
    splitIndent_indentChars depth (by simpa [hlabel] using hbar)
  have hplaced : (label.toList ++ behind).head?.any isMisplaced = false := by
    simp [hlabel, isMisplaced, hfirst, hbar]
  have hleft : (label.toList ++ behind).takeWhile (· ≠ ' ') = first :: rest := by
    rw [Text.takeWhile_ne_append hspaces hb, hlabel]
  have hright : (label.toList ++ behind).dropWhile (· ≠ ' ') = behind :=
    Text.dropWhile_ne_append hspaces hb
  rw [readLine, hnot, readEntry, hsplit]
  simp only [hplaced, hleft, hright, Bool.false_eq_true, if_false]
  have hname : String.ofList (first :: rest) = label := by rw [← hlabel, String.ofList_toList]
  cases hread : (Payload.read behind.tail : Except CountsFault V) with
  | error fault => rfl
  | ok read => simp only [Except.map, hname]

/-- A written line is read as its depth and label with the value that its text is read as. -/
theorem readLine_lineOf (hl : isWritableLabel label = true) (number : Nat) :
    readLine number (lineOf depth label value) =
      match (Payload.read value.toList : Except CountsFault V) with
      | .error fault => .error (.value fault)
      | .ok read => .ok (some ⟨number, depth, label, read⟩) :=
  readLine_of_isLabel (isLabel_of_isWritableLabel hl) (by simp) number

/-! ## The lines of a walk -/

/-- What is written for a node, if it is written. -/
theorem renderVisit_eq_ok {visit : Visit V} {text : String} (h : renderVisit visit = .ok text) :
    isWritableLabel visit.node.label = true ∧
      isWritableValue (Payload.render visit.node.value) = true ∧
      text.toList =
        lineOf visit.depth visit.node.label (Payload.render visit.node.value) ++ ['\n'] := by
  simp only [renderVisit] at h
  split at h
  · cases h
  · next hl =>
    split at h
    · cases h
    · next hv =>
      cases h
      refine ⟨by simpa using hl, by simpa using hv, ?_⟩
      simp [lineOf, indent_toList]

/-- A node is written exactly if its label and the text of its value can stand on a line. -/
theorem exists_renderVisit_iff {visit : Visit V} :
    (∃ text, renderVisit visit = .ok text) ↔
      isWritableLabel visit.node.label = true ∧
        isWritableValue (Payload.render visit.node.value) = true := by
  constructor
  · rintro ⟨text, h⟩
    obtain ⟨hl, hv, -⟩ := renderVisit_eq_ok h
    exact ⟨hl, hv⟩
  · rintro ⟨hl, hv⟩
    simp [renderVisit, hl, hv]

/-- What is written for several nodes is written for each of them. -/
theorem renderVisits_cons_eq_ok {visit : Visit V} {rest : List (Visit V)} {texts : List String}
    (h : renderVisits (visit :: rest) = .ok texts) :
    ∃ text others, renderVisit visit = .ok text ∧ renderVisits rest = .ok others ∧
      texts = text :: others := by
  rw [renderVisits] at h
  cases hv : renderVisit visit with
  | error fault => simp [hv] at h
  | ok text =>
    cases hr : renderVisits rest with
    | error fault => simp [hv, hr, Except.map] at h
    | ok others =>
      simp only [hv, hr, Except.map, Except.ok.injEq] at h
      exact ⟨text, others, rfl, rfl, h.symm⟩

/-- Several nodes are written exactly if each of them is. -/
theorem exists_renderVisits_iff {visits : List (Visit V)} :
    (∃ texts, renderVisits visits = .ok texts) ↔
      ∀ visit ∈ visits, ∃ text, renderVisit visit = .ok text := by
  induction visits with
  | nil => simp [renderVisits]
  | cons visit rest ih =>
    rw [List.forall_mem_cons, ← ih]
    constructor
    · rintro ⟨texts, h⟩
      obtain ⟨text, others, hv, ho, -⟩ := renderVisits_cons_eq_ok h
      exact ⟨⟨text, hv⟩, others, ho⟩
    · rintro ⟨⟨text, hv⟩, others, ho⟩
      exact ⟨text :: others, by simp only [renderVisits, hv, ho, Except.map]⟩

/-- What is written for a tree is the lines of its nodes. -/
theorem render_eq_ok {tree : Node V} {text : String} (h : render tree = .ok text) :
    ∃ texts, renderVisits tree.walk = .ok texts ∧ text.toList = texts.flatMap String.toList := by
  rw [render] at h
  cases hr : renderVisits tree.walk with
  | error fault => simp [hr, Except.map] at h
  | ok texts =>
    simp only [hr, Except.map, Except.ok.injEq] at h
    exact ⟨texts, rfl, by rw [← h, String.toList_join]⟩

/-- The first written line is the first line of the text. -/
theorem linesOfText_cons {visit : Visit V} {text : String} (h : renderVisit visit = .ok text)
    (others : List Char) :
    linesOfText (text.toList ++ others) =
      some (lineOf visit.depth visit.node.label (Payload.render visit.node.value)) ::
        linesOfText others := by
  obtain ⟨hl, hv, ht⟩ := renderVisit_eq_ok h
  have hlast : (lineOf visit.depth visit.node.label
      (Payload.render visit.node.value)).getLast? ≠ some '\r' := by
    intro he
    exact notMem_lineOf hl hv (.inr rfl) (List.mem_of_getLast? he)
  rw [linesOfText, ht, List.append_assoc, List.singleton_append,
    Text.lines_append_ending (notMem_lineOf hl hv (.inl rfl)) hlast]
  rfl

/-- If the text of every value is read, what is written for nodes whose depths fit is read as these
nodes, each with what its value is read as. -/
theorem build_entries {layout : Layout} {g : V → V} {visits : List (Visit V)}
    {texts : List String} (hr : renderVisits visits = .ok texts)
    (hread : ∀ visit ∈ visits,
      Payload.read (Payload.render visit.node.value).toList = .ok (g visit.node.value))
    {builder : Builder V} (hfits : Builder.Fits builder.branch.length (visits.map Visit.depth))
    (before : Nat) :
    build layout builder (entries before (linesOfText (texts.flatMap String.toList))) =
      .ok (builder.attachAll (Builder.entriesOf layout g visits)).finish := by
  induction visits generalizing texts builder before with
  | nil =>
    cases hr
    rfl
  | cons visit rest ih =>
    obtain ⟨text, others, hv, ho, rfl⟩ := renderVisits_cons_eq_ok hr
    have hline : readLine (before + 1)
        (lineOf visit.depth visit.node.label (Payload.render visit.node.value)) =
        .ok (some ⟨before + 1, visit.depth, visit.node.label, g visit.node.value⟩) := by
      rw [readLine_lineOf (renderVisit_eq_ok hv).1, hread visit List.mem_cons_self]
    rw [List.flatMap_cons, linesOfText_cons hv, entries, hline]
    simp only [build, Builder.pushAt_eq, if_pos hfits.1]
    refine ih ho (fun v h => hread v (List.mem_cons_of_mem _ h)) ?_ (before + 1)
    rw [Builder.length_branch_attach hfits.1]
    exact hfits.2

/-- If what is written for nodes is read at all, the text of every value is read. -/
theorem exists_read_of_build {layout : Layout} {visits : List (Visit V)} {texts : List String}
    (hr : renderVisits visits = .ok texts) {builder : Builder V} {before : Nat} {node : Node V}
    (h : build layout builder (entries before (linesOfText (texts.flatMap String.toList))) =
      .ok node) :
    ∀ visit ∈ visits, ∃ value : V,
      Payload.read (Payload.render visit.node.value).toList = .ok value := by
  induction visits generalizing texts builder before with
  | nil => nofun
  | cons visit rest ih =>
    obtain ⟨text, others, hv, ho, rfl⟩ := renderVisits_cons_eq_ok hr
    rw [List.flatMap_cons, linesOfText_cons hv, entries,
      readLine_lineOf (renderVisit_eq_ok hv).1] at h
    cases hread : (Payload.read (Payload.render visit.node.value).toList :
        Except CountsFault V) with
    | error fault =>
      simp only [hread, build, reduceCtorEq] at h
    | ok value =>
      simp only [hread, build] at h
      split at h
      · cases h
      · intro v hmem
        rcases List.mem_cons.1 hmem with rfl | hmem
        · exact ⟨value, hread⟩
        · exact ih ho h v hmem

/-! ## Reading into keyed nodes -/

omit [Payload V] in
/-- Whatever is read into keyed nodes keeps one child per label, below the root it started with. -/
theorem keepsKeyed_of_build {label : String} {blank : V}
    {items : List (Except ReadFault (Entry V))} {builder : Builder V}
    (hb : builder.KeepsKeyed label blank) {node : Node V}
    (h : build .keyed builder items = .ok node) :
    node.label = label ∧ node.value = blank ∧ node.Keyed := by
  induction items generalizing builder with
  | nil =>
    cases h
    have hc := hb.close builder.branch.length
    exact ⟨hc.root_label, hc.root_value, hc.root_keyed⟩
  | cons item rest ih =>
    cases item with
    | error fault => simp only [build, reduceCtorEq] at h
    | ok entry =>
      rw [build, Builder.pushAt_eq] at h
      by_cases hd : entry.depth ≤ builder.branch.length
      · simp only [if_pos hd] at h
        exact ih (hb.attach entry.depth (Builder.keyed_leaf entry.label entry.value)) h
      · simp only [if_neg hd, reduceCtorEq] at h

end PathCensus.Dump
