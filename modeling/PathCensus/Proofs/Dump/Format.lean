import Mathlib.Data.List.Induction
import PathCensus.Proofs.Dump.Rereading
import PathCensus.Proofs.Tree.Building

/-!
# The format of a dump

A line shows a node by its indentation, its label and its value. Lines that are white space or show
nodes, each at most one level below the one before it, are read as the tree whose walk lists these
nodes; else the first line that is out of place is reported with its number, whatever follows it.
-/

namespace PathCensus

/-- The tree starts at a bare root and all its nodes keep their children in order. -/
structure Node.IsParseTree (tree : Tree) : Prop where
  /-- The root has the label of all roots. -/
  label : tree.label = rootLabel
  /-- The root has no text. -/
  value : tree.value = none
  /-- Every node keeps its children in order. -/
  sequential : tree.Sequential

namespace Dump

/-- A line shows a node at a depth, with a label and a value: there is one unit of indentation for
each level, then the label, then nothing or one space and the value; an empty value is none. -/
inductive Shows : List Char → Nat × String × Option String → Prop where
  /-- Nothing follows the label. -/
  | bare {depth : Nat} {label : String} : IsLabel label →
      Shows (indentChars depth ++ label.toList) (depth, label, none)
  /-- A space and a value follow the label. -/
  | valued {depth : Nat} {label value : String} : IsLabel label →
      Shows (indentChars depth ++ (label.toList ++ ' ' :: value.toList))
        (depth, label, if value = "" then none else some value)

/-- Lines tell of nodes in order; a line that is white space tells nothing. -/
inductive Tell : List (List Char) → List (Nat × String × Option String) → Prop where
  /-- No line tells nothing. -/
  | nil : Tell [] []
  /-- A blank line is passed over. -/
  | blank {line : List Char} {lines : List (List Char)} {items : List (Nat × String × Option String)} :
      (∀ c ∈ line, Text.isBlank c = true) → Tell lines items → Tell (line :: lines) items
  /-- A line that shows a node tells of it. -/
  | node {line : List Char} {lines : List (List Char)} {item : Nat × String × Option String}
      {items : List (Nat × String × Option String)} :
      Shows line item → Tell lines items → Tell (line :: lines) (item :: items)

/-- The depths of nodes in preorder. -/
structure WellNested (depths : List Nat) : Prop where
  /-- The first node has no other above it. -/
  first : ∀ depth ∈ depths.head?, depth = 0
  /-- A node is at most one level below the one before it. -/
  step : depths.IsChain fun before after => after ≤ before + 1

/-- A line that is neither white space nor shows a node, and what is wrong with it. -/
structure Offends (line : List Char) (fault : LineFault) : Prop where
  /-- The line is no white space. -/
  notBlank : ∃ c ∈ line, Text.isBlank c = false
  /-- The line shows no node. -/
  notNode : ∀ item, ¬Shows line item
  /-- Behind indentation alone there is no label; else the indentation is wrong. -/
  kind : fault = .noLabel ∧ (∃ depth, line = indentChars depth) ∨
    fault = .indentation ∧ ∀ depth, line ≠ indentChars depth

/-- The fault of the first line that is out of place. -/
inductive FirstFault (lines : List (List Char)) : ReadFault → Prop where
  /-- The line is malformed. -/
  | malformed {before after : List (List Char)} {line : List Char}
      {items : List (Nat × String × Option String)} {fault : LineFault} :
      lines = before ++ line :: after → Tell before items → WellNested (items.map Prod.fst) →
      Offends line fault → FirstFault lines (.line (before.length + 1) fault)
  /-- The line shows a node that is more than one level below the one before it. -/
  | jump {before after : List (List Char)} {line : List Char}
      {items : List (Nat × String × Option String)} {depth : Nat} {label : String}
      {value : Option String} :
      lines = before ++ line :: after → Tell before items → WellNested (items.map Prod.fst) →
      Shows line (depth, label, value) → (items.map Prod.fst).getLast?.elim 0 (· + 1) < depth →
      FirstFault lines (.depth ⟨before.length + 1, depth, (items.map Prod.fst).getLast?⟩)

/-! ## One line -/

/-- The units of indentation and the rest make up the line, and the rest starts with no unit. -/
theorem eq_of_splitIndent (text : List Char) :
    text = indentChars (splitIndent text).1 ++ (splitIndent text).2 ∧
      ∀ rest, (splitIndent text).2 ≠ '|' :: ' ' :: rest := by
  induction text using splitIndent.induct with
  | case1 rest _ _ _ ih =>
    rw [splitIndent]
    refine ⟨?_, ih.2⟩
    have he : indentChars ((splitIndent rest).1 + 1) =
        '|' :: ' ' :: indentChars (splitIndent rest).1 := by
      simp [indentChars, List.replicate_succ]
    dsimp only
    rw [he, List.cons_append, List.cons_append, ← ih.1]
  | case2 body hbody =>
    have he : splitIndent body = (0, body) := by
      rw [splitIndent]
      exact hbody
    rw [he]
    exact ⟨rfl, hbody⟩

variable {line : List Char} {number : Nat}

theorem readLine_of_blank (h : ∀ c ∈ line, Text.isBlank c = true) :
    readLine number line = .ok (none : Option (Entry (Option String))) := by
  rw [readLine, if_pos (List.all_eq_true.2 h)]

/-- A line that shows a node is read as this node. -/
theorem readLine_of_shows {item : Nat × String × Option String} (h : Shows line item) :
    readLine number line = .ok (some ⟨number, item.1, item.2.1, item.2.2⟩) := by
  cases h with
  | @bare depth label hl =>
    have hread := @readLine_of_isLabel depth label (Option String) _ hl [] nofun number
    rwa [List.append_nil] at hread
  | @valued depth label value hl =>
    have hread := @readLine_of_isLabel depth label (Option String) _ hl (' ' :: value.toList)
      (by simp) number
    rw [hread]
    by_cases hv : value = ""
    · simp [Payload.read, hv]
    · simp [Payload.read, hv]

/-- What a line shows as a label can be read as one. -/
theorem Shows.isLabel {item : Nat × String × Option String} (h : Shows line item) :
    IsLabel item.2.1 := by
  cases h <;> assumption

/-- No line shows an empty value. -/
theorem Shows.value_ne_empty {item : Nat × String × Option String} (h : Shows line item) :
    item.2.2 ≠ some "" := by
  cases h with
  | bare => exact nofun
  | @valued depth label value hl =>
    by_cases hv : value = "" <;> simp [hv]

/-- A value is a part of its line. -/
theorem Shows.value_subset {item : Nat × String × Option String} (h : Shows line item) :
    ∀ value ∈ item.2.2, value.toList ⊆ line := by
  cases h with
  | bare => exact nofun
  | @valued depth label text hl =>
    intro value hv c hc
    rw [Option.mem_def, Option.ite_none_left_eq_some, Option.some.injEq] at hv
    rw [← hv.2] at hc
    simp [hc]

/-- A line shows a node if a character behind its indentation can start a label. -/
theorem exists_shows {depth : Nat} {body : List Char} (hline : line = indentChars depth ++ body)
    {c : Char} {rest : List Char} (hbody : body = c :: rest) (hbar : c ≠ '|')
    (hblank : Text.isBlank c = false) : ∃ item, Shows line item := by
  have hc : decide (c ≠ ' ') = true := by
    rw [decide_eq_true_eq]
    rintro rfl
    revert hblank
    decide
  have hlabel : IsLabel (String.ofList (body.takeWhile (· ≠ ' '))) := by
    constructor
    · refine ⟨c, rest.takeWhile (· ≠ ' '), ?_, hbar, hblank⟩
      rw [String.toList_ofList, hbody, List.takeWhile_cons, if_pos hc]
    · rw [String.toList_ofList]
      intro hmem
      exact absurd (List.all_eq_true.1 List.all_takeWhile _ hmem) (by simp)
  have hparts : body.takeWhile (· ≠ ' ') ++ body.dropWhile (· ≠ ' ') = body :=
    List.takeWhile_append_dropWhile
  cases hbehind : body.dropWhile (· ≠ ' ') with
  | nil =>
    have hshows := @Shows.bare depth _ hlabel
    rw [String.toList_ofList] at hshows
    rw [hbehind, List.append_nil] at hparts
    rw [hparts, ← hline] at hshows
    exact ⟨_, hshows⟩
  | cons d value =>
    obtain rfl : d = ' ' := by
      have h := List.head?_dropWhile_not (fun c => decide (c ≠ ' ')) body
      rw [hbehind] at h
      simpa using h
    have hshows := @Shows.valued depth _ (String.ofList value) hlabel
    rw [String.toList_ofList, String.toList_ofList, ← hbehind, hparts, ← hline] at hshows
    exact ⟨_, hshows⟩

/-- A line is blank, shows a node or offends. -/
theorem readLine_cases (number : Nat) (line : List Char) :
    (∀ c ∈ line, Text.isBlank c = true) ∨ (∃ item, Shows line item) ∨
      ∃ fault, Offends line fault ∧
        readLine number line = (.error fault : Except LineFault (Option (Entry (Option String)))) := by
  by_cases hblank : ∀ c ∈ line, Text.isBlank c = true
  · exact .inl hblank
  refine .inr ?_
  obtain ⟨hline, hunit⟩ := eq_of_splitIndent line
  have hsome : ∃ c ∈ line, Text.isBlank c = false := by simpa using hblank
  have hnot : line.all Text.isBlank = false := by simpa using hblank
  have hoffends : ∀ fault, (fault = .noLabel ∧ (∃ depth, line = indentChars depth) ∨
      fault = .indentation ∧ ∀ depth, line ≠ indentChars depth) →
      (readEntry number line : Except LineFault (Entry (Option String))) = .error fault →
      ∃ fault, Offends line fault ∧
        readLine number line = (.error fault : Except LineFault (Option (Entry (Option String)))) := by
    intro fault hkind hread
    have herror : readLine number line =
        (.error fault : Except LineFault (Option (Entry (Option String)))) := by
      rw [readLine, hnot, hread]
      rfl
    refine ⟨fault, ⟨hsome, fun item hshows => ?_, hkind⟩, herror⟩
    rw [readLine_of_shows hshows] at herror
    cases herror
  cases hbody : (splitIndent line).2 with
  | nil =>
    refine .inr (hoffends .noLabel (.inl ⟨rfl, (splitIndent line).1, ?_⟩) ?_)
    · rw [hbody, List.append_nil] at hline
      exact hline
    · simp [readEntry, hbody]
  | cons c rest =>
    by_cases hc : isMisplaced c = true
    · refine .inr (hoffends .indentation (.inr ⟨rfl, fun depth he => ?_⟩) ?_)
      · have hnil := @splitIndent_indentChars depth [] (by simp)
        rw [List.append_nil, ← he] at hnil
        rw [hnil] at hbody
        cases hbody
      · simp [readEntry, hbody, hc]
    · refine .inl ?_
      simp only [isMisplaced, Bool.or_eq_true, decide_eq_true_eq, not_or, Bool.not_eq_true] at hc
      exact exists_shows hline hbody hc.1 hc.2

theorem readLine_of_offends {fault : LineFault} (h : Offends line fault) :
    readLine number line = (.error fault : Except LineFault (Option (Entry (Option String)))) := by
  rcases readLine_cases number line with hblank | ⟨item, hshows⟩ | ⟨other, ho, hread⟩
  · obtain ⟨c, hc, hsome⟩ := h.notBlank
    rw [hblank c hc] at hsome
    cases hsome
  · exact absurd hshows (h.notNode item)
  · rw [hread]
    rcases h.kind with ⟨rfl, depth, hd⟩ | ⟨rfl, hd⟩ <;>
      rcases ho.kind with ⟨rfl, depth', hd'⟩ | ⟨rfl, hd'⟩
    · rfl
    · exact absurd hd (hd' depth)
    · exact absurd hd' (hd depth')
    · rfl

/-! ## Lines one after another -/

variable {lines : List (List Char)} {items : List (Nat × String × Option String)}

theorem wellNested_iff {depths : List Nat} : WellNested depths ↔ Builder.Fits 0 depths := by
  rw [Builder.fits_iff]
  simp only [Nat.le_zero]
  exact ⟨fun h => ⟨h.first, h.step⟩, fun h => ⟨h.1, h.2⟩⟩

theorem Tell.append {others : List (List Char)} {more : List (Nat × String × Option String)}
    (h : Tell lines items) (ho : Tell others more) : Tell (lines ++ others) (items ++ more) := by
  induction h with
  | nil => exact ho
  | blank hblank _ ih => exact .blank hblank ih
  | node hshows _ ih => exact .node hshows ih

/-- Every node that is told of is shown by a line. -/
theorem Tell.exists_line (h : Tell lines items) :
    ∀ item ∈ items, ∃ line ∈ lines, Shows line item := by
  induction h with
  | nil => exact nofun
  | blank _ _ ih =>
    intro item hmem
    obtain ⟨line, hline, hshows⟩ := ih item hmem
    exact ⟨line, List.mem_cons_of_mem _ hline, hshows⟩
  | node hfirst _ ih =>
    refine List.forall_mem_cons.2 ⟨⟨_, List.mem_cons_self, hfirst⟩, fun item hmem => ?_⟩
    obtain ⟨line, hline, hshows⟩ := ih item hmem
    exact ⟨line, List.mem_cons_of_mem _ hline, hshows⟩

theorem Tell.value_ne_empty (h : Tell lines items) : ∀ item ∈ items, item.2.2 ≠ some "" := by
  intro item hmem
  obtain ⟨line, -, hshows⟩ := h.exists_line item hmem
  exact hshows.value_ne_empty

/-- A fault is the first one whatever lines follow. -/
theorem FirstFault.append {fault : ReadFault} (h : FirstFault lines fault)
    (others : List (List Char)) : FirstFault (lines ++ others) fault := by
  cases h with
  | @malformed before after line items fault he ht hn ho =>
    have happend : lines ++ others = before ++ line :: (after ++ others) := by
      rw [he, List.append_assoc, List.cons_append]
    exact .malformed happend ht hn ho
  | @jump before after line items depth label value he ht hn hs hd =>
    have happend : lines ++ others = before ++ line :: (after ++ others) := by
      rw [he, List.append_assoc, List.cons_append]
    exact .jump happend ht hn hs hd

/-- All lines are in place or one of them is the first that is not. -/
theorem tell_or_firstFault (lines : List (List Char)) :
    (∃ items, Tell lines items ∧ WellNested (items.map Prod.fst)) ∨
      ∃ fault, FirstFault lines fault := by
  induction lines using List.reverseRecOn with
  | nil => exact .inl ⟨[], .nil, nofun, .nil⟩
  | append_singleton before line ih =>
    rcases ih with ⟨items, ht, hn⟩ | ⟨fault, hfault⟩
    · rcases readLine_cases 0 line with hblank | ⟨⟨depth, label, value⟩, hshows⟩ | ⟨fault, ho, -⟩
      · refine .inl ⟨items, ?_, hn⟩
        have h := ht.append (.blank hblank .nil)
        rwa [List.append_nil] at h
      · by_cases hd : depth ≤ (items.map Prod.fst).getLast?.elim 0 (· + 1)
        · refine .inl ⟨items ++ [(depth, label, value)], ht.append (.node hshows .nil), ?_⟩
          rw [wellNested_iff, List.map_append, List.map_singleton, Builder.fits_append_singleton]
          exact ⟨wellNested_iff.1 hn, hd⟩
        · exact .inr ⟨_, .jump rfl ht hn hshows (Nat.lt_of_not_le hd)⟩
      · exact .inr ⟨_, .malformed rfl ht hn ho⟩
    · exact .inr ⟨fault, hfault.append [line]⟩

/-- Lines that are in place are built on, one after another. -/
theorem build_of_tell (h : Tell lines items) {builder : Builder (Option String)}
    (hfits : Builder.Fits builder.branch.length (items.map Prod.fst)) (read : Nat)
    (more : List RawLine) :
    build .sequence builder (entries read (lines.map some ++ more)) =
      build .sequence (builder.attachAll (Builder.leaves .sequence items))
        (entries (read + lines.length) more) := by
  induction h generalizing builder read with
  | nil => rfl
  | @blank line lines items hblank _ ih =>
    have hlength : read + (line :: lines).length = read + 1 + lines.length := by
      rw [List.length_cons]
      omega
    rw [List.map_cons, List.cons_append, entries, readLine_of_blank hblank, hlength]
    exact ih hfits (read + 1)
  | @node line lines item items hshows _ ih =>
    have hlength : read + (line :: lines).length = read + 1 + lines.length := by
      rw [List.length_cons]
      omega
    rw [List.map_cons, List.cons_append, entries, readLine_of_shows hshows, hlength]
    simp only [build, Builder.pushAt_eq, if_pos hfits.1]
    refine ih ?_ (read + 1)
    rw [Builder.length_branch_attach hfits.1]
    exact hfits.2

/-- A builder of parse trees before any node has come. -/
abbrev emptyBuilder : Builder (Option String) :=
  .start (.root Payload.blank .sequence)

theorem all_emptyBuilder : emptyBuilder.All Node.Sequential :=
  ⟨Node.sequential_leaf _ _, nofun⟩

/-- Lines that are in place are read as a tree whose walk lists what they tell. -/
theorem readLines_of_tell (h : Tell lines items) (hn : WellNested (items.map Prod.fst)) :
    ∃ tree, readLines .sequence 0 (lines.map some) = .ok tree ∧ tree.IsParseTree ∧
      tree.walk.map Visit.listed = items := by
  have hfits : Builder.Fits emptyBuilder.branch.length (items.map Prod.fst) := wellNested_iff.1 hn
  obtain ⟨hall, hlisted⟩ := Builder.attachAll_leaves all_emptyBuilder hfits
  obtain ⟨hlabel, hvalue⟩ :=
    Builder.root_finish_attachAll emptyBuilder (Builder.leaves .sequence items)
  have hbuild := build_of_tell h hfits 0 []
  rw [List.append_nil] at hbuild
  exact ⟨_, hbuild, ⟨hlabel, hvalue, hall.finish Node.Sequential.push⟩,
    (Builder.map_listed_walk_finish hall).trans hlisted⟩

/-- The first fault is reported. -/
theorem readLines_of_firstFault {fault : ReadFault} (h : FirstFault lines fault) :
    readLines .sequence 0 (lines.map some) = (.error fault : Except ReadFault Tree) := by
  cases h with
  | @malformed before after line items fault he ht hn ho =>
    have hfits : Builder.Fits emptyBuilder.branch.length (items.map Prod.fst) :=
      wellNested_iff.1 hn
    rw [readLines, he, List.map_append, build_of_tell ht hfits, Nat.zero_add, List.map_cons, entries,
      readLine_of_offends ho]
    rfl
  | @jump before after line items depth label value he ht hn hs hd =>
    have hfits : Builder.Fits emptyBuilder.branch.length (items.map Prod.fst) :=
      wellNested_iff.1 hn
    have hlast := @Builder.lastDepth?_attachAll _ emptyBuilder (Builder.leaves .sequence items)
      (by rwa [Builder.map_fst_leaves])
    rw [show emptyBuilder.lastDepth? = none from rfl, Option.or_none, Builder.map_fst_leaves] at hlast
    have hdeep : ¬depth ≤ (emptyBuilder.attachAll (Builder.leaves .sequence items)).branch.length := by
      rw [Builder.length_branch_eq, hlast]
      exact Nat.not_le.2 hd
    rw [readLines, he, List.map_append, build_of_tell ht hfits, Nat.zero_add, List.map_cons, entries,
      readLine_of_shows hs]
    simp only [build, Builder.pushAt_eq, if_neg hdeep, hlast]

/-! ## Texts -/

/-- The bytes of a text are read as the text. -/
theorem readBytes_encode (layout : Layout) (text : String) :
    (readBytes layout (Text.encode text) : Except ReadFault Tree) = readText layout text := by
  rw [readBytes, linesOfBytes_encode, readText]

/-- The depths of a walk are well nested. -/
theorem wellNested_walk {V : Type} (tree : Node V) :
    WellNested ((tree.walk.map Visit.listed).map Prod.fst) := by
  rw [List.map_map]
  exact wellNested_iff.2 (Builder.fits_walk tree)

/-- Lines that tell the walk of a parse tree are read as this tree. -/
theorem readLines_of_tell_walk {tree : Tree} (h : tree.IsParseTree)
    (ht : Tell lines (tree.walk.map Visit.listed)) :
    readLines .sequence 0 (lines.map some) = .ok tree := by
  have hfits : Builder.Fits emptyBuilder.branch.length
      ((tree.walk.map Visit.listed).map Prod.fst) := wellNested_iff.1 (wellNested_walk tree)
  have hroot : emptyBuilder = .start (.leaf tree.label tree.value .sequence) := by
    rw [h.label, h.value]
    rfl
  have hbuild := build_of_tell ht hfits 0 []
  rw [List.append_nil, hroot] at hbuild
  rw [readLines, ← emptyBuilder, hroot, hbuild]
  exact congrArg Except.ok (Builder.finish_attachAll_listed h.sequential)

/-- A tree is read from lines that tell its walk. -/
theorem tell_of_readLines {tree : Tree}
    (h : readLines .sequence 0 (lines.map some) = .ok tree) :
    tree.IsParseTree ∧ Tell lines (tree.walk.map Visit.listed) := by
  rcases tell_or_firstFault lines with ⟨items, ht, hn⟩ | ⟨fault, hfault⟩
  · obtain ⟨other, ho, hparse, hlisted⟩ := readLines_of_tell ht hn
    rw [h, Except.ok.injEq] at ho
    subst ho
    exact ⟨hparse, hlisted ▸ ht⟩
  · rw [readLines_of_firstFault hfault] at h
    cases h

/-- A text is read as a tree whose walk its lines tell. -/
theorem tell_of_readTree {text : String} {tree : Tree} (h : readTree text = .ok tree) :
    tree.IsParseTree ∧ Tell (Text.lines '\n' '\r' text.toList) (tree.walk.map Visit.listed) :=
  tell_of_readLines h

/-- What is reported is the first fault. -/
theorem firstFault_of_readLines {fault : ReadFault}
    (h : readLines .sequence 0 (lines.map some) = (.error fault : Except ReadFault Tree)) :
    FirstFault lines fault := by
  rcases tell_or_firstFault lines with ⟨items, ht, hn⟩ | ⟨other, hother⟩
  · obtain ⟨tree, htree, -⟩ := readLines_of_tell ht hn
    rw [h] at htree
    cases htree
  · rw [readLines_of_firstFault hother, Except.error.injEq] at h
    exact h ▸ hother

/-- A text has lines: each but the last is closed by a line feed, with or without one carriage return
in front. Its bytes are read as the text is. A tree is read exactly if it is a parse tree whose walk
lists the nodes that the lines tell of; some tree is read exactly if each line is blank or shows a
node, the first node has depth 0 and each other one is at most one level below the one before it.
What is refused is refused for the first line that is out of place, whatever follows it. -/
theorem readTree_exact (text : String) :
    readBytes .sequence (Text.encode text) = readTree text ∧
      ∃ lines, Text.HasLines '\n' '\r' text.toList lines ∧
        (∀ tree, readTree text = .ok tree ↔
          tree.IsParseTree ∧ Tell lines (tree.walk.map Visit.listed)) ∧
        ((∃ tree, readTree text = .ok tree) ↔
          ∃ items, Tell lines items ∧ WellNested (items.map Prod.fst)) ∧
        ∀ fault, readTree text = .error fault ↔ FirstFault lines fault := by
  refine ⟨readBytes_encode .sequence text, _, (Text.hasLines_iff (by decide)).2 rfl, ?_⟩
  generalize hlines : Text.lines '\n' '\r' text.toList = lines
  have hread : readTree text = readLines .sequence 0 (lines.map some) := by
    rw [← hlines]
    rfl
  rw [hread]
  refine ⟨fun tree => ⟨tell_of_readLines, fun ⟨hparse, ht⟩ => readLines_of_tell_walk hparse ht⟩,
    ⟨?_, ?_⟩, fun fault => ⟨firstFault_of_readLines, readLines_of_firstFault⟩⟩
  · rintro ⟨tree, htree⟩
    exact ⟨_, (tell_of_readLines htree).2, wellNested_walk tree⟩
  · rintro ⟨items, ht, hn⟩
    obtain ⟨tree, htree, -⟩ := readLines_of_tell ht hn
    exact ⟨tree, htree⟩

end Dump

end PathCensus
