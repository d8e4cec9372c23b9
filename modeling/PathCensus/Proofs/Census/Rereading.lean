import PathCensus.Proofs.Census.Querying
import PathCensus.Proofs.Counts.Text

/-!
# Censuses from their dumps

The dump of a census is read as the same census with the children of every node in reverse, provided
that numerals can name its number of trees and all trees and counts in it. Otherwise the dump is
refused: a header that gives no number of trees is taken for a node, and its value for counts.
-/

namespace PathCensus.Census

/-- The census with the children of every node in reverse. -/
def mirrored (census : Census) : Census :=
  { census with root := census.root.rebuilt .keyed id }

/-- Numerals can name the number of trees and all trees and counts below the root. -/
structure Nameable (census : Census) : Prop where
  /-- A numeral can name the number of trees. -/
  treeCount : census.treeCount < Text.numeralLimit
  /-- Numerals can name all trees and counts. -/
  counts : ∀ c ∈ census.root.children, c.Everywhere fun node => node.value.Nameable

/-- A census agrees with its mirror image. -/
theorem WellFormed.agrees_mirrored {census : Census} (h : census.WellFormed) :
    census.Agrees census.mirrored := by
  refine ⟨rfl, fun labels _ => ?_⟩
  rw [countsAt?, countsAt?, mirrored, h.keyed.valueAt?_rebuilt, Option.map_id, id]

theorem WellFormed.mirrored {census : Census} (h : census.WellFormed) :
    census.mirrored.WellFormed := by
  refine ⟨?_, ?_, h.keyed.rebuilt id, h.ids.rebuilt fun n hn => ?_⟩
  · exact (Node.rebuilt_label _ _ _).trans h.root_label
  · exact (Node.rebuilt_value _ _ _).trans h.root_value
  · rwa [Node.rebuilt_value]

/-- No more trees are needed for the mirror image. -/
theorem WellFormed.leastTreeCount_mirrored {census : Census} (h : census.WellFormed) :
    leastTreeCount census.mirrored.root ≤ census.treeCount :=
  leastTreeCount_le_iff.2 fun _ hc => h.mirrored.ids.child hc

/-! ## The header -/

/-- The header of a number of trees, without its ending. -/
def headerLine (treeCount : Nat) : List Char :=
  Dump.lineOf 0 Node.rootLabel treeCount.repr

theorem header_toList (treeCount : Nat) :
    (header treeCount).toList = headerLine treeCount ++ ['\n'] := by
  simp [header, headerLine, Dump.lineOf, Dump.indentChars]

/-- No ending stands within the header. -/
theorem notMem_headerLine (treeCount : Nat) :
    '\n' ∉ headerLine treeCount ∧ '\r' ∉ headerLine treeCount := by
  have hvalue : Dump.isWritableValue treeCount.repr = true :=
    Dump.isWritableValue_iff.2 ⟨Text.notMem_repr (by decide), Text.notMem_repr (by decide)⟩
  have hnot : ∀ c, c = '\n' ∨ c = '\r' → c ∉ headerLine treeCount :=
    fun c hc => Dump.notMem_lineOf (by decide) hvalue hc
  exact ⟨hnot '\n' (.inl rfl), hnot '\r' (.inr rfl)⟩

/-- The header is the first line of a dump. -/
theorem linesOfText_header (treeCount : Nat) (rest : List Char) :
    Dump.linesOfText ((header treeCount).toList ++ rest) =
      some (headerLine treeCount) :: Dump.linesOfText rest := by
  obtain ⟨hfeed, hreturn⟩ := notMem_headerLine treeCount
  have hlast : (headerLine treeCount).getLast? ≠ some '\r' :=
    fun he => hreturn (List.mem_of_getLast? he)
  rw [Dump.linesOfText, header_toList, List.append_assoc, List.singleton_append,
    Text.lines_append_ending hfeed hlast]
  rfl

/-- A beginning can be dropped exactly from the texts that start with it. -/
theorem dropBeginning?_eq_some_iff {beginning text rest : List Char} :
    dropBeginning? beginning text = some rest ↔ text = beginning ++ rest := by
  induction beginning generalizing text with
  | nil => exact Option.some_inj
  | cons c more ih =>
    cases text with
    | nil => exact iff_of_false nofun nofun
    | cons d text =>
      rw [dropBeginning?, List.cons_append, List.cons.injEq]
      by_cases hc : c = d
      · rw [if_pos hc, ih, and_iff_right hc.symm]
      · rw [if_neg hc]
        exact iff_of_false nofun fun h => hc h.1.symm

/-- The header gives its number of trees if a numeral can name it, and nothing otherwise. -/
theorem readHeader?_headerLine (treeCount : Nat) :
    readHeader? (headerLine treeCount) =
      if treeCount < Text.numeralLimit then some treeCount else none := by
  have hline : headerLine treeCount =
      Node.rootLabel.toList ++ [' '] ++ treeCount.repr.toList := by
    simp [headerLine, Dump.lineOf, Dump.indentChars]
  have htrim : Text.trimEnd (headerLine treeCount) = headerLine treeCount := by
    refine Text.trimEnd_of_last fun c hc => ?_
    obtain ⟨front, last, hrepr⟩ :=
      (List.eq_nil_or_concat treeCount.repr.toList).resolve_left (Text.repr_toList_ne_nil treeCount)
    have hlast : c = last := by
      rw [hline, hrepr, List.concat_eq_append, ← List.append_assoc, List.getLast?_concat,
        Option.mem_some_iff] at hc
      exact hc.symm
    have hmem : c ∈ treeCount.repr.toList := by
      rw [hrepr, hlast]
      simp
    exact Text.isBlank_of_isDigit (Text.isDigit_of_mem_repr hmem)
  rw [readHeader?, htrim, hline, dropBeginning?_eq_some_iff.2 rfl]
  simp only [Text.readNumeral_repr]
  split <;> rfl

/-- A header that is taken for a node is refused. -/
theorem readLine_headerLine (treeCount : Nat) :
    Dump.readLine (V := Counts) 1 (headerLine treeCount) =
      .error (.value (.noColon treeCount.repr)) := by
  have hread : Counts.read treeCount.repr.toList = .error (.noColon treeCount.repr) := by
    have h := Counts.read_of_trim (Text.trim_repr treeCount) (Text.repr_toList_ne_nil treeCount)
      (Text.notMem_repr (by decide)) (Text.notMem_repr (by decide))
    rwa [String.ofList_toList] at h
  rw [headerLine, Dump.readLine_lineOf (by decide)]
  have hpayload : (Payload.read treeCount.repr.toList : Except CountsFault Counts) =
      .error (.noColon treeCount.repr) := hread
  rw [hpayload]

/-! ## The whole dump -/

/-- What is written for a census is its header and the lines of its nodes. -/
theorem render_eq_ok {census : Census} {text : String} (h : census.render = .ok text) :
    ∃ texts, Dump.renderVisits census.root.walk = .ok texts ∧
      text.toList = (header census.treeCount).toList ++ texts.flatMap String.toList := by
  rw [render] at h
  cases hr : Dump.render census.root with
  | error fault => simp [hr, Except.map] at h
  | ok below =>
    obtain ⟨texts, htexts, hbelow⟩ := Dump.render_eq_ok hr
    simp only [hr, Except.map, Except.ok.injEq] at h
    exact ⟨texts, htexts, by rw [← h, String.toList_append, hbelow]⟩

/-- If numerals can name all counts, the lines of the nodes are read as the mirror image. -/
theorem WellFormed.readLines_renderVisits {census : Census} (h : census.WellFormed)
    {texts : List String} (hr : Dump.renderVisits census.root.walk = .ok texts)
    (hall : ∀ c ∈ census.root.children, c.Everywhere fun node => node.value.Nameable) :
    Dump.readLines .keyed 1 (Dump.linesOfText (texts.flatMap String.toList)) =
      .ok census.mirrored.root := by
  have hread : ∀ visit ∈ census.root.walk,
      Payload.read (Payload.render visit.node.value).toList = .ok (id visit.node.value) := by
    intro visit hv
    exact Counts.read_render.2 ⟨rfl, Node.everywhere_below_iff_walk.1 hall visit hv⟩
  have hapart : census.root.Everywhere (·.Apart .keyed) := h.keyed.mono fun _ hk => hk.apart .keyed
  have hfits : Builder.Fits (Builder.start (.root Payload.blank .keyed)
      (V := Counts)).branch.length (census.root.walk.map Visit.depth) :=
    Builder.fits_walk census.root
  rw [Dump.readLines, Dump.build_entries hr hread hfits 1]
  refine congrArg Except.ok ?_
  refine (Builder.finish_attachAll_walk hapart Node.rootLabel ∅).trans ?_
  rw [Census.mirrored, Node.rebuilt_eq, h.root_label, h.root_value, id]

/-- Behind a header that a numeral can name, the lines of the nodes are read. -/
theorem ofText_of_lt {text : String} {treeCount : Nat} {below : List Char}
    (htext : text.toList = (header treeCount).toList ++ below)
    (hn : treeCount < Text.numeralLimit) :
    ofText text = (Dump.readLines .keyed 1 (Dump.linesOfText below)).map fun root =>
      ⟨root, max treeCount (leastTreeCount root)⟩ := by
  rw [ofText, htext, linesOfText_header, Census.ofLines, splitHeader?, readHeader?_headerLine,
    if_pos hn]
  rfl

/-- A header that no numeral can name is taken for a node, and the text is refused. -/
theorem ofText_of_not_lt {text : String} {treeCount : Nat} {below : List Char}
    (htext : text.toList = (header treeCount).toList ++ below)
    (hn : ¬ treeCount < Text.numeralLimit) : ∃ fault, ofText text = .error fault := by
  rw [ofText, htext, linesOfText_header, Census.ofLines, splitHeader?, readHeader?_headerLine,
    if_neg hn, Option.map_none, Dump.readLines, Dump.entries, readLine_headerLine]
  exact ⟨_, rfl⟩

/-- The dump of a census is read as its mirror image, exactly if numerals can name all that is
counted in it. -/
theorem WellFormed.ofText_render {census : Census} (h : census.WellFormed) {text : String}
    (hr : census.render = .ok text) {other : Census} :
    ofText text = .ok other ↔ other = census.mirrored ∧ census.Nameable := by
  obtain ⟨texts, htexts, htext⟩ := render_eq_ok hr
  by_cases hn : census.treeCount < Text.numeralLimit
  · have hlines := ofText_of_lt htext hn
    have hread : ∀ hall : (∀ c ∈ census.root.children, c.Everywhere fun n => n.value.Nameable),
        ofText text = .ok census.mirrored := by
      intro hall
      rw [hlines, h.readLines_renderVisits htexts hall, Except.map,
        Nat.max_eq_left h.leastTreeCount_mirrored]
      rfl
    constructor
    · intro ho
      have hall : ∀ c ∈ census.root.children, c.Everywhere fun n => n.value.Nameable := by
        rw [hlines] at ho
        cases hb : (Dump.readLines .keyed 1 (Dump.linesOfText (texts.flatMap String.toList)) :
            Except Dump.ReadFault (Node Counts)) with
        | error fault => simp [hb, Except.map] at ho
        | ok root =>
          rw [Node.everywhere_below_iff_walk]
          intro visit hv
          obtain ⟨value, hvalue⟩ := Dump.exists_read_of_build htexts hb visit hv
          exact (Counts.read_render.1 hvalue).2
      rw [hread hall, Except.ok.injEq] at ho
      exact ⟨ho.symm, hn, hall⟩
    · rintro ⟨rfl, hname⟩
      exact hread hname.counts
  · obtain ⟨fault, herror⟩ := ofText_of_not_lt htext hn
    constructor
    · intro ho
      rw [herror] at ho
      cases ho
    · rintro ⟨-, hname⟩
      exact absurd hname.treeCount hn

end PathCensus.Census
