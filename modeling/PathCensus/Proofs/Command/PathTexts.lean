import PathCensus.Proofs.Census.Inclusion
import PathCensus.Proofs.Command.Gathering
import PathCensus.Proofs.Command.Services
import PathCensus.Proofs.Text.Lines
import PathCensus.Proofs.Text.Numeral
import PathCensus.Proofs.Tree.Addressing

/-!
# What path texts can name

A label may hold a slash, and white space may stand at its ends, so not every printed path is read
back. The labels that come of a text are plain, and a list of labels is read back from its text exactly
if all of them are. Nodes with unlike labels on the way stand at unlike addresses, so a printed line
leads to the node that it was printed for exactly if its labels are plain.
-/

namespace PathCensus

/-- A label that a path text can name: it has a character, white space at neither end and no slash. -/
structure PlainLabel (label : String) : Prop where
  /-- There is a character. -/
  ne_nil : label.toList ≠ []
  /-- The first one is not white space. -/
  head : ∀ c ∈ label.toList.head?, Text.isBlank c = false
  /-- The last one is not white space. -/
  last : ∀ c ∈ label.toList.getLast?, Text.isBlank c = false
  /-- None is a slash. -/
  noSlash : '/' ∉ label.toList

theorem PlainLabel.trim_eq {label : String} (h : PlainLabel label) :
    Text.trim label.toList = label.toList :=
  Text.trim_eq_self_iff.2 ⟨h.head, h.last⟩

/-! ## Texts and labels -/

/-- The labels of a text are plain. -/
theorem plainLabel_of_mem_readPath {text label : String} (h : label ∈ readPath text) :
    PlainLabel label := by
  obtain ⟨letters, hkept, rfl⟩ := List.mem_map.1 h
  obtain ⟨htrimmed, hne⟩ := List.mem_filter.1 hkept
  obtain ⟨piece, hpiece, rfl⟩ := List.mem_map.1 htrimmed
  obtain ⟨hhead, hlast⟩ := Text.ends_trim piece
  constructor
  · intro hnil
    rw [String.toList_ofList] at hnil
    rw [hnil] at hne
    cases hne
  · rwa [String.toList_ofList]
  · rwa [String.toList_ofList]
  · intro hslash
    rw [String.toList_ofList] at hslash
    exact Text.notMem_of_mem_pieces hpiece (Text.mem_of_mem_trim hslash)

/-- Plain labels are read back from their text. -/
theorem readPath_renderPath {labels : List String} (h : ∀ label ∈ labels, PlainLabel label) :
    readPath (renderPath labels) = labels := by
  by_cases hempty : labels = []
  · subst hempty
    rfl
  have hletters : (renderPath labels).toList = ['/'].intercalate (labels.map String.toList) := by
    rw [renderPath, String.toList_intercalate]
    rfl
  have hpieces : Text.pieces '/' (renderPath labels).toList = labels.map String.toList := by
    rw [hletters]
    apply Text.pieces_intercalate
    · simpa using hempty
    · exact List.forall_mem_map.2 fun label hl => (h label hl).noSlash
  have htrim : (labels.map String.toList).map Text.trim = labels.map String.toList := by
    rw [List.map_map]
    exact List.map_congr_left fun label hl => (h label hl).trim_eq
  have hkept : (labels.map String.toList).filter (fun letters => !letters.isEmpty) =
      labels.map String.toList := by
    rw [List.filter_eq_self, List.forall_mem_map]
    intro label hl
    simpa using (h label hl).ne_nil
  rw [readPath, hpieces, htrim, hkept, List.map_map]
  have hback : String.ofList ∘ String.toList = id := funext fun _ => String.ofList_toList
  rw [hback, List.map_id]

/-- Labels are read back from their text exactly if they are plain. -/
theorem readPath_renderPath_iff {labels : List String} :
    readPath (renderPath labels) = labels ↔ ∀ label ∈ labels, PlainLabel label := by
  constructor
  · intro h label hl
    rw [← h] at hl
    exact plainLabel_of_mem_readPath hl
  · exact readPath_renderPath

namespace Census

/-- A text leads to the address of labels exactly if it is read as these labels. -/
theorem address?_readPath_iff {census : Census} {labels : List String} {address : List Nat}
    (h : census.root.address? labels = some address) {text : String} :
    census.root.address? (readPath text) = some address ↔ readPath text = labels := by
  constructor
  · exact fun ht => Node.address?_inj ht h
  · rintro rfl
    exact h

end Census

namespace Command

/-- The lines that a request for paths prints. -/
theorem printed_listPaths (services : Services) {workspace : Workspace} {file : String}
    {normalize : Bool} {tree : Tree} (h : loadTree workspace normalize file = .ok tree) :
    (run services workspace (.listPaths file false normalize)).printed =
      tree.canonicalPaths.map renderPath := by
  simp only [run, runPaths, h, Outcome.print, Bool.false_eq_true, if_false]

/-- The census of a build without restructuring includes all its trees. -/
theorem includes_censusOf {services : Services} (hreduce : ReducesAll services.reduce)
    {options : BuildOptions} (h : options.restructure = none) {trees : List Tree} {tree : Tree}
    (ht : tree ∈ trees) : Census.Includes tree (censusOf services options trees) := by
  rw [censusOf, h]
  cases options.parallel with
  | true =>
    obtain ⟨order, hperm, hreduced⟩ :=
      hreduce Census.merge Census.empty (trees.mapIdx Census.ofTree)
    exact hreduced.combined.includes_of_mem hperm ht
  | false => exact Census.includes_addTrees (.ofTreeCount 0) ht

/-- The census that a build counts includes the tree of each of its dumps. -/
theorem exists_includes_of_countDumps {services : Services} (hreduce : ReducesAll services.reduce)
    {workspace : Workspace} {parallel normalize : Bool} {dumps : List String} {census : Census}
    (h : countDumps services workspace parallel normalize dumps = .ok census) {dump : String}
    (hd : dump ∈ dumps) :
    ∃ tree, loadTree workspace normalize dump = .ok tree ∧ Census.Includes tree census := by
  rw [countDumps_eq] at h
  cases hload : loadTrees workspace normalize dumps with
  | error failure => simp [hload, Except.map] at h
  | ok trees =>
    simp only [hload, Except.map, Except.ok.injEq] at h
    obtain ⟨i, hi, rfl⟩ := List.getElem_of_mem hd
    have hloads := forall₂_of_loadTrees hload
    have hi' : i < trees.length := hloads.length_eq ▸ hi
    have hincludes := @includes_censusOf services hreduce ⟨"", none, parallel, none, none⟩ rfl trees
      trees[i] (List.getElem_mem hi')
    rw [censusOf, restructureAt, h] at hincludes
    exact ⟨trees[i], loadTree_eq_ok_iff.2 (hloads.get hi hi'), hincludes⟩

/-- Labels are read back from the text of their path exactly if each has a character, white space at
neither end and no slash, and what is read from a text is read back from its own text. So in every
census that includes a tree, as that of a build does, each canonical path of the tree ends at an
address, and the line that is printed for the path leads to this address exactly if its labels are of
this kind. What a path finds is what stands at its address. -/
theorem path_texts_exact :
    (∀ labels, readPath (renderPath labels) = labels ↔ ∀ label ∈ labels, PlainLabel label) ∧
      (∀ text, readPath (renderPath (readPath text)) = readPath text) ∧
      (∀ {V : Type} {tree : Node V} {census : Census}, Census.Includes tree census →
        (∀ labels, census.find? labels =
          (census.root.address? labels).bind census.root.at?) ∧
        ∀ path ∈ tree.canonicalPaths, ∃ address node,
          census.root.address? path = some address ∧ census.find? path = some node ∧
          (census.root.address? (readPath (renderPath path)) = some address ↔
            ∀ label ∈ path, PlainLabel label)) ∧
      (∀ services : Services, ReducesAll services.reduce →
        ∀ (options : BuildOptions) (trees : List Tree), options.restructure = none →
          ∀ tree ∈ trees, Census.Includes tree (censusOf services options trees)) ∧
      (∀ services : Services, ReducesAll services.reduce →
        ∀ (workspace : Workspace) (parallel normalize : Bool) (dumps : List String)
          (census : Census), countDumps services workspace parallel normalize dumps = .ok census →
          ∀ dump ∈ dumps, ∃ tree, loadTree workspace normalize dump = .ok tree ∧
            Census.Includes tree census) ∧
      ∀ (services : Services) (workspace : Workspace) (file : String) (normalize : Bool) (tree : Tree),
        loadTree workspace normalize file = .ok tree →
        (run services workspace (.listPaths file false normalize)).printed =
          tree.canonicalPaths.map renderPath := by
  refine ⟨fun _ => readPath_renderPath_iff, fun text => ?_, fun {V tree census} h => ?_,
    fun _ hreduce _ _ hplain _ => includes_censusOf hreduce hplain,
    fun _ hreduce _ _ _ _ _ hcount _ => exists_includes_of_countDumps hreduce hcount,
    fun services _ _ _ _ => printed_listPaths services⟩
  · exact readPath_renderPath fun _ => plainLabel_of_mem_readPath
  · have hfound : ∀ labels, census.find? labels =
        (census.root.address? labels).bind census.root.at? :=
      Node.descend?_eq_bind_at? census.root
    refine ⟨hfound, fun path hp => ?_⟩
    obtain ⟨node, hnode⟩ := Option.isSome_iff_exists.1 (h.isSome_find? hp)
    have hplace := hnode
    rw [hfound, Option.bind_eq_some_iff] at hplace
    obtain ⟨address, haddress, -⟩ := hplace
    refine ⟨address, node, haddress, hnode, ?_⟩
    rw [Census.address?_readPath_iff haddress, readPath_renderPath_iff]

/-- A directory with one dump, in which C stands below a label that holds a slash, and below the two
labels on its sides. -/
def slashWorkspace : Workspace :=
  ⟨⟨.full, [(["slash.txt"], .file (Text.encode "A/B\n| C\nA\n| B\n| | C\n") .full)]⟩, []⟩

/-- The tree in the dump. -/
def slashTree : Tree :=
  ⟨Node.rootLabel, none, .sequence, [⟨"A/B", none, .sequence, [.leaf "C" none .sequence]⟩,
    ⟨"A", none, .sequence, [⟨"B", none, .sequence, [.leaf "C" none .sequence]⟩]⟩]⟩

/-- One line is printed for both paths. In a census of this and another tree it leads to the node of
the path with three labels, and so not to that of the path with the slash, though both nodes are
alike. -/
theorem path_texts_exact_slash :
    censusOf .standard ⟨"structure.txt", none, true, none, none⟩ [Census.loopTree, slashTree] =
        Census.ofParts [Census.loopTree, slashTree] ∧
      (run .standard slashWorkspace (.listPaths "slash.txt" false false)).printed = ["A/B/C", "A/B/C"] ∧
      slashTree.canonicalPaths = [["A/B", "C"], ["A", "B", "C"]] ∧
      ∃ first second node,
        (Census.ofParts [Census.loopTree, slashTree]).root.address? ["A", "B", "C"] = some first ∧
        (Census.ofParts [Census.loopTree, slashTree]).root.address? ["A/B", "C"] = some second ∧
        (Census.ofParts [Census.loopTree, slashTree]).root.address? (readPath "A/B/C") = some first ∧
        first ≠ second ∧
        (Census.ofParts [Census.loopTree, slashTree]).find? ["A", "B", "C"] = some node ∧
        (Census.ofParts [Census.loopTree, slashTree]).find? ["A/B", "C"] = some node := by
  have hload : loadTree slashWorkspace false "slash.txt" = .ok slashTree := by decide +kernel
  have hpaths : slashTree.canonicalPaths = [["A/B", "C"], ["A", "B", "C"]] := by decide +kernel
  have hbuild : censusOf .standard ⟨"structure.txt", none, true, none, none⟩
      [Census.loopTree, slashTree] = Census.ofParts [Census.loopTree, slashTree] := rfl
  obtain ⟨-, -, hlines, hbuilt, -, hprinted⟩ := path_texts_exact
  have hincludes := hbuilt .standard Services.reliable_standard.reducesAll
    ⟨"structure.txt", none, true, none, none⟩ [Census.loopTree, slashTree] rfl slashTree (by simp)
  rw [hbuild] at hincludes
  have hlines := (hlines hincludes).2
  obtain ⟨first, node, hfirst, hnode, hplain⟩ := hlines ["A", "B", "C"] (by simp [hpaths])
  obtain ⟨second, other, hsecond, hother, hslash⟩ := hlines ["A/B", "C"] (by simp [hpaths])
  have hprint := hprinted .standard slashWorkspace "slash.txt" false slashTree hload
  rw [hpaths] at hprint
  have hread : readPath "A/B/C" = ["A", "B", "C"] := by decide +kernel
  have hletters : ∀ label ∈ ["A", "B", "C"], PlainLabel label := by
    intro label hl
    rw [← hread] at hl
    exact plainLabel_of_mem_readPath hl
  have hleads := hplain.2 hletters
  have hmisses : ¬∀ label ∈ ["A/B", "C"], PlainLabel label := by
    intro hall
    exact (hall "A/B" (by simp)).noSlash (by decide)
  have hsame : (Census.ofParts [Census.loopTree, slashTree]).find? ["A", "B", "C"] =
      (Census.ofParts [Census.loopTree, slashTree]).find? ["A/B", "C"] := by decide +kernel
  refine ⟨hbuild, hprint, hpaths, first, second, node, hfirst, hsecond, hleads, ?_, hnode, hsame ▸ hnode⟩
  rintro rfl
  exact hmisses (hslash.1 hleads)

end Command

end PathCensus
