import PathCensus.Proofs.Census.Rereading
import PathCensus.Proofs.Command.Counting
import PathCensus.Proofs.Dump.Extent
import PathCensus.Proofs.Files.Writing

/-!
# Queries to the census of a build

A build that succeeds has loaded every selected dump. What it wrote is read back as the mirror image of
its census, which answers every query alike. So a query to the file counts the selected trees that pass
the test.
-/

namespace PathCensus

/-! ## Saving and loading -/

/-- A text and its bytes are the same dump. -/
theorem Census.ofBytes_encode (text : String) : ofBytes (Text.encode text) = ofText text := by
  rw [ofBytes, Dump.linesOfBytes_encode, ofText]

/-- A census that was saved is loaded from the same location as its mirror image, if numerals can
name all that is counted in it. -/
theorem Workspace.loadCensus_saveCensus {workspace after : Workspace} {location : String}
    {census : Census} (hw : census.WellFormed) (hn : census.Nameable)
    (h : workspace.saveCensus location census = (after, none)) :
    after.loadCensus location = .ok census.mirrored := by
  simp only [saveCensus, save] at h
  cases hr : census.render with
  | error fault => simp [hr] at h
  | ok text =>
    simp only [hr, Prod.mk.injEq, Option.map_eq_none_iff] at h
    obtain ⟨rfl, hnone⟩ := h
    have hwrite : workspace.store.writeFile workspace.place location (Text.encode text) =
        ((workspace.store.writeFile workspace.place location (Text.encode text)).1, none) :=
      Prod.ext rfl hnone
    have hbytes := Store.readBytes_writeFile hwrite
    have hread := (hw.ofText_render hr).2 ⟨rfl, hn⟩
    simp only [loadCensus, load, hbytes, Census.ofBytes_encode, hread, Except.mapError]

namespace Census

/-- What agrees with a census of trees counts their canonical paths, so numerals can name its counts
if they can name the number of trees and all these numbers. -/
theorem Agrees.nameable {V : Type} {census : Census} {trees : List (Node V)}
    (h : census.Agrees (empty.addTrees trees)) (hw : census.WellFormed)
    (htrees : trees.length < Text.numeralLimit)
    (hpaths : ∀ tree ∈ trees, ∀ labels, labels ≠ [] →
      tree.prefixCount labels < Text.numeralLimit) : census.Nameable := by
  have hcount : census.treeCount < Text.numeralLimit := by
    rw [h.treeCount, treeCount_addTrees]
    exact Nat.lt_of_le_of_lt (Nat.le_of_eq (Nat.zero_add _)) htrees
  refine ⟨hcount, Node.everywhere_below_of_chains fun above node hc => ?_⟩
  rintro ⟨tree, count⟩ hp
  have hentry : node.value.count? tree = some count := Counts.count?_eq_some_iff.2 hp
  have hnode : node.Everywhere fun n => n.value.IdsBelow census.treeCount :=
    hw.ids.of_mem_chain hc (by simp)
  refine ⟨Nat.lt_trans (hnode.here tree count hentry) hcount, ?_⟩
  have hne : Node.labels (above ++ [node]) ≠ [] := by simp [Node.labels]
  have hplace : census.countsAt? (Node.labels (above ++ [node])) = some node.value := by
    rw [countsAt?_eq, find?, hw.keyed.descend?_of_mem_chains hc, List.getLast?_concat]
    rfl
  rw [h.countsAt _ hne, countsAt?_empty_addTrees trees hne] at hplace
  have htallies := countIn_tallies (Node.labels (above ++ [node])) 0 trees tree
  rw [hplace, Nat.zero_add, countIn_some, Counts.get_eq, hentry, Option.getD_some] at htallies
  cases ht : trees[tree]? with
  | none =>
    rw [ht, Option.elim_none] at htallies
    exact htallies ▸ (by decide : 0 < Text.numeralLimit)
  | some found =>
    rw [ht, Option.elim_some] at htallies
    exact htallies ▸ hpaths found (List.mem_of_getElem? ht) _ hne

end Census

namespace Command

variable {services : Services} {workspace : Workspace} {arguments : List String}
  {options : BuildOptions} {normalize : Bool} {dumps : List String} {trees : List Tree}

/-! ## What a build counts -/

/-- A tree of a dump has no more canonical paths than the file has bytes. -/
theorem Loads.length_canonicalPaths_le {dump : String} {tree : Tree}
    (h : Loads workspace normalize dump tree) :
    ∃ bytes, workspace.store.readBytes workspace.place dump = .ok bytes ∧
      tree.canonicalPaths.length ≤ bytes.length := by
  obtain ⟨bytes, read, hbytes, hread, rfl⟩ := h
  have hextent := Dump.extentBelow_le_of_readBytes hread
  have hrename := Literals.extentBelow_normalize_le read
  refine ⟨bytes, hbytes, Nat.le_trans (Node.length_canonicalPaths_le _) ?_⟩
  split <;> omega

/-- Numerals can name the counts of trees of dumps if they can name the number of dumps and the sizes
of their files. -/
theorem nameable_of_loads (h : List.Forall₂ (Loads workspace normalize) dumps trees)
    (hfew : dumps.length < Text.numeralLimit)
    (hsmall : ∀ dump ∈ dumps, ∀ bytes,
      workspace.store.readBytes workspace.place dump = .ok bytes →
        bytes.length < Text.numeralLimit)
    {census : Census} (hw : census.WellFormed)
    (hagrees : census.Agrees (Census.empty.addTrees trees)) : census.Nameable := by
  refine hagrees.nameable hw (h.length_eq ▸ hfew) fun tree ht labels _ => ?_
  obtain ⟨i, hi, rfl⟩ := List.getElem_of_mem ht
  have hi' : i < dumps.length := h.length_eq ▸ hi
  obtain ⟨bytes, hbytes, hle⟩ := (h.get hi' hi).length_canonicalPaths_le
  have hlt := hsmall dumps[i] (List.getElem_mem hi') bytes hbytes
  exact Nat.lt_of_le_of_lt (Nat.le_trans (Node.prefixCount_le _ labels) hle) hlt

/-- A build without restructuring that has trees and ends well leaves a file from which a census is
loaded that agrees with the census of its trees, added in turn. -/
theorem exists_census_of_build (hreduces : ReducesAll services.reduce)
    (hread : services.readArguments arguments = .ok (.buildCensus options))
    (hplain : options.restructure = none)
    (hgather : gatherTrees services workspace options = .ok trees) (hne : trees ≠ [])
    (hexit : (invoke services workspace arguments).exitCode = 0)
    (hname : ∀ census : Census, census.WellFormed →
      census.Agrees (Census.empty.addTrees trees) → census.Nameable) :
    ∃ census,
      (invoke services workspace arguments).workspace.loadCensus options.output = .ok census ∧
      census.WellFormed ∧ census.Agrees (Census.empty.addTrees trees) := by
  obtain ⟨hfailure, hworkspace⟩ := invoke_buildCensus workspace hread
  rw [exitCode_eq_zero_iff hread, hfailure] at hexit
  have hsave := saveCensus_of_runBuild hgather hne hexit
  obtain ⟨hwell, hagrees⟩ := censusOf_agrees hreduces options trees
  rw [hplain] at hagrees
  have hload := Workspace.loadCensus_saveCensus hwell (hname _ hwell hagrees) hsave
  rw [hworkspace]
  exact ⟨_, hload, hwell.mirrored, hwell.agrees_mirrored.symm.trans hagrees⟩

/-! ## What a query does -/

/-- Where censuses that agree are loaded, a query prints the same and ends with the same code. -/
theorem invoke_countTrees_eq {other : Services} {first second : Workspace} {file : String}
    {paths : List String} {activation : String} {a b : Census}
    (h : services.readArguments arguments = .ok (.countTrees file paths activation))
    (hother : other.readArguments arguments = .ok (.countTrees file paths activation))
    (hfirst : first.loadCensus file = .ok a) (hsecond : second.loadCensus file = .ok b)
    (hab : a.Agrees b) (ha : a.WellFormed) (hb : b.WellFormed) :
    (invoke services first arguments).exitCode = (invoke other second arguments).exitCode ∧
      (invoke services first arguments).output = (invoke other second arguments).output := by
  have hsame : (run services first (.countTrees file paths activation)).printed =
        (run other second (.countTrees file paths activation)).printed ∧
      (run services first (.countTrees file paths activation)).failure =
        (run other second (.countTrees file paths activation)).failure := by
    simp only [run, runQuery]
    cases Activation.parse activation with
    | error e => exact ⟨rfl, rfl⟩
    | ok condition =>
      cases hv : condition.validate paths.length with
      | error beyond => simp only [hv]; exact ⟨rfl, rfl⟩
      | ok _ =>
        simp only [hv, hfirst, hsecond, hab.query_eq ha hb]
        exact ⟨rfl, rfl⟩
  rw [invoke_eq h, invoke_eq hother]
  simp only [Outcome.output, hsame, and_self]

/-- A query to a file from which a census is loaded prints the number of trees that pass the test. -/
theorem invoke_countTrees {file : String} {paths : List String} {text : String}
    {activation : Activation} {census : Census}
    (h : services.readArguments arguments = .ok (.countTrees file paths text))
    (hparse : Activation.parse text = .ok activation)
    (hvalid : activation.validate paths.length = .ok ())
    (hload : workspace.loadCensus file = .ok census) :
    (invoke services workspace arguments).exitCode = 0 ∧
      (invoke services workspace arguments).output =
        (census.query (paths.map readPath) fun counts => activation.eval counts).repr ++ "\n" := by
  have hrun : run services workspace (.countTrees file paths text) = .print workspace
      [(census.query (paths.map readPath) fun counts => activation.eval counts).repr] := by
    simp only [run, runQuery, hparse, hvalid, hload]
  rw [invoke_eq h, hrun]
  exact ⟨rfl, by simp [Outcome.output, Outcome.print]⟩

/-- A directory with two dumps, of which the configuration allows one, and has its literals renamed:
there A and a literal follow each other twice. -/
def loopWorkspace : Workspace :=
  ⟨⟨.full, [(["treecount.toml"], .file (Text.encode "[data]\nlimit = 1\nnormalize = true\n") .readOnly),
    (["data"], .directory .readOnly),
    (["data", "a.txt"], .file (Text.encode "A\n| 'x'\n| | A\n| | | 'x'\n") .readOnly),
    (["data", "b.txt"], .file (Text.encode "A\n") .closed)]⟩, []⟩

/-- The tree of the first dump. -/
def renamedLoop : Tree :=
  ⟨Node.rootLabel, none, .sequence, [⟨"A", none, .sequence, [⟨"ValueStr", some "x", .sequence,
    [⟨"A", none, .sequence, [.leaf "ValueStr" (some "x") .sequence]⟩]⟩]⟩]⟩

end Command

end PathCensus
