import PathCensus.Proofs.Command.Counting

/-!
# Builds that fail

A build gathers all its trees before it writes, and has the text of their census before it opens a file.
What goes wrong until then changes nothing, and what goes wrong when the file is to be made leaves
directories at most. Both ways to count come after the gathering or report the same dump, and make
censuses that agree, so a build fails in both or in neither.
-/

namespace PathCensus

namespace Workspace

variable {workspace after : Workspace} {location : String} {text : Except Dump.WriteFault String}

/-- What cannot be saved leaves directories at most, and nothing if there is no text. -/
theorem gainsDirectories_save {fault : SaveFault}
    (h : workspace.save location text = (after, some fault)) :
    workspace.store.GainsDirectories after.store ∧ after.place = workspace.place ∧
      ((∀ e, fault ≠ .os e) → after = workspace) := by
  cases text with
  | error refused =>
    obtain ⟨rfl, -⟩ := Prod.mk.inj h
    exact ⟨.refl _, rfl, fun _ => rfl⟩
  | ok text =>
    rw [save] at h
    rcases hw : workspace.store.writeFile workspace.place location (Text.encode text) with
      ⟨store, _ | e⟩
    · simp [hw] at h
    · simp only [hw, Option.map_some, Prod.mk.injEq, Option.some.injEq] at h
      obtain ⟨rfl, rfl⟩ := h
      exact ⟨Store.gainsDirectories_writeFile hw, rfl, fun hos => absurd rfl (hos e)⟩

end Workspace

namespace Command

variable {services : Services} {workspace : Workspace} {arguments : List String}
  {options : BuildOptions} {normalize : Bool} {dumps : List String} {failure : Failure}

/-! ## What a failure leaves -/

/-- A build that fails keeps all files, and everything unless the system refuses to write. -/
theorem gainsDirectories_of_failure
    (h : (runBuild services workspace options).failure = some failure) :
    workspace.store.GainsDirectories (runBuild services workspace options).workspace.store ∧
      (runBuild services workspace options).workspace.place = workspace.place ∧
      ((∀ e, failure ≠ .save (.os e)) →
        (runBuild services workspace options).workspace = workspace) := by
  cases hg : gatherTrees services workspace options with
  | error found =>
    rw [(runBuild_of_error hg).2]
    exact ⟨.refl _, rfl, fun _ => rfl⟩
  | ok trees =>
    by_cases hempty : trees = []
    · subst hempty
      rw [(runBuild_of_nil hg).1] at h
      cases h
    · obtain ⟨hfailure, hworkspace⟩ := runBuild_of_ne_nil hg hempty
      rw [hfailure] at h
      obtain ⟨fault, hfault, rfl⟩ := Option.map_eq_some_iff.1 h
      obtain ⟨hgains, hplace, hsame⟩ := Workspace.gainsDirectories_save (Prod.ext rfl hfault)
      rw [hworkspace]
      exact ⟨hgains, hplace, fun hos => hsame fun e he => hos e (congrArg Failure.save he)⟩

/-! ## Dumps that cannot be loaded -/

/-- A build fails for a dump exactly if it is the first one that cannot be loaded. -/
theorem failure_eq_tree_iff {project : Project} (hproject : discover services workspace = .ok project)
    (hdumps : findDumps services workspace (buildProject options project) = .ok dumps)
    {dump : String} {fault : LoadFault} :
    (runBuild services workspace options).failure = some (.tree dump fault) ↔
      ∃ front rest, dumps = front ++ dump :: rest ∧
        (∀ other ∈ front, ∃ tree, Loads workspace project.normalize other tree) ∧
        CannotLoad workspace dump fault := by
  have hgather := gatherTrees_eq hproject hdumps
  have hreported : (runBuild services workspace options).failure = some (.tree dump fault) ↔
      gatherTrees services workspace options = .error (.tree dump fault) := by
    cases hg : gatherTrees services workspace options with
    | error failure => rw [(runBuild_of_error hg).1, Option.some.injEq, Except.error.injEq]
    | ok trees =>
      by_cases hempty : trees = []
      · subst hempty
        rw [(runBuild_of_nil hg).1]
        simp only [reduceCtorEq]
      · rw [(runBuild_of_ne_nil hg hempty).1]
        simp only [Option.map_eq_some_iff, reduceCtorEq, and_false, exists_false]
  rw [hreported, hgather, loadTrees_eq_error_iff]
  constructor
  · rintro ⟨front, found, rest, other, hsplit, hfront, hfault, hfailure⟩
    obtain ⟨rfl, rfl⟩ := Failure.tree.inj hfailure
    exact ⟨front, rest, hsplit, hfront, hfault⟩
  · rintro ⟨front, rest, hsplit, hfront, hfault⟩
    exact ⟨front, dump, rest, fault, hsplit, hfront, hfault, rfl⟩

/-- A build that ends with code 1 keeps every file, so that what could be read is read as before;
directories may be new, and nothing is if the system did not refuse to write. A build that counts in the
other way, or merges in another order and grouping, ends with the same code and for the same reason, but
for labels that cannot be written. A build ends because of a dump exactly if it is the first one in order
that cannot be loaded, because its file cannot be read or is malformed; it reports this dump with its
fault. -/
theorem failed_build_keeps_files (h : services.Reliable)
    (hread : services.readArguments arguments = .ok (.buildCensus options)) :
    ((invoke services workspace arguments).exitCode = 1 →
      workspace.store.GainsDirectories (invoke services workspace arguments).workspace.store ∧
        (invoke services workspace arguments).workspace.place = workspace.place ∧
        (∀ place bytes access,
          (invoke services workspace arguments).workspace.store.entry? place =
              some (.file bytes access) ↔
            workspace.store.entry? place = some (.file bytes access)) ∧
        (∀ location bytes, workspace.store.readBytes workspace.place location = .ok bytes →
          (invoke services workspace arguments).workspace.store.readBytes workspace.place location =
            .ok bytes) ∧
        ((∀ e, (invoke services workspace arguments).failure ≠ some (.save (.os e))) →
          (invoke services workspace arguments).workspace = workspace)) ∧
      (∀ reduce, ReducesAll reduce → ∀ parallel otherLine,
        services.readArguments otherLine = .ok (.buildCensus { options with parallel }) →
        (invoke { services with reduce } workspace otherLine).exitCode =
            (invoke services workspace arguments).exitCode ∧
          ((invoke { services with reduce } workspace otherLine).failure =
              (invoke services workspace arguments).failure ∨
            ∃ fault other,
              (invoke { services with reduce } workspace otherLine).failure =
                some (.save (.dump fault)) ∧
              (invoke services workspace arguments).failure = some (.save (.dump other)))) ∧
      ∀ dumps normalize, Reads services workspace options dumps normalize → ∀ dump fault,
        ((invoke services workspace arguments).exitCode = 1 ∧
            (invoke services workspace arguments).failure = some (.tree dump fault)) ↔
          ∃ front rest, dumps = front ++ dump :: rest ∧
            (∀ other ∈ front, ∃ tree, Loads workspace normalize other tree) ∧
            CannotLoad workspace dump fault := by
  obtain ⟨hfailure, hworkspace⟩ := invoke_buildCensus workspace hread
  refine ⟨fun hexit => ?_, fun reduce hreduce parallel otherLine hsameRead => ?_,
    fun dumps normalize hreads dump fault => ?_⟩
  · rw [exitCode_eq_one_iff hread, hfailure] at hexit
    obtain ⟨failure, hfailed⟩ := Option.isSome_iff_exists.1 hexit
    obtain ⟨hgains, hplace, hsame⟩ := gainsDirectories_of_failure hfailed
    rw [hworkspace, hfailure, hfailed]
    exact ⟨hgains, hplace, fun _ _ _ => hgains.file_iff, fun _ _ => hgains.readBytes_eq,
      fun hos => hsame fun e he => hos e (congrArg some he)⟩
  · have hother : ({ services with reduce } : Services).readArguments otherLine =
        .ok (.buildCensus { options with parallel }) := hsameRead
    have halike := failure_alike h.reducesAll hreduce workspace options parallel
    rw [← (invoke_buildCensus workspace hother).1, ← hfailure] at halike
    refine ⟨?_, halike⟩
    rw [exitCode_eq hread, exitCode_eq hother]
    rcases halike with hsame | ⟨fault, other, hf, ho⟩
    · rw [hsame]
    · rw [hf, ho]
      rfl
  · obtain ⟨project, hproject, hdumps, rfl⟩ := (reads_iff h).1 hreads
    rw [← failure_eq_tree_iff hproject hdumps, ← hfailure, exitCode_eq_one_iff hread]
    exact and_iff_right_of_imp fun hreported => Option.isSome_of_eq_some hreported

/-- A directory with a census and three dumps, of which the second one may not be read and the third one
starts too deep, and another directory of dumps that are well formed. -/
def brokenWorkspace : Workspace :=
  ⟨⟨.full, [(["data"], .directory .full), (["data", "a.txt"], .file (Text.encode "A\n") .full),
    (["data", "b.txt"], .file (Text.encode "A\n") .closed),
    (["data", "c.txt"], .file (Text.encode "| A\n") .full), (["good"], .directory .full),
    (["good", "a.txt"], .file (Text.encode "A\n") .full),
    (["structure.txt"], .file (Text.encode "head 0\n") .full)]⟩, []⟩

/-- Both ways to count report the second dump and leave everything. With well-formed dumps and an
output that is a directory, this directory is made and the old census stays. -/
theorem failed_build_keeps_files_broken :
    ((invoke .standard brokenWorkspace ["build", "--parallel"]).exitCode = 1 ∧
        (invoke .standard brokenWorkspace ["build"]).failure.map Failure.message =
          some "/data/b.txt: IO error: Permission denied (os error 13)" ∧
        (invoke .standard brokenWorkspace ["build", "--parallel"]).failure =
          (invoke .standard brokenWorkspace ["build"]).failure ∧
        (invoke .standard brokenWorkspace ["build"]).workspace = brokenWorkspace) ∧
      (invoke .standard brokenWorkspace ["build", "--data", "good", "-o", "new/.."]).exitCode = 1 ∧
        (invoke .standard brokenWorkspace ["build", "--data", "good", "-o", "new/.."]).workspace ≠
          brokenWorkspace ∧
        (invoke .standard brokenWorkspace
            ["build", "--data", "good", "-o", "new/.."]).workspace.store.readBytes [] "structure.txt" =
          .ok (Text.encode "head 0\n") := by
  have hread : Services.standard.readArguments ["build"] =
      .ok (.buildCensus ⟨"structure.txt", none, false, none, none⟩) := by decide +kernel
  have hparallel : Services.standard.readArguments ["build", "--parallel"] =
      .ok (.buildCensus ⟨"structure.txt", none, true, none, none⟩) := by decide +kernel
  have hgood : Services.standard.readArguments ["build", "--data", "good", "-o", "new/.."] =
      .ok (.buildCensus ⟨"new/..", none, false, some "good", none⟩) := by decide +kernel
  have hproject : discover .standard brokenWorkspace = .ok ⟨"/", "/data", "txt", none, false⟩ := by
    decide +kernel
  have hresolve : brokenWorkspace.store.resolve brokenWorkspace.place "/data" =
      .ok (["data"], .directory .full) := by decide +kernel
  have hdumps : findDumps .standard brokenWorkspace
      (buildProject ⟨"structure.txt", none, false, none, none⟩ ⟨"/", "/data", "txt", none, false⟩) =
        .ok ["/data/a.txt", "/data/b.txt", "/data/c.txt"] := by
    rw [findDumps, @Project.findDumps_of_pairwise _ _ _ _ _ _ [["a.txt"], ["b.txt"], ["c.txt"]]
      hresolve (by decide +kernel) (by decide +kernel)]
    decide +kernel
  have hreads := (reads_iff Services.reliable_standard).2 ⟨_, hproject, hdumps, rfl⟩
  have hfirst : Loads brokenWorkspace false "/data/a.txt"
      ⟨Node.rootLabel, none, .sequence, [.leaf "A" none .sequence]⟩ :=
    loadTree_eq_ok_iff.1 (by decide +kernel)
  have hsecond : CannotLoad brokenWorkspace "/data/b.txt" (.os .permissionDenied) :=
    .os (by decide +kernel)
  obtain ⟨hkept, hother, hreported⟩ :=
    @failed_build_keeps_files _ brokenWorkspace _ _ Services.reliable_standard hread
  obtain ⟨hexit, hfailure⟩ := (hreported _ _ hreads _ _).2
    ⟨["/data/a.txt"], ["/data/c.txt"], rfl, by simpa using ⟨_, hfirst⟩, hsecond⟩
  obtain ⟨hcode, hsame⟩ := hother _ Services.reliable_standard.reducesAll true _ hparallel
  have hcensus : brokenWorkspace.store.readBytes brokenWorkspace.place "structure.txt" =
      .ok (Text.encode "head 0\n") := by decide +kernel
  have houtput : (invoke .standard brokenWorkspace
      ["build", "--data", "good", "-o", "new/.."]).exitCode = 1 := by decide +kernel
  obtain ⟨-, -, -, hstays, -⟩ :=
    (failed_build_keeps_files Services.reliable_standard hgood).1 houtput
  refine ⟨⟨hcode.trans hexit, ?_, ?_, ?_⟩, houtput, by decide +kernel, hstays _ _ hcensus⟩
  · rw [hfailure]
    decide +kernel
  · rcases hsame with hsame | ⟨fault, other, -, hlabel⟩
    · exact hsame
    · rw [hfailure] at hlabel
      cases hlabel
  · refine (hkept hexit).2.2.2.2 fun e he => ?_
    rw [hfailure] at he
    cases he

end Command

end PathCensus
