import Mathlib.Data.List.Forall2
import PathCensus.Command.Run

/-!
# What a build gathers and saves

A build gathers the trees of its dumps, and then saves their census if there are any. The gathering
does not depend on how trees are counted; it ends at the first dump that cannot be loaded. What a
command line comes to is told by its exit code.
-/

namespace PathCensus.Command

variable {services : Services} {workspace : Workspace} {options : BuildOptions} {normalize : Bool}
  {dump : String} {dumps : List String} {tree : Tree} {trees : List Tree} {failure : Failure}
  {arguments : List String} {command : Command}

/-! ## Loading -/

/-- A dump has a tree: its file can be read and is well formed, and the literals of what it shows are
renamed if they are to be. -/
def Loads (workspace : Workspace) (normalize : Bool) (dump : String) (tree : Tree) : Prop :=
  ∃ bytes read, workspace.store.readBytes workspace.place dump = .ok bytes ∧
    Dump.readBytes .sequence bytes = .ok read ∧
    tree = if normalize then (Literals.normalize read).2 else read

/-- A dump has no tree: its file cannot be read or is malformed. -/
inductive CannotLoad (workspace : Workspace) (dump : String) : LoadFault → Prop
  | os {error : OsError} (h : workspace.store.readBytes workspace.place dump = .error error) :
      CannotLoad workspace dump (.os error)
  | dump {bytes : List UInt8} {fault : Dump.ReadFault}
      (hbytes : workspace.store.readBytes workspace.place dump = .ok bytes)
      (hread : (Dump.readBytes .sequence bytes : Except Dump.ReadFault Tree) = .error fault) :
      CannotLoad workspace dump (.dump fault)

theorem loadTree_eq_ok_iff :
    loadTree workspace normalize dump = .ok tree ↔ Loads workspace normalize dump tree := by
  rw [loadTree, Workspace.loadTree, Workspace.load, Loads]
  cases workspace.store.readBytes workspace.place dump with
  | error e => simp
  | ok bytes =>
    cases hread : (Dump.readBytes .sequence bytes : Except Dump.ReadFault Tree) with
    | error fault => simp [hread, Except.mapError]
    | ok read =>
      simp only [hread, Except.mapError, Except.ok.injEq, exists_and_left, exists_eq_left']
      exact eq_comm

/-- Renaming literals is no reason for a failure. -/
theorem loadTree_eq_error_iff : loadTree workspace normalize dump = .error failure ↔
    ∃ fault, CannotLoad workspace dump fault ∧ failure = .tree dump fault := by
  rw [loadTree, Workspace.loadTree, Workspace.load]
  constructor
  · intro h
    cases hbytes : workspace.store.readBytes workspace.place dump with
    | error e =>
      simp only [hbytes, Except.error.injEq] at h
      exact ⟨_, .os hbytes, h.symm⟩
    | ok bytes =>
      cases hread : (Dump.readBytes .sequence bytes : Except Dump.ReadFault Tree) with
      | error fault =>
        simp only [hbytes, hread, Except.mapError, Except.error.injEq] at h
        exact ⟨_, .dump hbytes hread, h.symm⟩
      | ok read => simp [hbytes, hread, Except.mapError] at h
  · rintro ⟨fault, hfault, rfl⟩
    cases hfault with
    | os hbytes => simp only [hbytes]
    | dump hbytes hread => simp only [hbytes, hread, Except.mapError]

/-- Trees that are loaded are loaded one by one. -/
theorem forall₂_of_loadTrees (h : loadTrees workspace normalize dumps = .ok trees) :
    List.Forall₂ (Loads workspace normalize) dumps trees := by
  induction dumps generalizing trees with
  | nil =>
    cases h
    exact .nil
  | cons dump rest ih =>
    rw [loadTrees] at h
    cases hd : loadTree workspace normalize dump with
    | error failure => simp [hd] at h
    | ok tree =>
      cases hr : loadTrees workspace normalize rest with
      | error failure => simp [hd, hr, Except.map] at h
      | ok others =>
        simp only [hd, hr, Except.map, Except.ok.injEq] at h
        subst h
        exact .cons (loadTree_eq_ok_iff.1 hd) (ih hr)

/-- The first dump that cannot be loaded is the one that is reported. -/
theorem loadTrees_eq_error_iff :
    loadTrees workspace normalize dumps = .error failure ↔
      ∃ front dump rest fault, dumps = front ++ dump :: rest ∧
        (∀ other ∈ front, ∃ tree, Loads workspace normalize other tree) ∧
        CannotLoad workspace dump fault ∧ failure = .tree dump fault := by
  induction dumps with
  | nil => simp [loadTrees]
  | cons first dumps ih =>
    rw [loadTrees]
    cases hd : loadTree workspace normalize first with
    | error found =>
      simp only [Except.error.injEq]
      constructor
      · rintro rfl
        obtain ⟨fault, hfault, hfound⟩ := loadTree_eq_error_iff.1 hd
        exact ⟨[], first, dumps, fault, rfl, by simp, hfault, hfound⟩
      · rintro ⟨front, dump, rest, fault, he, hfront, hfault, hfailure⟩
        cases front with
        | nil =>
          obtain ⟨rfl, -⟩ := List.cons.inj he
          rw [loadTree_eq_error_iff.2 ⟨fault, hfault, hfailure⟩] at hd
          exact (Except.error.inj hd).symm
        | cons other front =>
          obtain ⟨rfl, -⟩ := List.cons.inj he
          obtain ⟨tree, htree⟩ := hfront first List.mem_cons_self
          rw [loadTree_eq_ok_iff.2 htree] at hd
          cases hd
    | ok tree =>
      have hrest : (loadTrees workspace normalize dumps).map (tree :: ·) = .error failure ↔
          loadTrees workspace normalize dumps = .error failure := by
        cases loadTrees workspace normalize dumps <;> simp [Except.map]
      simp only [hrest, ih]
      constructor
      · rintro ⟨front, dump, rest, fault, rfl, hfront, hfault⟩
        exact ⟨first :: front, dump, rest, fault, rfl,
          List.forall_mem_cons.2 ⟨⟨tree, loadTree_eq_ok_iff.1 hd⟩, hfront⟩, hfault⟩
      · rintro ⟨front, dump, rest, fault, he, hfront, hfault, hfailure⟩
        cases front with
        | nil =>
          obtain ⟨rfl, -⟩ := List.cons.inj he
          rw [loadTree_eq_error_iff.2 ⟨fault, hfault, hfailure⟩] at hd
          cases hd
        | cons other front =>
          obtain ⟨rfl, rfl⟩ := List.cons.inj he
          exact ⟨front, dump, rest, fault, rfl, (List.forall_mem_cons.1 hfront).2, hfault,
            hfailure⟩

/-- Trees that are added as they are loaded make the census of trees that are loaded first. -/
theorem addDumps_eq (workspace : Workspace) (normalize : Bool) (census : Census)
    (dumps : List String) :
    addDumps workspace normalize census dumps =
      (loadTrees workspace normalize dumps).map census.addTrees := by
  induction dumps generalizing census with
  | nil => rfl
  | cons dump rest ih =>
    rw [addDumps, loadTrees]
    cases loadTree workspace normalize dump with
    | error failure => rfl
    | ok tree =>
      simp only [ih]
      cases loadTrees workspace normalize rest <;> rfl

/-! ## Gathering -/

/-- The trees that a build counts: those of the dumps of its project. -/
def gatherTrees (services : Services) (workspace : Workspace) (options : BuildOptions) :
    Except Failure (List Tree) :=
  match discover services workspace with
  | .error fault => .error (.project fault)
  | .ok project =>
    match findDumps services workspace (buildProject options project) with
    | .error fault => .error (.project fault)
    | .ok dumps => loadTrees workspace project.normalize dumps

theorem gatherTrees_eq {project : Project} (hproject : discover services workspace = .ok project)
    (hdumps : findDumps services workspace (buildProject options project) = .ok dumps) :
    gatherTrees services workspace options = loadTrees workspace project.normalize dumps := by
  simp only [gatherTrees, hproject, hdumps]

/-- The census of trees that options to build ask for. -/
def censusOf (services : Services) (options : BuildOptions) (trees : List Tree) : Census :=
  restructureAt options.restructure
    (if options.parallel then reduceTrees services trees else Census.empty.addTrees trees)

/-- Both ways to count dumps load their trees. -/
theorem countDumps_eq (services : Services) (workspace : Workspace) (parallel normalize : Bool)
    (dumps : List String) :
    countDumps services workspace parallel normalize dumps =
      (loadTrees workspace normalize dumps).map fun trees =>
        if parallel then reduceTrees services trees else Census.empty.addTrees trees := by
  rw [countDumps, addDumps_eq]
  cases parallel <;> rfl

/-! ## What a build does with its trees -/

/-- What is printed first changes nothing else. -/
@[simp] theorem failure_after (lines : List String) (outcome : Outcome) :
    (outcome.after lines).failure = outcome.failure := rfl

@[simp] theorem workspace_after (lines : List String) (outcome : Outcome) :
    (outcome.after lines).workspace = outcome.workspace := rfl

theorem failure_writeCensus (workspace : Workspace) (options : BuildOptions) (census : Census) :
    (writeCensus workspace options census).failure =
      (workspace.saveCensus options.output
        (restructureAt options.restructure census)).2.map .save := by
  rw [writeCensus]
  rcases workspace.saveCensus options.output (restructureAt options.restructure census) with
    ⟨after, _ | fault⟩
  · rfl
  · rfl

theorem workspace_writeCensus (workspace : Workspace) (options : BuildOptions) (census : Census) :
    (writeCensus workspace options census).workspace =
      (workspace.saveCensus options.output (restructureAt options.restructure census)).1 := by
  rw [writeCensus]
  rcases workspace.saveCensus options.output (restructureAt options.restructure census) with
    ⟨after, _ | fault⟩
  · rfl
  · rfl

theorem runBuild_of_error (h : gatherTrees services workspace options = .error failure) :
    (runBuild services workspace options).failure = some failure ∧
      (runBuild services workspace options).workspace = workspace := by
  rw [gatherTrees] at h
  rw [runBuild]
  cases hproject : discover services workspace with
  | error fault =>
    simp only [hproject, Except.error.injEq] at h
    subst h
    exact ⟨rfl, rfl⟩
  | ok project =>
    simp only [hproject] at h
    simp only [failure_after, workspace_after]
    cases hdumps : findDumps services workspace (buildProject options project) with
    | error fault =>
      simp only [hdumps, Except.error.injEq] at h
      subst h
      exact ⟨rfl, rfl⟩
    | ok dumps =>
      simp only [hdumps] at h
      cases dumps with
      | nil => cases h
      | cons dump rest =>
        have hnormalize : (buildProject options project).normalize = project.normalize := rfl
        simp only [hnormalize, countDumps_eq, h, Except.map, failure_after, workspace_after]
        exact ⟨rfl, rfl⟩

/-- What a build does whose trees can be loaded. -/
theorem exists_of_gatherTrees (h : gatherTrees services workspace options = .ok trees) :
    ∃ project dumps, discover services workspace = .ok project ∧
      findDumps services workspace (buildProject options project) = .ok dumps ∧
      loadTrees workspace project.normalize dumps = .ok trees := by
  rw [gatherTrees] at h
  cases hproject : discover services workspace with
  | error fault => simp [hproject] at h
  | ok project =>
    cases hdumps : findDumps services workspace (buildProject options project) with
    | error fault => simp [hproject, hdumps] at h
    | ok dumps =>
      simp only [hproject, hdumps] at h
      exact ⟨project, dumps, rfl, hdumps, h⟩

/-- Without trees there is nothing to write. -/
theorem runBuild_of_nil (h : gatherTrees services workspace options = .ok []) :
    (runBuild services workspace options).failure = none ∧
      (runBuild services workspace options).workspace = workspace := by
  obtain ⟨project, dumps, hproject, hdumps, hload⟩ := exists_of_gatherTrees h
  cases forall₂_of_loadTrees hload
  rw [runBuild, hproject]
  simp only [failure_after, workspace_after, hdumps]
  exact ⟨rfl, rfl⟩

theorem runBuild_of_ne_nil (h : gatherTrees services workspace options = .ok trees)
    (hne : trees ≠ []) :
    (runBuild services workspace options).failure =
        (workspace.saveCensus options.output (censusOf services options trees)).2.map .save ∧
      (runBuild services workspace options).workspace =
        (workspace.saveCensus options.output (censusOf services options trees)).1 := by
  obtain ⟨project, dumps, hproject, hdumps, hload⟩ := exists_of_gatherTrees h
  have hnormalize : (buildProject options project).normalize = project.normalize := rfl
  cases forall₂_of_loadTrees hload with
  | nil => exact absurd rfl hne
  | cons _ _ =>
    rw [runBuild, hproject]
    simp only [failure_after, workspace_after, hdumps, hnormalize, countDumps_eq, hload, Except.map,
      failure_writeCensus, workspace_writeCensus]
    exact ⟨rfl, rfl⟩

/-- A build that does not fail has gathered its trees. -/
theorem exists_trees_of_runBuild (h : (runBuild services workspace options).failure = none) :
    ∃ trees, gatherTrees services workspace options = .ok trees := by
  cases hgather : gatherTrees services workspace options with
  | error failure =>
    rw [(runBuild_of_error hgather).1] at h
    cases h
  | ok trees => exact ⟨trees, rfl⟩

/-- A build that has trees and does not fail has saved their census. -/
theorem saveCensus_of_runBuild (hgather : gatherTrees services workspace options = .ok trees)
    (hne : trees ≠ []) (h : (runBuild services workspace options).failure = none) :
    workspace.saveCensus options.output (censusOf services options trees) =
      ((runBuild services workspace options).workspace, none) := by
  obtain ⟨hfailure, hworkspace⟩ := runBuild_of_ne_nil hgather hne
  rw [hfailure, Option.map_eq_none_iff] at h
  rw [hworkspace, ← h]

/-! ## Command lines -/

/-- What a command line comes to if it is read as a request. -/
theorem invoke_eq (h : services.readArguments arguments = .ok command) :
    invoke services workspace arguments =
      ⟨if (run services workspace command).failure.isSome then 1 else 0,
        (run services workspace command).output, (run services workspace command).workspace,
        (run services workspace command).failure⟩ := by
  rw [invoke, h]

/-- The exit code tells whether a request failed. -/
theorem exitCode_eq (h : services.readArguments arguments = .ok command) :
    (invoke services workspace arguments).exitCode =
      if (invoke services workspace arguments).failure.isSome then 1 else 0 := by
  rw [invoke_eq h]

theorem exitCode_eq_one_iff (h : services.readArguments arguments = .ok command) :
    (invoke services workspace arguments).exitCode = 1 ↔
      (invoke services workspace arguments).failure.isSome := by
  rw [exitCode_eq h]
  cases (invoke services workspace arguments).failure <;> simp

theorem exitCode_eq_zero_iff (h : services.readArguments arguments = .ok command) :
    (invoke services workspace arguments).exitCode = 0 ↔
      (invoke services workspace arguments).failure = none := by
  rw [exitCode_eq h]
  cases (invoke services workspace arguments).failure <;> simp

/-- What comes of a command line that asks for a build. -/
theorem invoke_buildCensus (workspace : Workspace)
    (h : services.readArguments arguments = .ok (.buildCensus options)) :
    (invoke services workspace arguments).failure =
        (runBuild services workspace options).failure ∧
      (invoke services workspace arguments).workspace =
        (runBuild services workspace options).workspace := by
  rw [invoke_eq h]
  exact ⟨rfl, rfl⟩

end PathCensus.Command
