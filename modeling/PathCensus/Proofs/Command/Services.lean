import PathCensus.Command.Run
import PathCensus.Command.Standard
import PathCensus.Proofs.Census.Merging
import PathCensus.Proofs.Project.Selection

/-!
# What is relied on

The program relies on little of what it leaves to others: an empty configuration says nothing, a walk
meets the files that can be come by, and a list is reduced as a whole. Command lines and configurations
may be read in any way.
-/

namespace PathCensus

/-- A list is reduced as a whole: each member goes in once, in some order and grouping. -/
def ReducesAll (reduce : (Census → Census → Census) → Census → List Census → Census) : Prop :=
  ∀ op identity parts, ∃ order : List Census,
    order.Perm parts ∧ Census.Reduced op identity order (reduce op identity parts)

/-- What the program relies on. -/
structure Services.Reliable (services : Services) : Prop where
  /-- An empty configuration is well formed and says nothing. -/
  emptyConfig : services.readConfig? [] = some ⟨none⟩
  /-- A walk meets the files that can be come by, each of them once. -/
  meetsFiles : MeetsFiles services.walk
  /-- A list is reduced as a whole. -/
  reducesAll : ReducesAll services.reduce

/-- The program can rely on its services. -/
theorem Services.reliable_standard : Services.standard.Reliable where
  emptyConfig := by decide +kernel
  meetsFiles := Store.meetsFiles_walk
  reducesAll op identity parts := ⟨parts, .refl _, Census.reduced_reduceHalves op identity parts⟩

namespace Command

/-- What a build reads: its dumps in order, and whether their literals are renamed. Where the dumps lie
and how many are read is said by the options or else by the settings that hold in the working
directory, and what these leave open is as usual. -/
def Reads (services : Services) (workspace : Workspace) (options : BuildOptions)
    (dumps : List String) (normalize : Bool) : Prop :=
  ∃ root settings,
    Configured services.readConfig? workspace.store workspace.place root settings ∧
    normalize = ((settings.data.bind DataSettings.normalize).getD false) ∧
    workspace.store.Selects workspace.place
      (options.data.getD
        (Location.join root ((settings.data.bind DataSettings.root).getD "data")))
      ((settings.data.bind DataSettings.extension).getD "txt")
      (options.limit <|> settings.data.bind DataSettings.limit) dumps

variable {services : Services} {workspace : Workspace} {options : BuildOptions}
  {dumps : List String} {normalize : Bool}

/-- A build reads the dumps that it finds in its project. -/
theorem reads_iff (h : services.Reliable) : Reads services workspace options dumps normalize ↔
    ∃ project, discover services workspace = .ok project ∧
      findDumps services workspace (buildProject options project) = .ok dumps ∧
      normalize = project.normalize := by
  have hproject : ∀ root settings, buildProject options (Project.ofSettings root settings) =
      { root
        dataDir := options.data.getD
          (Location.join root ((settings.data.bind DataSettings.root).getD "data"))
        extension := (settings.data.bind DataSettings.extension).getD "txt"
        limit := options.limit <|> settings.data.bind DataSettings.limit
        normalize := (settings.data.bind DataSettings.normalize).getD false } := by
    rintro root ⟨_ | data⟩ <;> rfl
  have hnormalize : ∀ project, (buildProject options project).normalize = project.normalize :=
    fun _ => rfl
  simp only [discover, Project.discover_eq_ok_iff h.emptyConfig, findDumps,
    Project.findDumps_eq_ok_iff h.meetsFiles]
  constructor
  · rintro ⟨root, settings, hconfigured, rfl, hselects⟩
    refine ⟨_, ⟨root, settings, hconfigured, rfl⟩, ?_, ?_⟩
    · rw [hproject]
      exact hselects
    · rw [← hnormalize, hproject]
  · rintro ⟨project, ⟨root, settings, hconfigured, rfl⟩, hselects, rfl⟩
    rw [hproject] at hselects
    refine ⟨root, settings, hconfigured, ?_, hselects⟩
    rw [← hnormalize, hproject]

end Command

end PathCensus
