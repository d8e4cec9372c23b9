import PathCensus.Files.Text
import PathCensus.Files.Walk
import PathCensus.Project.Config
import PathCensus.Text.Order
import PathCensus.Text.Quoted

/-!
# Finding projects and their dumps

A project is where its configuration lies, in the working directory or in the nearest directory
above it. Its dumps are the files below the data directory that have the right extension, in the
order of their names.
-/

namespace PathCensus

/-- The name of the configuration. -/
def configName : String := "treecount.toml"

/-- What is wrong with a project. -/
inductive ProjectFault where
  /-- The configuration cannot be read. -/
  | config (fault : TextFault)
  /-- The configuration is malformed. -/
  | malformed
  /-- There is no data directory. -/
  | noDataDir (dataDir : String)
  deriving DecidableEq, Repr

/-- The wording of a fault. -/
def ProjectFault.message : ProjectFault → String
  | .config fault => "Failed to read " ++ configName ++ ": " ++ fault.message
  | .malformed => "Failed to parse " ++ configName
  | .noDataDir dataDir => "Data directory " ++ Text.quote dataDir ++ " does not exist"

namespace Project

/-- The project in a directory with a configuration, given how configurations are read. -/
def ofConfig (readConfig? : List Char → Option ProjectSettings) (root : String)
    (config : List Char) : Except ProjectFault Project :=
  match readConfig? config with
  | none => .error .malformed
  | some settings => .ok (ofSettings root settings)

/-- The project whose configuration lies in a directory. -/
def load (readConfig? : List Char → Option ProjectSettings) (store : Store)
    (workingPlace : List String) (root : String) : Except ProjectFault Project :=
  match store.readText workingPlace (Location.join root configName) with
  | .error fault => .error (.config fault)
  | .ok config => ofConfig readConfig? root config

/-- A configuration lies in the directory at a place. -/
def hasConfig (store : Store) (place : List String) : Bool :=
  store.has place (Location.join (Location.ofNames place) configName)

/-- The nearest place with a configuration, from a place upwards, given the names in reverse. -/
def findRoot? (store : Store) : List String → Option (List String)
  | [] => if hasConfig store [] then some [] else none
  | name :: above =>
    if hasConfig store (name :: above).reverse then some (name :: above).reverse
    else findRoot? store above

/-- The project of a working directory; without a configuration all is as an empty one says. -/
def discover (readConfig? : List Char → Option ProjectSettings) (store : Store)
    (workingPlace : List String) : Except ProjectFault Project :=
  match findRoot? store workingPlace.reverse with
  | some root => load readConfig? store workingPlace (Location.ofNames root)
  | none => ofConfig readConfig? (Location.ofNames workingPlace) []

/-- The first items of a list, as many as a limit allows. -/
def atMost {α : Type} (limit : Option Nat) (items : List α) : List α :=
  match limit with
  | none => items
  | some limit => items.take limit

/-- The dumps of a project in order, as many as the limit allows, given how directories are walked. -/
def findDumps (walk : Store → List String → List (Except OsError Met)) (store : Store)
    (workingPlace : List String) (project : Project) : Except ProjectFault (List String) :=
  match store.resolve workingPlace project.dataDir with
  | .ok (place, .directory _) =>
    let files := (filesMet (walk store place)).filter fun names =>
      (names.getLast?.bind Location.extension?) = some project.extension
    let sorted := (files.mergeSort Text.namesLe).map fun names =>
      Location.join project.dataDir ("/".intercalate names)
    .ok (atMost project.limit sorted)
  | _ => .error (.noDataDir project.dataDir)

end Project

end PathCensus
