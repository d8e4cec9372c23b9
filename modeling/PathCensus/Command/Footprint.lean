import PathCensus.Command.Basic
import PathCensus.Project.Discovery

/-!
# What a request looks at

The files that a request names, and the directory of dumps if it asks for those of the project.
-/

namespace PathCensus.Command

/-- The files that a request names. -/
def namedFiles : Command → List String
  | .listPaths file _ _ => [file]
  | .listBounds files _ => files
  | .buildCensus options => [options.output]
  | .showMatrix file _ _ => [file]
  | .countTrees file _ _ => [file]

/-- The directory of dumps that a request reads, for a project that has been found. -/
def dumpsIn? (project : Project) : Command → Option String
  | .listBounds [] _ => some project.dataDir
  | .buildCensus options => some (options.data.getD project.dataDir)
  | _ => none

end PathCensus.Command
