import PathCensus.Census.Basic
import PathCensus.Command.Basic
import PathCensus.Files.Walk
import PathCensus.Project.Config

/-!
# What the program leaves to others

Command lines and configurations are read, directories are walked and lists are reduced by services.
The program is written for whatever they do; what it relies on is said where that is proved.
-/

namespace PathCensus

/-- What the program leaves to others. -/
structure Services where
  /-- Read the arguments of a command line. -/
  readArguments : List String → Except Command.Stop Command
  /-- Read a configuration, if it is well formed. -/
  readConfig? : List Char → Option ProjectSettings
  /-- Walk from the directory at a place through all directories below it. -/
  walk : Store → List String → List (Except OsError Met)
  /-- Combine the members of a list two by two, in any grouping; the identity may go in anywhere. -/
  reduce : (Census → Census → Census) → Census → List Census → Census

end PathCensus
