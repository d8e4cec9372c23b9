import PathCensus.Command.Arguments
import PathCensus.Command.Services
import PathCensus.Project.Toml

/-!
# The services of the program
-/

namespace PathCensus

/-- The services with which the program runs. -/
def Services.standard : Services where
  readArguments := Command.read
  readConfig? := ProjectSettings.read?
  walk := Store.walk
  reduce := Census.reduceHalves

end PathCensus
