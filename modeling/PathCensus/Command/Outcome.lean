import PathCensus.Activation.Parser
import PathCensus.Command.Workspace
import PathCensus.Project.Discovery

/-!
# What comes of a request

Lines are printed, files may change, and something may have gone wrong.
-/

namespace PathCensus

/-- Why a request fails. -/
inductive Failure where
  /-- A tree cannot be loaded. -/
  | tree (location : String) (fault : LoadFault)
  /-- A census cannot be loaded. -/
  | census (fault : LoadFault)
  /-- There is something wrong with the project. -/
  | project (fault : ProjectFault)
  /-- The census cannot be saved. -/
  | save (fault : SaveFault)
  /-- A tree id was not given out. -/
  | unknownTree (unknown : UnknownTree)
  /-- The activation is malformed. -/
  | syntaxError (error : SyntaxError)
  /-- The activation refers to a path that is missing. -/
  | indexBeyond (beyond : IndexBeyond)
  deriving DecidableEq, Repr

/-- The wording of a failure. -/
def Failure.message : Failure → String
  | .tree location fault => location ++ ": " ++ fault.message
  | .census fault => fault.message
  | .project fault => fault.message
  | .save fault => fault.message
  | .unknownTree unknown => unknown.message
  | .syntaxError error => error.message
  | .indexBeyond beyond => beyond.message

/-- What comes of a request. -/
structure Outcome where
  /-- The lines that were printed. -/
  printed : List String
  /-- The files afterwards. -/
  workspace : Workspace
  /-- Why the request failed, if it did. -/
  failure : Option Failure
  deriving DecidableEq, Repr

namespace Outcome

/-- Lines are printed and no file changes. -/
def print (workspace : Workspace) (lines : List String) : Outcome :=
  ⟨lines, workspace, none⟩

/-- Nothing is printed. -/
def fail (workspace : Workspace) (failure : Failure) : Outcome :=
  ⟨[], workspace, some failure⟩

/-- Print lines first. -/
def after (lines : List String) (outcome : Outcome) : Outcome :=
  { outcome with printed := lines ++ outcome.printed }

/-- The printed text. -/
def output (outcome : Outcome) : String :=
  String.join (outcome.printed.map (· ++ "\n"))

end Outcome

end PathCensus
