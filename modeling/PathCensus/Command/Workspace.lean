import PathCensus.Census.Dump
import PathCensus.Files.Store
import PathCensus.Text.Utf8

/-!
# Dumps in files

Trees and censuses are loaded from the files of a workspace and saved in them. Nothing is written
of a tree that cannot be rendered.
-/

namespace PathCensus

/-- Why a dump cannot be loaded from a file. -/
inductive LoadFault where
  /-- The operating system refuses. -/
  | os (error : OsError)
  /-- The dump is malformed. -/
  | dump (fault : Dump.ReadFault)
  deriving DecidableEq, Repr

/-- The wording of a fault. -/
def LoadFault.message : LoadFault → String
  | .os error => "IO error: " ++ error.message
  | .dump fault => fault.message

/-- Why a dump cannot be saved in a file. -/
inductive SaveFault where
  /-- The operating system refuses. -/
  | os (error : OsError)
  /-- The tree cannot be written. -/
  | dump (fault : Dump.WriteFault)
  deriving DecidableEq, Repr

/-- The wording of a fault. -/
def SaveFault.message : SaveFault → String
  | .os error => "IO error: " ++ error.message
  | .dump fault => fault.message

/-- Files, and the place from which locations are looked up. -/
structure Workspace where
  /-- The files. -/
  store : Store
  /-- The working directory. -/
  place : List String
  deriving DecidableEq, Repr

namespace Workspace

/-- The same files, seen from the directory at a location. -/
def enter (workspace : Workspace) (location : String) : Except OsError Workspace :=
  match workspace.store.resolve workspace.place location with
  | .error e => .error e
  | .ok (_, .file _ _) => .error .notDirectory
  | .ok (_, .directory .closed) => .error .permissionDenied
  | .ok (place, .directory _) => .ok { workspace with place }

/-- The bytes of a file. -/
def load (workspace : Workspace) (location : String) : Except LoadFault (List UInt8) :=
  match workspace.store.readBytes workspace.place location with
  | .error e => .error (.os e)
  | .ok bytes => .ok bytes

/-- Load the parse tree in a file. -/
def loadTree (workspace : Workspace) (location : String) : Except LoadFault Tree :=
  match workspace.load location with
  | .error fault => .error fault
  | .ok bytes => (Dump.readBytes .sequence bytes).mapError LoadFault.dump

/-- Load the census in a file. -/
def loadCensus (workspace : Workspace) (location : String) : Except LoadFault Census :=
  match workspace.load location with
  | .error fault => .error fault
  | .ok bytes => (Census.ofBytes bytes).mapError LoadFault.dump

/-- Save a text that may have been refused; directories that were made stay even if the file cannot
be written. -/
def save (workspace : Workspace) (location : String) (text : Except Dump.WriteFault String) :
    Workspace × Option SaveFault :=
  match text with
  | .error fault => (workspace, some (.dump fault))
  | .ok text =>
    let (store, refusal) :=
      workspace.store.writeFile workspace.place location (Text.encode text)
    ({ workspace with store }, refusal.map SaveFault.os)

/-- Save a parse tree in a file. -/
def saveTree (workspace : Workspace) (location : String) (tree : Tree) :
    Workspace × Option SaveFault :=
  workspace.save location (Dump.render tree)

/-- Save a census in a file. -/
def saveCensus (workspace : Workspace) (location : String) (census : Census) :
    Workspace × Option SaveFault :=
  workspace.save location census.render

end Workspace

end PathCensus
