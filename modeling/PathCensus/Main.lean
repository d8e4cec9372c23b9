import PathCensus.Command.Footprint
import PathCensus.Command.Run
import PathCensus.Command.Standard

/-!
# The program

Takes a snapshot of the files that a command line can look at, carries it out on the snapshot, and
brings what was written and printed out into the world. That a directory may be filled shows only when
something is made in it.
-/

namespace PathCensus

/-- An attempt succeeds. -/
def succeeds {α : Type} (attempt : IO α) : IO Bool := do
  try
    let _ ← attempt
    return true
  catch _ => return false

/-- What may be done with a directory, as far as it shows without making anything. -/
def probeDirectory (location : String) : IO Access := do
  let listed ← succeeds (System.mkFilePath [location]).readDir
  let passed ← succeeds (System.mkFilePath [location, "."]).metadata
  return if listed && passed then .full else .closed

/-- A file with its bytes, if it may be read, and what may be done with it. -/
def probeFile (location : String) : IO StoreEntry := do
  try
    let bytes ← IO.FS.readBinFile location
    let changed ← succeeds (IO.FS.Handle.mk location .readWrite)
    return .file bytes.data.toList (if changed then .full else .readOnly)
  catch _ => return .file [] .closed

/-- What there is at a place. -/
def probe (place : List String) : IO (Option StoreEntry) := do
  let location := Location.ofNames place
  try
    let data ← (System.mkFilePath [location]).metadata
    match data.type with
    | .dir => return some (.directory (← probeDirectory location))
    | _ => return some (← probeFile location)
  catch _ => return none

/-- Take what there is at a place into a store. -/
def capture (store : Store) (place : List String) : IO Store := do
  if (store.entry? place).isSome then return store
  match ← probe place with
  | none => return store
  | some entry => return store.set place entry

/-- Take all that names lead to from a place into a store, and give the place at their end. -/
def captureAlong (store : Store) (place : List String) : List String → IO (Store × List String)
  | [] => return (store, place)
  | name :: rest => do
    let place :=
      if name = "." then place else if name = ".." then place.dropLast else place ++ [name]
    captureAlong (← capture store place) place rest

/-- Take a directory and all that is below it into a store; links are left out. -/
partial def captureBelow (store : Store) (place : List String) : IO Store := do
  let store ← capture store place
  match store.entry? place with
  | some (.directory .closed) => return store
  | some (.directory _) =>
    let mut store := store
    for child in ← (System.mkFilePath [Location.ofNames place]).readDir do
      let data ← child.path.symlinkMetadata
      match data.type with
      | .dir => store ← captureBelow store (place ++ [child.fileName])
      | .file => store ← capture store (place ++ [child.fileName])
      | _ => pure ()
    return store
  | _ => return store

/-- The working directory with the configurations that may hold there. -/
def captureStart (place : List String) : IO Workspace := do
  let root ← probeDirectory (Location.ofNames [])
  let (store, _) ← captureAlong ⟨root, []⟩ [] place
  let mut store := store
  for depth in List.range (place.length + 1) do
    store ← capture store (place.take depth ++ [configName])
  return ⟨store, place⟩

/-- All that a command line can look at. -/
def captureFor (workspace : Workspace) (arguments : List String) : IO Workspace := do
  match Services.standard.readArguments arguments with
  | .error _ => return workspace
  | .ok command =>
    let mut store := workspace.store
    for location in command.namedFiles do
      let names := Location.names location
      let (next, _) ← captureAlong store (Store.start workspace.place location) names
      store := next
    match Command.discover .standard { workspace with store } with
    | .error _ => return { workspace with store }
    | .ok project =>
      match Command.dumpsIn? project command with
      | none => return { workspace with store }
      | some dataDir =>
        let start := Store.start workspace.place dataDir
        let (next, place) ← captureAlong store start (Location.names dataDir)
        return { workspace with store := ← captureBelow next place }

/-- Bring the changes of a store out into the world. -/
def release (before after : Store) : IO Unit := do
  for (place, entry) in before.changes after do
    match entry with
    | .directory _ => IO.FS.createDirAll (Location.ofNames place)
    | .file bytes _ => IO.FS.writeBinFile (Location.ofNames place) ⟨bytes.toArray⟩

/-- A reminder of the requests. -/
def usage : String :=
  "Usage: treecount paths FILE [--complete] [--normalize]\n" ++
  "       treecount bounds [FILE]... [--kind path|adjacency|edge]\n" ++
  "       treecount build [--output FILE] [--restructure LABEL] [--parallel] [--data DIR]" ++
  " [--limit N]\n" ++
  "       treecount matrix FILE [--path PATH]... [--tree ID]...\n" ++
  "       treecount query FILE --path PATH... --activation TEXT\n"

end PathCensus

open PathCensus in
/-- Carry out the command line. -/
def main (arguments : List String) : IO UInt32 := do
  let place := Location.names (toString (← IO.currentDir))
  let workspace ← captureFor (← captureStart place) arguments
  let invocation := Command.invoke .standard workspace arguments
  try
    release workspace.store invocation.workspace.store
  catch refusal =>
    IO.eprintln ("Error: IO error: " ++ toString refusal)
    return 1
  IO.print invocation.output
  match Services.standard.readArguments arguments with
  | .error .help => IO.print usage
  | .error .misuse => IO.eprint usage
  | _ => pure ()
  if let some failure := invocation.failure then
    IO.eprintln ("Error: " ++ failure.message)
  return UInt32.ofNat invocation.exitCode
