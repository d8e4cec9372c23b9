import PathCensus.Activation.Parser
import PathCensus.Census.Query
import PathCensus.Command.Outcome
import PathCensus.Command.Services
import PathCensus.Tree.Bounds
import PathCensus.Tree.Literals

/-!
# Carrying out requests

A request reads files of a workspace, prints text, and may write one file. The first thing that
goes wrong ends it: what was printed until then stays printed, and no file has changed.
-/

namespace PathCensus

namespace Command

/-- Load a tree for a request. -/
def loadTree (workspace : Workspace) (normalize : Bool) (location : String) :
    Except Failure Tree :=
  match workspace.loadTree location with
  | .error fault => .error (.tree location fault)
  | .ok tree => .ok (if normalize then (Literals.normalize tree).2 else tree)

/-- Load trees in turn, up to the first that cannot be loaded. -/
def loadTrees (workspace : Workspace) (normalize : Bool) :
    List String → Except Failure (List Tree)
  | [] => .ok []
  | location :: rest =>
    match loadTree workspace normalize location with
    | .error failure => .error failure
    | .ok tree => (loadTrees workspace normalize rest).map (tree :: ·)

/-- Print the paths of a tree. -/
def runPaths (workspace : Workspace) (file : String) (complete normalize : Bool) : Outcome :=
  match loadTree workspace normalize file with
  | .error failure => .fail workspace failure
  | .ok tree =>
    let found := if complete then tree.completePaths.map Node.labels else tree.canonicalPaths
    .print workspace (found.map renderPath)

/-- The line of bounds behind what they are of. -/
def boundsLine (of : String) (bounds : Bounds) : String :=
  of ++ " " ++ bounds.least.repr ++ " " ++ bounds.greatest.repr

/-- The lines of a table of bounds. -/
def tableLines (table : Bounds.Table) : List String :=
  table.entries.map fun (label, bounds) => boundsLine label bounds

/-- The lines of bounds over trees. -/
def boundsLines (kind : BoundsKind) (trees : List Tree) : List String :=
  match kind with
  | .path => tableLines (Bounds.pathsOf trees)
  | .adjacency => tableLines (Bounds.childrenOf trees)
  | .edge =>
    (Bounds.edgesOf trees).entries.flatMap fun (parent, table) =>
      table.entries.map fun (child, bounds) => boundsLine (parent ++ " " ++ child) bounds

/-- The project of the working directory. -/
def discover (services : Services) (workspace : Workspace) : Except ProjectFault Project :=
  Project.discover services.readConfig? workspace.store workspace.place

/-- The dumps of a project. -/
def findDumps (services : Services) (workspace : Workspace) (project : Project) :
    Except ProjectFault (List String) :=
  project.findDumps services.walk workspace.store workspace.place

/-- The given files, or else the dumps of the project, and whether literals are renamed. -/
def boundsFiles (services : Services) (workspace : Workspace) (files : List String) :
    Except ProjectFault (List String × Bool) :=
  if files.isEmpty then
    match discover services workspace with
    | .error fault => .error fault
    | .ok project =>
      (findDumps services workspace project).map fun dumps => (dumps, project.normalize)
  else .ok (files, false)

/-- Print numbers per label over trees. -/
def runBounds (services : Services) (workspace : Workspace) (files : List String)
    (kind : BoundsKind) : Outcome :=
  match boundsFiles services workspace files with
  | .error fault => .fail workspace (.project fault)
  | .ok (files, normalize) =>
    match loadTrees workspace normalize files with
    | .error failure => .fail workspace failure
    | .ok trees => .print workspace (boundsLines kind trees)

/-- The project that options to build ask for. -/
def buildProject (options : BuildOptions) (project : Project) : Project :=
  { project with
    dataDir := options.data.getD project.dataDir
    limit := options.limit <|> project.limit }

/-- Load dumps in turn and add each tree to a census at once. -/
def addDumps (workspace : Workspace) (normalize : Bool) (census : Census) :
    List String → Except Failure Census
  | [] => .ok census
  | location :: rest =>
    match loadTree workspace normalize location with
    | .error failure => .error failure
    | .ok tree => addDumps workspace normalize (census.addTree tree).2 rest

/-- The census of trees, each counted for itself under its own id and then merged. -/
def reduceTrees (services : Services) (trees : List Tree) : Census :=
  services.reduce Census.merge Census.empty (trees.mapIdx Census.ofTree)

/-- The census of dumps. To count the trees for themselves all of them are loaded first. -/
def countDumps (services : Services) (workspace : Workspace) (parallel normalize : Bool)
    (dumps : List String) : Except Failure Census :=
  if parallel then (loadTrees workspace normalize dumps).map (reduceTrees services)
  else addDumps workspace normalize Census.empty dumps

/-- Restructure a census if there is a label for it. -/
def restructureAt (label : Option String) (census : Census) : Census :=
  match label with
  | none => census
  | some label => census.restructure label

/-- Write the census of a build. -/
def writeCensus (workspace : Workspace) (options : BuildOptions) (census : Census) : Outcome :=
  let census := restructureAt options.restructure census
  let notice := options.restructure.toList.map fun label =>
    "Restructured at " ++ Text.quote label
  match workspace.saveCensus options.output census with
  | (workspace, some fault) => ⟨notice, workspace, some (.save fault)⟩
  | (workspace, none) =>
    .print workspace (notice ++ ["Aggregated " ++ census.treeCount.repr ++ " trees into " ++
      Text.quote options.output])

/-- Build a census of the dumps of the project. -/
def runBuild (services : Services) (workspace : Workspace) (options : BuildOptions) : Outcome :=
  match discover services workspace with
  | .error fault => .fail workspace (.project fault)
  | .ok project =>
    let project := buildProject options project
    .after ["Reading tree dumps from: " ++ Text.quote project.dataDir]
      (match findDumps services workspace project with
      | .error fault => .fail workspace (.project fault)
      | .ok [] => .print workspace ["No ." ++ project.extension ++ " files found"]
      | .ok dumps =>
        .after ["Found " ++ dumps.length.repr ++ " tree dumps"]
          (match countDumps services workspace options.parallel project.normalize dumps with
          | .error failure => .fail workspace failure
          | .ok census => writeCensus workspace options census))

/-- A list that is not empty. -/
def given? {α : Type} (items : List α) : Option (List α) :=
  if items.isEmpty then none else some items

/-- Print counts per tree over paths. -/
def runMatrix (workspace : Workspace) (file : String) (paths : List String) (trees : List Nat) :
    Outcome :=
  match workspace.loadCensus file with
  | .error fault => .fail workspace (.census fault)
  | .ok census =>
    match census.matrix (given? (paths.map readPath)) (given? trees) with
    | .error unknown => .fail workspace (.unknownTree unknown)
    | .ok totals =>
      .print workspace (totals.map fun (tree, total) => tree.repr ++ " " ++ total.repr)

/-- Print the number of trees whose counts pass a test. The test is read before the census. -/
def runQuery (workspace : Workspace) (file : String) (paths : List String) (activation : String) :
    Outcome :=
  match Activation.parse activation with
  | .error error => .fail workspace (.syntaxError error)
  | .ok activation =>
    match activation.validate paths.length with
    | .error beyond => .fail workspace (.indexBeyond beyond)
    | .ok () =>
      match workspace.loadCensus file with
      | .error fault => .fail workspace (.census fault)
      | .ok census =>
        let count := census.query (paths.map readPath) fun counts => activation.eval counts
        .print workspace [count.repr]

/-- Carry out a request. -/
def run (services : Services) (workspace : Workspace) : Command → Outcome
  | .listPaths file complete normalize => runPaths workspace file complete normalize
  | .listBounds files kind => runBounds services workspace files kind
  | .buildCensus options => runBuild services workspace options
  | .showMatrix file paths trees => runMatrix workspace file paths trees
  | .countTrees file paths activation => runQuery workspace file paths activation

/-- The name and the version of the program. -/
def versionLine : String := "treecount 0.1.0"

/-- What comes of a command line. -/
structure Invocation where
  /-- The code with which the program ends: 0 if all went well, 1 if a request failed, and 2 if the
  command line is malformed. -/
  exitCode : Nat
  /-- The text that was printed. -/
  output : String
  /-- The files afterwards. -/
  workspace : Workspace
  /-- Why the request failed, if it did. -/
  failure : Option Failure
  deriving DecidableEq, Repr

/-- Carry out what a command line asks for. -/
def invoke (services : Services) (workspace : Workspace) (arguments : List String) : Invocation :=
  match services.readArguments arguments with
  | .error .misuse => ⟨2, "", workspace, none⟩
  | .error .help => ⟨0, "", workspace, none⟩
  | .error .version => ⟨0, versionLine ++ "\n", workspace, none⟩
  | .ok command =>
    let outcome := run services workspace command
    let exitCode := if outcome.failure.isSome then 1 else 0
    ⟨exitCode, outcome.output, outcome.workspace, outcome.failure⟩

end Command

end PathCensus
