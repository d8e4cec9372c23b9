import PathCensus.Command.Options

/-!
# Reading the command line

The first argument names the request, and the others are its options and operands.
-/

namespace PathCensus.Command

/-- The one operand that a request cannot do without. -/
def operand (given : Given) : Except Stop String :=
  match given.inOrder with
  | file :: _ => .ok file
  | [] => .error .misuse

/-- The arguments of a request for paths. -/
def pathsRules : Rules :=
  ⟨[⟨"complete", none, .flag⟩, ⟨"normalize", none, .flag⟩], some 1⟩

/-- The arguments of a request for bounds. -/
def boundsRules : Rules :=
  ⟨[⟨"kind", some 'k', .once .boundsKind⟩], none⟩

/-- The arguments of a request to build a census; it takes no operand. -/
def buildRules : Rules :=
  ⟨[⟨"output", some 'o', .once .location⟩, ⟨"restructure", some 'r', .once .text⟩,
    ⟨"parallel", none, .flag⟩, ⟨"data", none, .once .location⟩,
    ⟨"limit", none, .once .number⟩], some 0⟩

/-- The arguments of a request for a matrix. -/
def matrixRules : Rules :=
  ⟨[⟨"path", some 'p', .many .text⟩, ⟨"tree", some 't', .many .number⟩], some 1⟩

/-- The arguments of a query. -/
def queryRules : Rules :=
  ⟨[⟨"path", some 'p', .many .text⟩, ⟨"activation", some 'a', .once .text⟩], some 1⟩

/-- Read the arguments of a request for paths. -/
def readPaths (arguments : List String) : Except Stop Command := do
  let given ← take pathsRules arguments
  let file ← operand given
  pure (.listPaths file (given.has "complete") (given.has "normalize"))

/-- Read the arguments of a request for bounds. -/
def readBounds (arguments : List String) : Except Stop Command := do
  let given ← take boundsRules arguments
  let kind := ((given.value? "kind").bind readBoundsKind?).getD .path
  pure (.listBounds given.inOrder kind)

/-- Read the arguments of a request to build a census. -/
def readBuild (arguments : List String) : Except Stop Command := do
  let given ← take buildRules arguments
  pure (.buildCensus
    { output := (given.value? "output").getD "structure.txt"
      restructure := given.value? "restructure"
      parallel := given.has "parallel"
      data := given.value? "data"
      limit := (given.value? "limit").bind readNumber? })

/-- Read the arguments of a request for a matrix. -/
def readMatrix (arguments : List String) : Except Stop Command := do
  let given ← take matrixRules arguments
  let file ← operand given
  pure (.showMatrix file (given.values "path") ((given.values "tree").filterMap readNumber?))

/-- Read the arguments of a query, which needs a path and an activation. -/
def readQuery (arguments : List String) : Except Stop Command := do
  let given ← take queryRules arguments
  let file ← operand given
  match given.values "path", given.value? "activation" with
  | [], _ => throw .misuse
  | _, none => throw .misuse
  | paths, some activation => pure (.countTrees file paths activation)

/-- The names of the requests. -/
def requestNames : List String :=
  ["paths", "bounds", "build", "matrix", "query", "help"]

/-- Read what help is wanted about. -/
def readHelp : List String → Stop
  | [] => .help
  | [name] => if name ∈ requestNames then .help else .misuse
  | _ => .misuse

/-- Read a command line. -/
def read : List String → Except Stop Command
  | "paths" :: arguments => readPaths arguments
  | "bounds" :: arguments => readBounds arguments
  | "build" :: arguments => readBuild arguments
  | "matrix" :: arguments => readMatrix arguments
  | "query" :: arguments => readQuery arguments
  | "help" :: arguments => .error (readHelp arguments)
  | "--help" :: _ => .error .help
  | "--version" :: _ => .error .version
  | argument :: _ =>
    match argument.toList with
    | '-' :: 'h' :: _ => .error .help
    | '-' :: 'V' :: _ => .error .version
    | _ => .error .misuse
  | [] => .error .misuse

end PathCensus.Command
