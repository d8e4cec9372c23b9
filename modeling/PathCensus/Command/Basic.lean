/-!
# What the program can be asked to do
-/

namespace PathCensus

/-- Which numbers per label are wanted. -/
inductive BoundsKind where
  /-- How often a label occurs on a path. -/
  | path
  /-- How many children a node has. -/
  | adjacency
  /-- How many children of a node share a label. -/
  | edge
  deriving DecidableEq, Repr

/-- How a census is to be built. -/
structure BuildOptions where
  /-- Where the dump of the census is written. -/
  output : String
  /-- The label to restructure at. -/
  restructure : Option String
  /-- Each tree is counted for itself first. -/
  parallel : Bool
  /-- The directory of the dumps. -/
  data : Option String
  /-- How many dumps are read at most. -/
  limit : Option Nat
  deriving DecidableEq, Repr

/-- A request. -/
inductive Command where
  /-- Print the paths of a tree. -/
  | listPaths (file : String) (complete normalize : Bool)
  /-- Print numbers per label over trees. -/
  | listBounds (files : List String) (kind : BoundsKind)
  /-- Build a census of the dumps of the project. -/
  | buildCensus (options : BuildOptions)
  /-- Print counts per tree over paths. -/
  | showMatrix (file : String) (paths : List String) (trees : List Nat)
  /-- Print the number of trees whose counts pass a test. -/
  | countTrees (file : String) (paths : List String) (activation : String)
  deriving DecidableEq, Repr

namespace Command

/-- Why the command line asks for nothing that can be run. -/
inductive Stop where
  /-- Help is wanted. -/
  | help
  /-- The version is wanted. -/
  | version
  /-- The command line is malformed. -/
  | misuse
  deriving DecidableEq, Repr

end Command

end PathCensus
