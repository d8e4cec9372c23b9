import PathCensus.Census.Query

/-!
# What censuses report

Adding a tree, restructuring, and asking for a path that leads nowhere leave notes for whoever
follows the work.
-/

namespace PathCensus

/-- A note about a census. -/
inductive Note where
  /-- A tree was added. -/
  | added (tree pathCount : Nat)
  /-- Subtrees were laid over each other. -/
  | restructured (label : String) (matchCount : Nat)
  /-- A path leads nowhere. -/
  | unresolved (labels : List String)
  deriving DecidableEq, Repr

/-- The wording of a note. -/
def Note.message : Note → String
  | .added tree pathCount =>
    "added tree " ++ tree.repr ++ " (" ++ pathCount.repr ++ " canonical paths)"
  | .restructured label matchCount =>
    "restructure " ++ Text.quote label ++ ": " ++ matchCount.repr ++ " matching subtrees"
  | .unresolved labels => "path " ++ renderPath labels ++ " not in structure, counting 0"

namespace Census

/-- The note on adding a tree. -/
def noteAddTree {V : Type} (census : Census) (tree : Node V) : Note :=
  .added census.treeCount tree.canonicalPaths.length

/-- The notes on counting trees for themselves before they are merged. -/
def noteParts {V : Type} (trees : List (Node V)) : List Note :=
  trees.mapIdx fun id tree => (ofTreeCount id).noteAddTree tree

/-- The note on restructuring. -/
def noteRestructure (census : Census) (label : String) : Note :=
  .restructured label (census.root.topmost label).length

/-- The notes on the paths of a query. -/
def notePaths (census : Census) (paths : List (List String)) : List Note :=
  (paths.filter fun path => (census.find? path).isNone).map Note.unresolved

/-- The notes on a matrix; nothing is looked up if a tree is refused. -/
def noteMatrix (census : Census) (paths : Option (List (List String)))
    (trees : Option (List Nat)) : List Note :=
  match census.selection trees, paths with
  | .ok _, some paths => census.notePaths paths
  | _, _ => []

end Census

end PathCensus
