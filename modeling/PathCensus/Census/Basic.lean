import PathCensus.Counts
import PathCensus.Tree.Paths
import PathCensus.Tree.Topmost

/-!
# Censuses of canonical paths

A census is a keyed tree of counts over many parse trees, which are numbered in the order in which
they come. The node at the end of a sequence of labels counts, for each tree, the canonical paths
that begin with these labels.

All that is put into a census goes along a path of labels with counts: nodes that are missing are
made, and at each node the counts are added.
-/

namespace PathCensus

/-- The counts of all trees, and the number of trees. -/
structure Census where
  /-- The root of the counts; it counts nothing itself. -/
  root : Node Counts
  /-- The number of trees: their ids are the numbers below it. -/
  treeCount : Nat
  deriving DecidableEq

/-- A tree id that a census has not given out. -/
structure UnknownTree where
  /-- The id. -/
  tree : Nat
  /-- The number of trees of the census. -/
  treeCount : Nat
  deriving DecidableEq, Repr

/-- The wording of a refusal. -/
def UnknownTree.message (unknown : UnknownTree) : String :=
  "Tree id " ++ unknown.tree.repr ++ " is out of range (structure holds " ++
    unknown.treeCount.repr ++ " trees)"

/-- The node that a census makes where one is missing. -/
def freshCounts (label : String) : Node Counts :=
  .leaf label ∅ .keyed

/-- Add counts along a path below a node. -/
def deposit : List (String × Counts) → Node Counts → Node Counts
  | [], node => node
  | (label, counts) :: rest, node =>
    node.alterChild label (freshCounts label) fun child =>
      deposit rest { child with value := child.value ∪ counts }

namespace Census

/-- No counts, with the ids below `treeCount` given out. -/
def ofTreeCount (treeCount : Nat) : Census :=
  ⟨.root ∅ .keyed, treeCount⟩

/-- No counts and no trees. -/
def empty : Census :=
  ofTreeCount 0

instance : EmptyCollection Census := ⟨empty⟩

instance : Inhabited Census := ⟨empty⟩

/-- Add counts along a path. -/
def put (census : Census) (path : List (String × Counts)) : Census :=
  { census with root := deposit path census.root }

/-- Count one occurrence of a path of labels for a tree. -/
def countPath (tree : Nat) (census : Census) (labels : List String) : Census :=
  census.put (labels.map fun label => (label, Counts.single tree))

/-- Give out the next id and count the canonical paths of a tree under it. -/
def addTree {V : Type} (census : Census) (tree : Node V) : Nat × Census :=
  (census.treeCount,
    tree.canonicalPaths.foldl (countPath census.treeCount)
      { census with treeCount := census.treeCount + 1 })

/-- Add trees in turn. -/
def addTrees {V : Type} (census : Census) (trees : List (Node V)) : Census :=
  trees.foldl (fun census tree => (census.addTree tree).2) census

/-- Check that an id was given out. -/
def checkTree (census : Census) (tree : Nat) : Except UnknownTree Unit :=
  if tree < census.treeCount then .ok () else .error ⟨tree, census.treeCount⟩

/-- Count one occurrence of a path of labels for a tree that has an id. -/
def addPath (census : Census) (labels : List String) (tree : Nat) : Except UnknownTree Census :=
  (census.checkTree tree).map fun _ => countPath tree census labels

/-- Add the counts along chains of nodes, to every node of each chain. -/
def absorb (census : Census) (chains : List (List (Node Counts))) : Census :=
  chains.foldl (fun census chain => census.put (chain.map fun node => (node.label, node.value)))
    census

/-- Add the counts along every complete path of another census: a node adds its counts once for
every leaf at or below it. -/
def addCounts (census other : Census) : Census :=
  { census.absorb other.root.completePaths with
    treeCount := max census.treeCount other.treeCount }

/-- A chain that adds counts at its last node only. -/
def lastOnly : List (Node Counts) → List (String × Counts)
  | [] => []
  | [node] => [(node.label, node.value)]
  | node :: next :: rest => (node.label, ∅) :: lastOnly (next :: rest)

/-- Add the counts of another census node by node, each node once. -/
def merge (census other : Census) : Census :=
  { other.root.chains.foldl (fun census chain => census.put (lastOnly chain)) census with
    treeCount := max census.treeCount other.treeCount }

/-- The counts below every topmost node with a label, laid over each other from that node on; a
node adds its counts once for every leaf at or below it. -/
def restructure (census : Census) (label : String) : Census :=
  (census.root.topmost label).foldl
    (fun combined node => combined.absorb (Node.completePathsFrom [node]))
    (ofTreeCount census.treeCount)

/-- The node at the end of a path of labels; the empty path ends at the root. -/
def find? (census : Census) (labels : List String) : Option (Node Counts) :=
  census.root.descend? labels

/-- The census of one tree under an id. -/
def ofTree {V : Type} (id : Nat) (tree : Node V) : Census :=
  ((ofTreeCount id).addTree tree).2

/-- Combine censuses half by half; one on its own is combined with the identity. -/
def reduceHalves (op : Census → Census → Census) (identity : Census) : List Census → Census
  | [] => identity
  | [part] => op identity part
  | first :: second :: rest =>
    let parts := first :: second :: rest
    let half := parts.length / 2
    op (reduceHalves op identity (parts.take half)) (reduceHalves op identity (parts.drop half))
termination_by parts => parts.length
decreasing_by
  · simp only [List.length_take, List.length_cons]
    omega
  · simp only [List.length_drop, List.length_cons]
    omega

/-- Merge censuses half by half: those of the second half of a list go into those of the first. A
census on its own goes into an empty one. -/
def mergeHalves : List Census → Census :=
  reduceHalves merge empty

/-- The census of trees, each counted for itself and then merged. -/
def ofParts {V : Type} (trees : List (Node V)) : Census :=
  mergeHalves (trees.mapIdx ofTree)

end Census

end PathCensus
