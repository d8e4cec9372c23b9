import PathCensus.Census.Basic
import PathCensus.Text.Blank
import PathCensus.Text.Order
import PathCensus.Text.Pieces

/-!
# Questions to a census

A question names paths; a path that leads nowhere counts 0 for every tree. A matrix sums the counts
of the paths per tree, and a query counts the trees whose counts, in the order of the paths, pass a
test.
-/

namespace PathCensus

/-- The labels of a path text: the parts between slashes, without white space around them, that
are not empty. -/
def readPath (text : String) : List String :=
  (((Text.pieces '/' text.toList).map Text.trim).filter fun label => !label.isEmpty).map
    String.ofList

/-- The text of a path. -/
def renderPath (labels : List String) : String :=
  "/".intercalate labels

namespace Census

/-- All paths with the counts at their ends, in the order of their labels. -/
def profile (census : Census) : List (List String × Counts) :=
  let ends := census.root.chains.filterMap fun chain =>
    chain.getLast?.map fun node => (Node.labels chain, node.value)
  ends.mergeSort fun a b => Text.namesLe a.1 b.1

/-- The keys of a list in ascending order, each once. -/
def sortDistinct (ids : List Nat) : List Nat :=
  (ids.foldl (fun table id => table.alter id fun _ => ()) (∅ : SortedTable Nat Unit)).keys

/-- The first of several ids that was not given out. -/
def firstUnknown? (census : Census) (trees : List Nat) : Option UnknownTree :=
  (trees.find? fun tree => !decide (tree < census.treeCount)).map fun tree =>
    ⟨tree, census.treeCount⟩

/-- The trees to report, ascending: the given ones, or all. -/
def selection (census : Census) : Option (List Nat) → Except UnknownTree (List Nat)
  | none => .ok (List.range census.treeCount)
  | some trees =>
    match census.firstUnknown? trees with
    | some unknown => .error unknown
    | none => .ok (sortDistinct trees)

/-- The nodes that paths lead to, or all nodes but the root. -/
def selectedNodes (census : Census) : Option (List (List String)) → List (Node Counts)
  | none => census.root.walk.map Visit.node
  | some paths => paths.filterMap census.find?

/-- For each selected tree, ascending, the sum of its counts at the selected nodes. -/
def matrix (census : Census) (paths : Option (List (List String))) (trees : Option (List Nat)) :
    Except UnknownTree (List (Nat × Nat)) :=
  (census.selection trees).map fun selected =>
    let nodes := census.selectedNodes paths
    selected.map fun tree => (tree, sumBy (fun node => node.value.get tree) nodes)

/-- For each tree in order, its counts at the ends of the paths. -/
def vectors (census : Census) (paths : List (List String)) : List (List Nat) :=
  let nodes := paths.map census.find?
  (List.range census.treeCount).map fun tree =>
    nodes.map fun node? => node?.elim 0 fun node => node.value.get tree

/-- The number of trees whose counts at the ends of the paths pass a test. -/
def query (census : Census) (paths : List (List String)) (test : List Nat → Bool) : Nat :=
  (census.vectors paths).countP test

end Census

end PathCensus
