import PathCensus.Census.Basic

/-!
# Counters of 64 bits

The trees and the counts of a census are kept in counters of 64 bits. A counter that is to hold more
gives the work up or starts again at 0, as the program was built. What is done to censuses is told
here once more with such counters.
-/

namespace PathCensus

/-- The first number that does not fit into 64 bits. -/
def counterLimit : Nat := UInt64.size

/-- What counters do that are to hold more than fits. -/
inductive Counters where
  /-- The work is given up. -/
  | checked
  /-- The counter starts again at 0. -/
  | wrapping
  deriving DecidableEq, Repr

/-- What a counter holds that is to hold a number. -/
def Counters.hold? : Counters → Nat → Option Nat
  | .checked, n => if n < counterLimit then some n else none
  | .wrapping, n => some (n % counterLimit)

namespace Counts

/-- Count `tree` another `count` times. -/
def addWith? (counters : Counters) (counts : Counts) (tree count : Nat) : Option Counts :=
  (counters.hold? (counts.get tree + count)).map fun sum =>
    ⟨counts.table.alter tree fun _ => sum⟩

/-- Add a list of counts, one after another. -/
def addAllWith? (counters : Counters) (counts : Counts) (pairs : List (Nat × Nat)) :
    Option Counts :=
  pairs.foldlM (fun sum p => sum.addWith? counters p.1 p.2) counts

/-- The sum of two counts, tree by tree. -/
def unionWith? (counters : Counters) (a b : Counts) : Option Counts :=
  a.addAllWith? counters b.toList

end Counts

/-- Change the child with a label, which is `fresh` if there is none, unless the change is given
up. -/
def Node.alterChild? {V : Type} (node : Node V) (label : String) (fresh : Node V)
    (f : Node V → Option (Node V)) : Option (Node V) :=
  (f ((node.child? label).getD fresh)).map fun changed =>
    node.alterChild label fresh fun _ => changed

/-- Add counts along a path below a node. -/
def depositWith? (counters : Counters) :
    List (String × Counts) → Node Counts → Option (Node Counts)
  | [], node => some node
  | (label, counts) :: rest, node =>
    node.alterChild? label (freshCounts label) fun child =>
      (child.value.unionWith? counters counts).bind fun value =>
        depositWith? counters rest { child with value }

namespace Census

/-- Add counts along a path. -/
def putWith? (counters : Counters) (census : Census) (path : List (String × Counts)) :
    Option Census :=
  (depositWith? counters path census.root).map fun root => { census with root }

/-- Count one occurrence of a path of labels for a tree. -/
def countPathWith? (counters : Counters) (tree : Nat) (census : Census) (labels : List String) :
    Option Census :=
  census.putWith? counters (labels.map fun label => (label, Counts.single tree))

/-- Give out the next id and count the canonical paths of a tree under it. -/
def addTreeWith? {V : Type} (counters : Counters) (census : Census) (tree : Node V) :
    Option Census :=
  (counters.hold? (census.treeCount + 1)).bind fun treeCount =>
    tree.canonicalPaths.foldlM (countPathWith? counters census.treeCount)
      { census with treeCount }

/-- Add the counts along chains of nodes, to every node of each chain. -/
def absorbWith? (counters : Counters) (census : Census) (chains : List (List (Node Counts))) :
    Option Census :=
  chains.foldlM
    (fun sum chain => sum.putWith? counters (chain.map fun node => (node.label, node.value)))
    census

/-- Add the counts along every complete path of another census. -/
def addCountsWith? (counters : Counters) (census other : Census) : Option Census :=
  (census.absorbWith? counters other.root.completePaths).map fun sum =>
    { sum with treeCount := max census.treeCount other.treeCount }

/-- Add the counts of another census node by node, each node once. -/
def mergeWith? (counters : Counters) (census other : Census) : Option Census :=
  (other.root.chains.foldlM
    (fun (sum : Census) chain => sum.putWith? counters (lastOnly chain)) census).map fun sum =>
      { sum with treeCount := max census.treeCount other.treeCount }

/-- The counts below every topmost node with a label, laid over each other from that node on. -/
def restructureWith? (counters : Counters) (census : Census) (label : String) : Option Census :=
  (census.root.topmost label).foldlM
    (fun combined node => combined.absorbWith? counters (Node.completePathsFrom [node]))
    (ofTreeCount census.treeCount)

end Census

end PathCensus
