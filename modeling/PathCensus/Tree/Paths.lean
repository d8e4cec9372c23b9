import PathCensus.Tree.Canonical
import PathCensus.Tree.Walk

/-!
# Paths through a tree

The chain of a visit leads from a node where the walk started to the node that is met. The chains
that end at leaves are the complete paths of a tree, and the canonical paths of their labels are
the canonical paths of the tree.
-/

namespace PathCensus

variable {V : Type}

/-- The chains of visits of a walk: a visit at some depth goes on from the first nodes, up to that
depth, of the chain before it. -/
def Visit.chains : List (Node V) → List (Visit V) → List (List (Node V))
  | _, [] => []
  | chain, visit :: visits =>
    let chain := chain.take visit.depth ++ [visit.node]
    chain :: chains chain visits

namespace Node

/-- The chain ends at a leaf. -/
def endsAtLeaf (chain : List (Node V)) : Bool :=
  chain.getLast?.any isLeaf

/-- The labels along a chain. -/
def labels (chain : List (Node V)) : List String :=
  chain.map label

/-- The chains to all that is at or below several nodes. -/
def chainsFrom (seeds : List (Node V)) : List (List (Node V)) :=
  Visit.chains [] (walkFrom seeds)

/-- The chains to all that is below a node. -/
def chains (node : Node V) : List (List (Node V)) :=
  chainsFrom node.adjacent

/-- The paths from several nodes to the leaves. -/
def completePathsFrom (seeds : List (Node V)) : List (List (Node V)) :=
  (chainsFrom seeds).filter endsAtLeaf

/-- The paths from the children of a node to the leaves. -/
def completePaths (node : Node V) : List (List (Node V)) :=
  completePathsFrom node.adjacent

/-- The labels of the canonical paths of a tree. -/
def canonicalPaths (node : Node V) : List (List String) :=
  node.completePaths.flatMap fun chain => Canonical.paths (labels chain)

end Node

end PathCensus
