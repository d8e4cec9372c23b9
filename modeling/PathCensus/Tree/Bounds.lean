import PathCensus.SortedTable
import PathCensus.Tree.Paths

/-!
# Least and greatest numbers per label

Trees are observed: how often a label occurs on a complete path, how many children a node has, and
how many of them share a label. Bounds keep the least and the greatest number observed.
-/

namespace PathCensus

/-- The least and the greatest of the numbers observed. -/
structure Bounds where
  /-- The least number. -/
  least : Nat
  /-- The greatest number. -/
  greatest : Nat
  deriving DecidableEq, Repr

namespace Bounds

/-- Bounds that take in one more number. -/
def widen (count : Nat) : Option Bounds → Bounds
  | none => ⟨count, count⟩
  | some bounds => ⟨min bounds.least count, max bounds.greatest count⟩

/-- Bounds per label, ascending by label. -/
abbrev Table := SortedTable String Bounds

/-- A table that takes in numbers observed for labels. -/
def observe (table : Table) (seen : List (String × Nat)) : Table :=
  seen.foldl (fun table s => table.alter s.1 (widen s.2)) table

/-- Each label of a list with the number of its occurrences. -/
def occurrences (labels : List String) : List (String × Nat) :=
  labels.eraseDups.map fun label => (label, labels.count label)

variable {V : Type}

/-- How often each label occurs on each complete path that has it. -/
def pathsOf (trees : List (Node V)) : Table :=
  observe ∅ (trees.flatMap fun tree =>
    tree.completePaths.flatMap fun chain => occurrences (Node.labels chain))

/-- How many children the nodes with each label have. -/
def childrenOf (trees : List (Node V)) : Table :=
  observe ∅ (trees.flatMap fun tree =>
    tree.walk.map fun visit => (visit.node.label, visit.node.children.length))

/-- How many children with each label the nodes with each label have, of those that have any. Every
label of a node has a table, which is empty if there never were children. -/
def edgesOf (trees : List (Node V)) : SortedTable String Table :=
  (trees.flatMap Node.walk).foldl
    (fun edges visit =>
      edges.alter visit.node.label fun table =>
        observe (table.getD ∅) (occurrences (Node.labels visit.node.children)))
    ∅

end Bounds

end PathCensus
