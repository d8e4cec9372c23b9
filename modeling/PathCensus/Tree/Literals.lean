import PathCensus.Tree.Node

/-!
# Quoted literals

A label with an apostrophe at either end is the text of a literal, cut short where only one is
left. Below a root, each such node gets the common label of literals and keeps the text as its
value. In a keyed node literals then share one place, where the last of them stays.
-/

namespace PathCensus.Literals

/-- The label of every literal. -/
def literalLabel : String := "ValueStr"

/-- The text between apostrophes, one of which may be missing; a single character is no literal. -/
def unquoteChars? : List Char → Option (List Char)
  | '\'' :: second :: rest =>
    some (if (second :: rest).getLast? = some '\'' then (second :: rest).dropLast
      else second :: rest)
  | first :: second :: rest =>
    if (second :: rest).getLast? = some '\'' then some (first :: (second :: rest).dropLast)
    else none
  | _ => none

/-- The text of a quoted label. -/
def unquote? (label : String) : Option String :=
  (unquoteChars? label.toList).map String.ofList

/-- A node without its quotes, if its label has any. -/
def rename (node : Tree) : Tree :=
  match unquote? node.label with
  | some text => { node with label := literalLabel, value := some text }
  | none => node

/-- The number of nodes that are quoted literals. -/
def countQuoted (nodes : List Tree) : Nat :=
  nodes.countP fun node => (unquote? node.label).isSome

/-- Children as a layout keeps them: those of a keyed node with one label share a place. The
children carry the number of literals found below them. -/
def settle (layout : Layout) (children : List (Nat × Tree)) : List (Nat × Tree) :=
  match layout with
  | .sequence => children
  | .keyed => Replacing.ofList (fun c => c.2.label) children

mutual

/-- Rename the literals below a node and count them; a literal that loses its place in a keyed node
counts, what is below it does not. -/
def normalize : Tree → Nat × Tree
  | ⟨label, value, layout, children⟩ =>
    let settled := settle layout (normalizeEach children)
    (countQuoted children + sumBy Prod.fst settled,
      ⟨label, value, layout, settled.map Prod.snd⟩)

/-- Rename each of several nodes and the literals below it; the count leaves out the node. -/
def normalizeEach : List Tree → List (Nat × Tree)
  | [] => []
  | child :: rest =>
    let (count, node) := normalize child
    (count, rename node) :: normalizeEach rest

end

end PathCensus.Literals
