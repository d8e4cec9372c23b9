import PathCensus.Tree.Node

/-!
# Building a tree from its preorder

Nodes arrive with their depths, parents before children. The builder keeps the nodes from the root
to the one that came last open, since these are the ones that can still get children. A node may go
at most one level below the one before it, and one that does not fit changes nothing.
-/

namespace PathCensus

/-- A node that came too deep below the one before it. -/
structure DepthJump where
  /-- Where the node was met. -/
  position : Nat
  /-- The depth that was asked for. -/
  depth : Nat
  /-- The depth of the node before, if there was one. -/
  previous : Option Nat
  deriving DecidableEq, Repr

/-- The wording of a refusal. The depth before the first node is -1. -/
def DepthJump.message (jump : DepthJump) : String :=
  "Malformed input at " ++ jump.position.repr ++ ": depth " ++ jump.depth.repr ++
    " cannot follow depth " ++ jump.previous.elim "-1" Nat.repr

/-- A tree under construction. -/
structure Builder (V : Type) where
  /-- The root with all that is closed below it. -/
  root : Node V
  /-- The open nodes below the root, the one that came last first. -/
  branch : List (Node V)
  /-- The number of nodes that were accepted. -/
  accepted : Nat

namespace Builder

variable {V : Type}

/-- Nothing is built below `root`. -/
def start (root : Node V) : Builder V :=
  ⟨root, [], 0⟩

/-- The depth of the node that came last. -/
def lastDepth? (builder : Builder V) : Option Nat :=
  match builder.branch with
  | [] => none
  | _ :: above => some above.length

/-- Close the innermost open node: it becomes a child of the one above it. -/
def closeOne (builder : Builder V) : Builder V :=
  match builder.branch with
  | [] => builder
  | [node] => { builder with root := builder.root.push node, branch := [] }
  | node :: parent :: above => { builder with branch := parent.push node :: above }

/-- Close open nodes, the innermost first. -/
def close : Nat → Builder V → Builder V
  | 0, builder => builder
  | n + 1, builder => close n builder.closeOne

/-- Attach a node at a depth; `position` says where a refused node was met. -/
def pushAt (builder : Builder V) (position depth : Nat) (node : Node V) :
    Except DepthJump (Builder V) :=
  if depth ≤ builder.branch.length then
    let closed := builder.close (builder.branch.length - depth)
    .ok { closed with branch := node :: closed.branch, accepted := closed.accepted + 1 }
  else .error ⟨position, depth, builder.lastDepth?⟩

/-- Attach a node at a depth; its position is its number among the accepted nodes, from 1. -/
def push (builder : Builder V) (depth : Nat) (node : Node V) : Except DepthJump (Builder V) :=
  builder.pushAt (builder.accepted + 1) depth node

/-- Close all nodes and take the root. -/
def finish (builder : Builder V) : Node V :=
  (builder.close builder.branch.length).root

/-- Attach nodes in turn, up to the first that does not fit. -/
def pushAll (builder : Builder V) : List (Nat × Node V) → Except DepthJump (Builder V)
  | [] => .ok builder
  | (depth, node) :: rest =>
    match builder.push depth node with
    | .error jump => .error jump
    | .ok next => next.pushAll rest

end Builder

/-- The tree below `root` whose nodes come in preorder with their depths. -/
def Node.ofPreorder {V : Type} (root : Node V) (nodes : List (Nat × Node V)) :
    Except DepthJump (Node V) :=
  ((Builder.start root).pushAll nodes).map Builder.finish

end PathCensus
