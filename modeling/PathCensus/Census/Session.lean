import PathCensus.Census.Dump

/-!
# Sessions

Several censuses are worked on side by side. They are numbered in the order in which they came, and
each call makes one more census or changes one that is there. A call that is refused leaves all
censuses as they are.
-/

namespace PathCensus

/-- A call in a session. -/
inductive Call : Type 1 where
  /-- Make a census without counts that has given out the ids below `treeCount`. -/
  | create (treeCount : Nat)
  /-- Read the lines of a dump. -/
  | read (lines : List Dump.RawLine)
  /-- Count trees, each for itself, and merge them. -/
  | count {V : Type} (trees : List (Node V))
  /-- Lay the counts below a label over each other. -/
  | restructure (source : Nat) (label : String)
  /-- Count a tree under the next id. -/
  | addTree {V : Type} (target : Nat) (tree : Node V)
  /-- Count one occurrence of a path for a tree. -/
  | addPath (target : Nat) (labels : List String) (tree : Nat)
  /-- Add the counts along every complete path of another census. -/
  | addCounts (target source : Nat)
  /-- Add the counts of another census node by node. -/
  | merge (target source : Nat)

/-- Why a call is refused. -/
inductive Refusal where
  /-- There is no census with the number. -/
  | noCensus (number : Nat)
  /-- The dump cannot be read. -/
  | unreadable (fault : Dump.ReadFault)
  /-- The tree has no id. -/
  | unknownTree (unknown : UnknownTree)
  deriving DecidableEq, Repr

/-- The censuses that were made, in order. -/
abbrev Session := List Census

namespace Session

/-- The census with a number. -/
def census (session : Session) (number : Nat) : Except Refusal Census :=
  match session[number]? with
  | some census => .ok census
  | none => .error (.noCensus number)

/-- Add a census to a session. -/
def record (session : Session) (census : Census) : Session :=
  session ++ [census]

/-- Make a call: the session after it, or why it is refused. -/
def attempt (session : Session) : Call → Except Refusal Session
  | .create treeCount => .ok (session.record (.ofTreeCount treeCount))
  | .read lines => do
    let made ← (Census.ofLines lines).mapError .unreadable
    return session.record made
  | .count trees => .ok (session.record (.ofParts trees))
  | .restructure source label => do
    let old ← session.census source
    return session.record (old.restructure label)
  | .addTree target tree => do
    let old ← session.census target
    return session.set target (old.addTree tree).2
  | .addPath target labels tree => do
    let old ← session.census target
    let changed ← (old.addPath labels tree).mapError .unknownTree
    return session.set target changed
  | .addCounts target source => do
    let old ← session.census target
    let other ← session.census source
    return session.set target (old.addCounts other)
  | .merge target source => do
    let old ← session.census target
    let other ← session.census source
    return session.set target (old.merge other)

/-- The session after a call, whether it was refused or not. -/
def perform (session : Session) (call : Call) : Session :=
  match session.attempt call with
  | .ok after => after
  | .error _ => session

/-- The session after calls, one after another, on a session without censuses. -/
def run (calls : List Call) : Session :=
  calls.foldl perform []

end Session

end PathCensus
