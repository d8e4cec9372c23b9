import PathCensus.Census.Basic
import PathCensus.Dump.Reader
import PathCensus.Dump.Writer

/-!
# Dumps of censuses

The dump of a census starts with a header that gives the number of trees. Without a header, or when
the header gives too few, there are as many trees as the largest counted id demands.
-/

namespace PathCensus.Census

/-- The rest of a text after a beginning that it must have. -/
def dropBeginning? : List Char → List Char → Option (List Char)
  | [], text => some text
  | _ :: _, [] => none
  | c :: beginning, d :: text => if c = d then dropBeginning? beginning text else none

/-- The number of trees that a header gives: the root's label, a space and a numeral. -/
def readHeader? (line : List Char) : Option Nat :=
  match dropBeginning? (Node.rootLabel.toList ++ [' ']) (Text.trimEnd line) with
  | none => none
  | some numeral => (Text.readNumeral numeral).toOption

/-- The number of trees that the header in front of lines gives, and the lines behind it. -/
def splitHeader? : List Dump.RawLine → Option (Nat × List Dump.RawLine)
  | some first :: rest => (readHeader? first).map fun count => (count, rest)
  | _ => none

/-- The least number of trees that has every counted id. -/
def leastTreeCount (root : Node Counts) : Nat :=
  (root.walk.map fun visit => visit.node.value.maxTree?.elim 0 (· + 1)).foldl max 0

/-- Read the lines of a dump. -/
def ofLines (lines : List Dump.RawLine) : Except Dump.ReadFault Census :=
  match splitHeader? lines with
  | some (declared, rest) =>
    (Dump.readLines .keyed 1 rest).map fun root => ⟨root, max declared (leastTreeCount root)⟩
  | none => (Dump.readLines .keyed 0 lines).map fun root => ⟨root, leastTreeCount root⟩

/-- Read the dump in a text. -/
def ofText (text : String) : Except Dump.ReadFault Census :=
  ofLines (Dump.linesOfText text.toList)

/-- Read the dump in bytes. -/
def ofBytes (bytes : List UInt8) : Except Dump.ReadFault Census :=
  ofLines (Dump.linesOfBytes bytes)

/-- The header line of a number of trees. -/
def header (treeCount : Nat) : String :=
  Node.rootLabel ++ " " ++ treeCount.repr ++ "\n"

/-- The dump of a census. -/
def render (census : Census) : Except Dump.WriteFault String :=
  (Dump.render census.root).map (header census.treeCount ++ ·)

end PathCensus.Census
