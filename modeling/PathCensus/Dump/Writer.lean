import PathCensus.Dump.Line
import PathCensus.Dump.Payload
import PathCensus.Text.Blank
import PathCensus.Tree.Walk

/-!
# Writing dumps

One line per node in the order of the walk. Labels and values that would not be read back from
their line are refused.
-/

namespace PathCensus.Dump

/-- Why a tree cannot be written. -/
inductive WriteFault where
  /-- The label would not be read back. -/
  | unwritableLabel (label : String)
  /-- The value has more than one line. -/
  | multilineValue (label value : String)
  deriving DecidableEq, Repr

/-- The wording of a fault. -/
def WriteFault.message : WriteFault → String
  | .unwritableLabel label => "Label " ++ Text.quote label ++ " cannot be written to a dump"
  | .multilineValue label value =>
    "Value " ++ Text.quote value ++ " of node " ++ Text.quote label ++ " spans several lines"

/-- The label can be read back: there is one, it starts with no bar and has no white space. -/
def isWritableLabel (label : String) : Bool :=
  !label.toList.isEmpty && label.toList.head? ≠ some '|' && !label.toList.any Text.isBlank

/-- The value stays on its line. -/
def isWritableValue (value : String) : Bool :=
  !value.toList.any fun c => c = '\n' || c = '\r'

/-- The indentation of a depth. -/
def indent (depth : Nat) : String :=
  String.join (List.replicate depth indentUnit)

variable {V : Type} [Payload V]

/-- The line of a visited node. -/
def renderVisit (visit : Visit V) : Except WriteFault String :=
  let label := visit.node.label
  let value := Payload.render visit.node.value
  if !isWritableLabel label then .error (.unwritableLabel label)
  else if !isWritableValue value then .error (.multilineValue label value)
  else .ok (indent visit.depth ++ label ++ " " ++ value ++ "\n")

/-- The lines of visited nodes, up to the first fault. -/
def renderVisits : List (Visit V) → Except WriteFault (List String)
  | [] => .ok []
  | visit :: rest =>
    match renderVisit visit with
    | .error fault => .error fault
    | .ok line => (renderVisits rest).map (line :: ·)

/-- The dump of all that is below a node. -/
def render (node : Node V) : Except WriteFault String :=
  (renderVisits node.walk).map String.join

end PathCensus.Dump
